import Scorch.OneBlock
import Scorch.Paging
import Scorch.TableCreation

/-!
# Frames in entries

The frame of an entry is read with `I86_PTE_FRAME`, the bits from 12 to 30, and stored by an
`|` with the whole address. Bit 31 of a frame is not read back, and bit 31 of an entry is not
cleared before a frame is stored.

So what is freed through an entry is the frame that was stored just below 2 GiB. A page table
that is created and taken down again leaves the physical manager as it was when its frame is
there and the flags change no bit that is read (`unmapPageTable_createPageTable_iff`), and so
does a page that is allocated and freed, if its entry had bit 31 clear besides
(`freePage_allocPage_iff`).
-/

open ByteMemory

namespace Scorch

open Pmm

/-! ## Pages -/

/-- `pt_entry_del_attrib`. -/
def ptEntryDelAttrib (e attrib : Word) : Word :=
  e &&& ~~~attrib

/-- `pt_entry_pfn`. -/
def ptEntryPfn (e : Word) : Word :=
  e &&& pteFrame

/-- Returns whether there was a frame, the entry, and the physical manager. -/
def vmmngrAllocPage (s : Pmm) (e : Word) : Bool × Word × Pmm :=
  let p := (pmmngrAllocBlock s).1
  let s := (pmmngrAllocBlock s).2
  if p = 0 then (false, e, s)
  else (true, ptEntryAddAttrib (ptEntrySetFrame e p) 1, s)

/-- `vmmngr_free_page`. -/
def vmmngrFreePage (s : Pmm) (e : Word) : Word × Pmm :=
  let p := ptEntryPfn e
  let s := if p ≠ 0 then pmmngrFreeBlock s p else s
  (ptEntryDelAttrib e 1, s)

/-! ## The mask -/

/-- The mask of the frame has bits `12` to `30`, and not bit `31`. -/
theorem getLsbD_pteFrame : ∀ t < 32, pteFrame.getLsbD t = decide (12 ≤ t ∧ t < 31) := by
  decide

theorem toNat_and_pteFrame (w : Word) :
    (w &&& pteFrame).toNat = w.toNat % 2 ^ 31 / 4096 * 4096 := by
  have hmask : w &&& pteFrame = pageOf (w &&& 0x7FFFFFFF) := by
    rw [pageOf, BitVec.and_assoc]
    rfl
  rw [hmask, toNat_pageOf, toNat_and_low (k := 31) w rfl]

/-- The frame an entry frees is `f` when it reads as the address of `f`, below 2 GiB. -/
theorem toNat_and_pteFrame_div_eq_iff (w : Word) (f : ℕ) :
    (w &&& pteFrame).toNat / 4096 = f ↔ f < 2 ^ 19 ∧ w &&& pteFrame = frameAddr f := by
  rw [← BitVec.toNat_inj, toNat_frameAddr, toNat_and_pteFrame]
  omega

/-- A block comes from the least clear frame. -/
theorem exists_frame_of_block {s : Pmm} (h : (pmmngrAllocBlock s).1 ≠ 0) :
    ∃ f, IsLeast s.clear f ∧ pmmngrAllocBlock s = (frameAddr f, s.granted f 1) := by
  rcases pmmngrAllocBlock_cases s with ⟨heq, -⟩ | ⟨f, -, hf, heq⟩
  · exact absurd (congrArg Prod.fst heq) h
  · exact ⟨f, hf.isLeast_clear, heq⟩

/-! ## Tables -/

section Table

variable {s : Vmm} {dir v flags : Word} (hempty : s.pagedir dir (dirIndex v) = 0)
  (hb : s.block ≠ 0) (hcovered : s.pagedir dir (dirIndex s.block) ≠ 0)
  (hclear : ∀ x ∈ Mem.block dir 4096, x ∉ Mem.block (s.block ||| flags) 4096)

include hempty hb hcovered hclear

/-- With a table that covers the block, a new table is the slot, the `memset` and one entry. -/
theorem createPageTable_of_covered : (vmmngrCreatePageTable s dir v flags).2 =
    (s.installTable dir v flags).setEntry dir s.block (s.block ||| flags) := by
  have hne : dirIndex s.block ≠ dirIndex v := fun h => hcovered (h ▸ hempty)
  have hslot := Vmm.pagedir_installTable_of_notMem (v := v) hclear (dirIndex_lt s.block)
  rw [if_neg hne] at hslot
  rw [createPageTable_of_block hempty hb, mapPhysicalAddress_of_table (by rwa [hslot])]

variable (hdir : 4 ∣ dir.toNat)

include hdir

/-- The slot holds the block with the flags. The entry of the block is another word, or the
same with the same value. -/
theorem pagedir_createPageTable :
    (vmmngrCreatePageTable s dir v flags).2.pagedir dir (dirIndex v) = s.block ||| flags := by
  set t := s.installTable dir v flags
  have hslot : t.pagedir dir (dirIndex v) = s.block ||| flags := by
    rw [Vmm.pagedir_installTable_of_notMem hclear (dirIndex_lt v), if_pos rfl]
  have hentry : (t.entryAddr dir s.block).toNat % 4 = 0 := by
    have hpage := isPage_pageOf (t.pagedir dir (dirIndex s.block))
    rw [IsPage] at hpage
    rw [Vmm.entryAddr]
    bv_omega
  have hword : (dir + 4 * dirIndex v).toNat % 4 = 0 := by
    obtain ⟨d, hd⟩ := hdir
    bv_omega
  rw [createPageTable_of_covered hempty hb hcovered hclear]
  rcases Mem.eq_or_apart hentry hword with heq | hapart
  · rw [Vmm.setEntry, Vmm.pagedir, heq]
    exact Mem.load32_store32_self _ _ _
  · exact (Mem.load32_store32_of_apart hapart).trans hslot

/-- Taking the table down frees what the slot reads as. -/
theorem unmapPageTable_createPageTable :
    (vmmngrUnmapPageTable (vmmngrCreatePageTable s dir v flags).2 dir v).pagedir dir
        (dirIndex v) = 0 ∧
      (vmmngrUnmapPageTable (vmmngrCreatePageTable s dir v flags).2 dir v).pmm =
        pmmngrFreeBlock (pmmngrAllocBlock s.pmm).2 ((s.block ||| flags) &&& pteFrame) := by
  have hslot := pagedir_createPageTable hempty hb hcovered hclear hdir
  have hne : (vmmngrCreatePageTable s dir v flags).2.pagedir dir (dirIndex v) ≠ 0 := by
    rw [hslot]
    exact Vmm.or_ne_zero hb
  rw [vmmngrUnmapPageTable, if_pos hne, hslot]
  refine ⟨Mem.load32_store32_self _ _ _, ?_⟩
  rw [createPageTable_of_covered hempty hb hcovered hclear]
  rfl

/-- A table that is created and taken down again leaves its slot empty, and the physical
manager as it was just when its frame is below 2 GiB and the flags change no bit of it that is
read. -/
theorem unmapPageTable_createPageTable_iff :
    (vmmngrUnmapPageTable (vmmngrCreatePageTable s dir v flags).2 dir v).pagedir dir
        (dirIndex v) = 0 ∧
      (vmmngrUnmapPageTable (vmmngrCreatePageTable s dir v flags).2 dir v).pmm = s.pmm ↔
      ∃ f < 2 ^ 19, IsLeast s.pmm.clear f ∧
        (frameAddr f ||| flags) &&& pteFrame = frameAddr f := by
  obtain ⟨f, hf, halloc⟩ := exists_frame_of_block hb
  obtain ⟨hzero, hpmm⟩ := unmapPageTable_createPageTable hempty hb hcovered hclear hdir
  have hblock : s.block = frameAddr f := congrArg Prod.fst halloc
  rw [hpmm, halloc, and_iff_right hzero, pmmngrFreeBlock_granted_iff hf,
    toNat_and_pteFrame_div_eq_iff, hblock]
  constructor
  · exact fun h => ⟨f, h.1, hf, h.2⟩
  · rintro ⟨g, hg, hgleast, hmask⟩
    obtain rfl := hgleast.unique hf
    exact ⟨hg, hmask⟩

end Table

/-- A table in frame `3` for the second 4 MiB. -/
theorem unmapPageTable_createPageTable_oneTable :
    (vmmngrUnmapPageTable (vmmngrCreatePageTable oneTable 0x1000 0x400000 3).2 0x1000
        0x400000).pagedir 0x1000 (dirIndex 0x400000) = 0 ∧
      (vmmngrUnmapPageTable (vmmngrCreatePageTable oneTable 0x1000 0x400000 3).2 0x1000
        0x400000).pmm = oneTable.pmm ↔
      ∃ f < 2 ^ 19, IsLeast oneTable.pmm.clear f ∧
        (frameAddr f ||| 3) &&& pteFrame = frameAddr f := by
  have hcan := canInstall_oneTable (v := 0x400000) rfl
  have hblock : oneTable.block = 0x3000 := by decide
  have hcovered : oneTable.pagedir 0x1000 (dirIndex oneTable.block) ≠ 0 := by
    rw [hblock]
    exact oneTable_ne_zero rfl
  exact unmapPageTable_createPageTable_iff hcan.empty hcan.block_ne_zero hcovered
    (fun _ hx => Vmm.notMem_block_of_page_ne oneTable.isPage_block hcan.wellFormed.isPage
      hcan.block_ne_dir hcan.next_ne_dir (by decide) hx) ⟨0x400, rfl⟩

/-- A map with only frame `2^19` clear, the first frame from 2 GiB on. -/
def highFramePmm : Pmm where
  mem a := if a = 0x10000 then 0xfe else 0xff
  mmngrMemorySize := 0
  mmngrUsedBlocks := 0xfffff
  mmngrMaxBlocks := 0x100000
  mmngrMemoryMap := 0

theorem isLeast_clear_highFramePmm : IsLeast highFramePmm.clear (2 ^ 19) := by
  refine ⟨⟨by decide, by decide⟩, fun g hg => ?_⟩
  have hbyte := (frameUsed_eq_byte highFramePmm g).symm.trans hg.2
  by_contra hlt
  have haddr : highFramePmm.mmngrMemoryMap + BitVec.ofNat 32 (g / 8) ≠ 0x10000 := by
    show (0 : Word) + BitVec.ofNat 32 (g / 8) ≠ 0x10000
    bv_omega
  have hones : ∀ t < 8, (0xff : Byte).getLsbD t = true := by decide
  have hmem : highFramePmm.mem (highFramePmm.mmngrMemoryMap + BitVec.ofNat 32 (g / 8)) = 0xff :=
    if_neg haddr
  rw [hmem, hones _ (Nat.mod_lt _ (by decide))] at hbyte
  exact absurd hbyte (by decide)

theorem pmmngrAllocBlock_highFramePmm :
    pmmngrAllocBlock highFramePmm = (0x80000000, highFramePmm.granted (2 ^ 19) 1) :=
  pmmngrAllocBlock_of_isLeast isLeast_clear_highFramePmm (by norm_num) (by decide)

/-- A directory in frame `1`, with a table for the third gigabyte's first 4 MiB. -/
def highTable : Vmm where
  pmm := highFramePmm
  mem := Mem.store32 (fun _ => 0) (0x1000 + 4 * 512) 0x2003
  curDirectory := 0x1000
  nullStores := 0

/-- Taking down a table in frame `2^19` frees frame `0` in its place. -/
theorem pmm_unmapPageTable_highTable :
    (vmmngrUnmapPageTable (vmmngrCreatePageTable highTable 0x1000 0x400000 3).2 0x1000
      0x400000).pmm ≠ highTable.pmm := by
  have hpmm : highTable.pmm = highFramePmm := rfl
  have hblock : highTable.block = 0x80000000 := by
    rw [Vmm.block, hpmm, pmmngrAllocBlock_highFramePmm]
  have hempty : highTable.pagedir 0x1000 (dirIndex 0x400000) = 0 := by
    refine (Mem.load32_store32_of_apart ⟨by decide, by decide⟩).trans ?_
    exact (Mem.load32_eq_zero_iff _ _).2 fun _ _ => rfl
  have hcovered : highTable.pagedir 0x1000 (dirIndex highTable.block) ≠ 0 := by
    have hslot : highTable.pagedir 0x1000 512 = 0x2003 := Mem.load32_store32_self _ _ _
    have hindex : dirIndex highTable.block = 512 := by
      rw [hblock]
      decide
    rw [hindex, hslot]
    decide
  have hclear : ∀ x ∈ Mem.block (0x1000 : Word) 4096,
      x ∉ Mem.block (highTable.block ||| 3) 4096 := by
    intro x hx
    rw [hblock]
    exact Vmm.notMem_block_of_page_ne (p := 0x80000000) (q := 0x1000) rfl rfl (by decide)
      (by decide) (by decide) hx
  have hne : highTable.block ≠ 0 := by
    rw [hblock]
    decide
  have hfreed := (unmapPageTable_createPageTable hempty hne hcovered hclear ⟨0x400, rfl⟩).2
  rw [hfreed, hblock, hpmm, pmmngrAllocBlock_highFramePmm]
  exact mt (pmmngrFreeBlock_granted_iff isLeast_clear_highFramePmm _).1 (by decide)

/-! ## Pages -/

/-- The entry holds the frame at `p` and is present, and else is as before. -/
def HoldsFrame (e e' p : Word) : Prop :=
  (∀ t, 12 ≤ t → t < 32 → e'.getLsbD t = p.getLsbD t) ∧ e'.getLsbD 0 = true ∧
    ∀ t, 0 < t → t < 12 → e'.getLsbD t = e.getLsbD t

section Page

variable {s : Pmm} {p : Word}

/-- `vmmngr_alloc_page` puts the block into the entry. -/
theorem allocPage_of_block (h : (pmmngrAllocBlock s).1 ≠ 0) (e : Word) :
    vmmngrAllocPage s e =
      (true, ptEntryAddAttrib (ptEntrySetFrame e (pmmngrAllocBlock s).1) 1,
        (pmmngrAllocBlock s).2) :=
  if_neg h

theorem getLsbD_of_isPage (hp : IsPage p) {t : ℕ} (ht : t < 12) : p.getLsbD t = false := by
  have hpage : p = pageOf p := by
    rw [← BitVec.toNat_inj, toNat_pageOf]
    rw [IsPage] at hp
    omega
  have hlow : ∀ t < 12, (0xfff : Word).getLsbD t = true := by decide
  rw [hpage, pageOf, BitVec.getLsbD_and, BitVec.getLsbD_not, hlow t ht, Bool.not_true,
    Bool.and_false, Bool.and_false]

/-- The entry keeps its bit 31, and takes the bits of the address. -/
theorem getLsbD_setFrame (hp : IsPage p) (e : Word) {t : ℕ} (ht : t < 32) :
    (ptEntryAddAttrib (ptEntrySetFrame e p) 1).getLsbD t =
      if t = 0 then true else if t < 12 then e.getLsbD t
      else p.getLsbD t || (decide (t = 31) && e.getLsbD 31) := by
  have hone : (1 : Word).getLsbD t = decide (t = 0) := BitVec.getLsbD_one.trans (by simp)
  rw [ptEntryAddAttrib, ptEntrySetFrame, BitVec.getLsbD_or, BitVec.getLsbD_or, BitVec.getLsbD_and,
    BitVec.getLsbD_not, getLsbD_pteFrame t ht, hone]
  by_cases h0 : t = 0
  · simp [h0]
  by_cases hlow : t < 12
  · rw [getLsbD_of_isPage hp hlow]
    simp [h0, hlow, ht, show ¬12 ≤ t by omega]
  by_cases h31 : t = 31
  · simp [h31, Bool.or_comm]
  · simp [h0, hlow, h31, ht, show 12 ≤ t ∧ t < 31 by omega]

/-- The entry holds the frame unless its bit `31` was set before and the bit of the frame is not. -/
theorem holdsFrame_setFrame_iff (hp : IsPage p) (e : Word) :
    HoldsFrame e (ptEntryAddAttrib (ptEntrySetFrame e p) 1) p ↔
      (e.getLsbD 31 = true → p.getLsbD 31 = true) := by
  constructor
  · intro h he
    have hbit := h.1 31 (by norm_num) (by norm_num)
    rw [getLsbD_setFrame hp e (by norm_num)] at hbit
    simpa [he] using hbit
  · intro h
    refine ⟨fun t h12 ht => ?_, ?_, fun t h0 h12 => ?_⟩
    · rw [getLsbD_setFrame hp e ht, if_neg (by omega), if_neg (by omega)]
      by_cases h31 : t = 31
      · subst h31
        cases he : e.getLsbD 31 with
        | false => simp
        | true => simp [h he]
      · simp [h31]
    · rw [getLsbD_setFrame hp e (by norm_num), if_pos rfl]
    · rw [getLsbD_setFrame hp e (by omega), if_neg (by omega), if_pos h12]

/-- The frame read back is the one stored, less bit 31. -/
theorem pfn_setFrame (hp : IsPage p) (e : Word) :
    ptEntryPfn (ptEntryAddAttrib (ptEntrySetFrame e p) 1) = p &&& pteFrame := by
  refine BitVec.eq_of_getLsbD_eq fun t ht => ?_
  rw [ptEntryPfn, BitVec.getLsbD_and, BitVec.getLsbD_and, getLsbD_setFrame hp e ht,
    getLsbD_pteFrame t ht]
  by_cases hmask : 12 ≤ t ∧ t < 31
  · simp [hmask, show t ≠ 0 by omega, show ¬t < 12 by omega, show t ≠ 31 by omega]
  · simp [hmask]

/-- The free restores the physical manager just when the frame is below 2 GiB. A frame that
reads back as zero is not freed. -/
theorem pmm_freePage_iff {f : ℕ} (hf : IsLeast s.clear f) (hp : frameAddr f ≠ 0) (e : Word) :
    (vmmngrFreePage (s.granted f 1)
      (ptEntryAddAttrib (ptEntrySetFrame e (frameAddr f)) 1)).2 = s ↔ f < 2 ^ 19 := by
  have hread : (frameAddr f &&& pteFrame).toNat = f % 2 ^ 19 * 4096 := by
    rw [toNat_and_pteFrame, toNat_frameAddr]
    omega
  have hne : f % 2 ^ 20 ≠ 0 := mt (frameAddr_eq_zero_iff f).2 hp
  rw [vmmngrFreePage, pfn_setFrame (isPage_frameAddr f)]
  dsimp only
  split_ifs with hzero
  · rw [pmmngrFreeBlock_granted_iff hf, hread]
    omega
  · rw [not_not, ← BitVec.toNat_inj, hread] at hzero
    have h0 : (0 : Word).toNat = 0 := rfl
    refine iff_of_false (fun heq => ?_) (by omega)
    have hcount := congrArg Pmm.mmngrUsedBlocks heq
    rw [mmngrUsedBlocks_granted] at hcount
    bv_omega

/-- Allocating a page stores its frame in the entry, and freeing it undoes the allocation,
just when the frame is below 2 GiB and bit 31 of the entry was clear. -/
theorem freePage_allocPage_iff (h : (pmmngrAllocBlock s).1 ≠ 0) (e : Word) :
    HoldsFrame e (vmmngrAllocPage s e).2.1 (pmmngrAllocBlock s).1 ∧
        (vmmngrFreePage (vmmngrAllocPage s e).2.2 (vmmngrAllocPage s e).2.1).1.getLsbD 0 = false ∧
        (vmmngrFreePage (vmmngrAllocPage s e).2.2 (vmmngrAllocPage s e).2.1).2 = s ↔
      e.getLsbD 31 = false ∧ ∃ f < 2 ^ 19, IsLeast s.clear f := by
  obtain ⟨f, hf, halloc⟩ := exists_frame_of_block h
  have hp : frameAddr f ≠ 0 := by rwa [halloc] at h
  have hleast : (∃ f < 2 ^ 19, IsLeast s.clear f) ↔ f < 2 ^ 19 :=
    ⟨fun ⟨g, hg, hgleast⟩ => hgleast.unique hf ▸ hg, fun hlt => ⟨f, hlt, hf⟩⟩
  have hpresent : ∀ e : Word, (ptEntryDelAttrib e 1).getLsbD 0 = false := fun e => by
    rw [ptEntryDelAttrib, BitVec.getLsbD_and, BitVec.getLsbD_not]
    simp
  rw [allocPage_of_block h, halloc, hleast]
  dsimp only
  rw [holdsFrame_setFrame_iff (isPage_frameAddr f), pmm_freePage_iff hf hp]
  have hlow : f < 2 ^ 19 → (frameAddr f).getLsbD 31 = false := fun hlt => by
    have hmsb : (frameAddr f).msb = false := by
      rw [BitVec.msb_eq_false_iff_two_mul_lt, toNat_frameAddr]
      omega
    rwa [BitVec.msb_eq_getLsbD_last] at hmsb
  constructor
  · rintro ⟨hhigh, -, hlt⟩
    rw [hlow hlt] at hhigh
    exact ⟨by simpa using hhigh, hlt⟩
  · rintro ⟨he, hlt⟩
    exact ⟨fun h31 => absurd (he.symm.trans h31) Bool.false_ne_true, hpresent _, hlt⟩

end Page

/-- Frame `1` in an entry that is writable. -/
theorem freePage_allocPage_lastFrame :
    HoldsFrame 2 (vmmngrAllocPage lastFramePmm 2).2.1 (pmmngrAllocBlock lastFramePmm).1 ∧
        (vmmngrFreePage (vmmngrAllocPage lastFramePmm 2).2.2
          (vmmngrAllocPage lastFramePmm 2).2.1).1.getLsbD 0 = false ∧
        (vmmngrFreePage (vmmngrAllocPage lastFramePmm 2).2.2
          (vmmngrAllocPage lastFramePmm 2).2.1).2 = lastFramePmm ↔
      (2 : Word).getLsbD 31 = false ∧ ∃ f < 2 ^ 19, IsLeast lastFramePmm.clear f :=
  freePage_allocPage_iff (by decide) 2

/-- An entry with bit 31 set keeps it, and frame `2^19` stays used when the page in it is
freed. -/
theorem freePage_allocPage_high :
    (pmmngrAllocBlock lastFramePmm).1 = 0x1000 ∧
      (vmmngrAllocPage lastFramePmm 0x80000000).2.1 = 0x80001001 ∧
      (pmmngrAllocBlock highFramePmm).1 = 0x80000000 ∧
      2 ^ 19 ∈ (vmmngrFreePage (vmmngrAllocPage highFramePmm 0).2.2
        (vmmngrAllocPage highFramePmm 0).2.1).2.used := by
  refine ⟨by decide, by decide, congrArg Prod.fst pmmngrAllocBlock_highFramePmm, ?_⟩
  have hne : (pmmngrAllocBlock highFramePmm).1 ≠ 0 := by
    rw [pmmngrAllocBlock_highFramePmm]
    decide
  have hpfn : ptEntryPfn (ptEntryAddAttrib (ptEntrySetFrame 0 0x80000000) 1) = 0 := by decide
  have hbit : bitNumber (BitVec.ofNat 32 (2 ^ 19)) = 2 ^ 19 := bitNumber_ofNat (by norm_num)
  rw [allocPage_of_block hne, pmmngrAllocBlock_highFramePmm, vmmngrFreePage]
  dsimp only
  rw [hpfn, if_neg (not_not.2 rfl), used_granted_one, hbit]
  exact Set.mem_insert _ _

end Scorch
