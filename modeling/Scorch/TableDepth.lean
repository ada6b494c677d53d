import Mathlib.Data.Finset.Card
import Scorch.OneBlock
import Scorch.TableCreation

/-!
# How deep the creation of tables goes

`vmmngr_createPageTable` maps the frame of a new table, which may need a table of its own.
Each call that gets a frame fills a slot of the directory that was empty, and what it clears
lies in the frame and the frame behind it. While these have no byte of the directory
(`FramesApart`), a filled slot stays filled, so the calls of `pmmngr_alloc_block` are no more
than the slots that were empty (`allocatesAtMost_emptySlots`).

Nothing else of the address space matters for this count : the entries are stored after the
last frame is taken.
-/

open ByteMemory

namespace Scorch

namespace Pmm

/-- An allocation takes one frame at most. -/
theorem used_pmmngrAllocBlock_sdiff (s : Pmm) :
    ((pmmngrAllocBlock s).2.used \ s.used).encard ≤ 1 := by
  rcases pmmngrAllocBlock_cases s with ⟨heq, -⟩ | ⟨f, -, -, heq⟩
  · simp [heq]
  · rw [heq, used_granted_one, ← Set.encard_singleton (bitNumber (BitVec.ofNat 32 f))]
    refine Set.encard_le_encard fun g hg => ?_
    exact (Set.mem_insert_iff.1 hg.1).resolve_right hg.2

/-- With no block free the manager stays as it is. -/
theorem pmmngrAllocBlock_of_none_free {s : Pmm} (h : pmmngrGetFreeBlockCount s = 0) :
    pmmngrAllocBlock s = (0, s) := by
  rcases pmmngrAllocBlock_cases s with ⟨heq, -⟩ | ⟨f, hfree, -, -⟩
  · exact heq
  · exact absurd h hfree

theorem afterAllocs_of_none_free {s : Pmm} (h : pmmngrGetFreeBlockCount s = 0) (n : ℕ) :
    s.afterAllocs n = s :=
  Function.iterate_fixed (congrArg Prod.snd (pmmngrAllocBlock_of_none_free h)) n

/-- Each call of `pmmngr_alloc_block` sets one bit or none. -/
theorem used_afterAllocs_sdiff (n : ℕ) (s : Pmm) :
    ((s.afterAllocs n).used \ s.used).encard ≤ n := by
  induction n generalizing s with
  | zero => simp [afterAllocs]
  | succ n ih =>
    set s₁ := (pmmngrAllocBlock s).2
    have hsub : (s₁.afterAllocs n).used \ s.used ⊆
        (s₁.afterAllocs n).used \ s₁.used ∪ s₁.used \ s.used := by
      intro g hg
      by_cases hg₁ : g ∈ s₁.used
      · exact Or.inr ⟨hg₁, hg.2⟩
      · exact Or.inl ⟨hg.1, hg₁⟩
    rw [afterAllocs_succ, Nat.cast_succ]
    calc ((s₁.afterAllocs n).used \ s.used).encard
        ≤ ((s₁.afterAllocs n).used \ s₁.used).encard + (s₁.used \ s.used).encard :=
          (Set.encard_le_encard hsub).trans (Set.encard_union_le _ _)
      _ ≤ n + 1 := add_le_add (ih s₁) (used_pmmngrAllocBlock_sdiff s)

end Pmm

namespace Vmm

/-- The number of slots of the directory that are empty. -/
def emptySlots (s : Vmm) (dir : Word) : ℕ :=
  ((Finset.range 1024).filter fun i => s.pagedir dir (BitVec.ofNat 32 i) = 0).card

/-- The frames handed out to fill the empty slots, and the frames behind them, have no byte
in common with the directory. -/
def FramesApart (s : Vmm) (dir : Word) : Prop :=
  ∀ n < s.emptySlots dir, (pmmngrAllocBlock (s.pmm.afterAllocs n)).1 ≠ 0 →
    Disjoint (Mem.block (pmmngrAllocBlock (s.pmm.afterAllocs n)).1 4096) (Mem.block dir 4096) ∧
      Disjoint (Mem.block ((pmmngrAllocBlock (s.pmm.afterAllocs n)).1 + 4096) 4096)
        (Mem.block dir 4096)

/-- In `t`, `pmmngr_alloc_block` has been called at most `k` times since `s`, and no more than
that many frames have been taken. -/
def AllocatesAtMost (s t : Vmm) (k : ℕ) : Prop :=
  (∃ n ≤ k, t.pmm = s.pmm.afterAllocs n) ∧ (t.pmm.used \ s.pmm.used).encard ≤ k

theorem allocatesAtMost_of_eq {s t : Vmm} {n k : ℕ} (hn : n ≤ k)
    (h : t.pmm = s.pmm.afterAllocs n) : s.AllocatesAtMost t k := by
  refine ⟨⟨n, hn, h⟩, ?_⟩
  rw [h]
  exact (Pmm.used_afterAllocs_sdiff n s.pmm).trans (by exact_mod_cast hn)

section Slots

variable {s t : Vmm} {dir : Word}

theorem emptySlots_pos {v : Word} (h : s.pagedir dir (dirIndex v) = 0) : 0 < s.emptySlots dir := by
  refine Finset.card_pos.2 ⟨(dirIndex v).toNat, Finset.mem_filter.2 ⟨?_, ?_⟩⟩
  · exact Finset.mem_range.2 (dirIndex_lt v)
  · rwa [BitVec.ofNat_toNat, BitVec.setWidth_eq]

/-- Filling an empty slot leaves one empty slot fewer. -/
theorem emptySlots_lt {v w : Word} (hempty : s.pagedir dir (dirIndex v) = 0) (hw : w ≠ 0)
    (h : ∀ i : Word, i.toNat < 1024 →
      t.pagedir dir i = if i = dirIndex v then w else s.pagedir dir i) :
    t.emptySlots dir < s.emptySlots dir := by
  have hslot : BitVec.ofNat 32 (dirIndex v).toNat = dirIndex v := by
    rw [BitVec.ofNat_toNat, BitVec.setWidth_eq]
  refine Finset.card_lt_card ⟨fun i hi => ?_, fun hsub => ?_⟩
  · obtain ⟨hlt, hzero⟩ := Finset.mem_filter.1 hi
    have hi' : (BitVec.ofNat 32 i).toNat < 1024 := by
      rw [BitVec.toNat_ofNat]
      exact (Nat.mod_le _ _).trans_lt (Finset.mem_range.1 hlt)
    rw [h _ hi'] at hzero
    split_ifs at hzero with heq
    · exact absurd hzero hw
    · exact Finset.mem_filter.2 ⟨hlt, hzero⟩
  · have hmem := hsub (Finset.mem_filter.2
      ⟨Finset.mem_range.2 (dirIndex_lt v), hslot.symm ▸ hempty⟩)
    have hzero := (Finset.mem_filter.1 hmem).2
    rw [hslot, h _ (dirIndex_lt v), if_pos rfl] at hzero
    exact hw hzero

end Slots

section Install

variable {s : Vmm} {dir v flags : Word} (h : s.FramesApart dir) (hflags : flags.toNat < 0x1000)
  (hempty : s.pagedir dir (dirIndex v) = 0) (hb : s.block ≠ 0)

include h hflags hempty hb

/-- The bytes cleared for a new table are none of the directory. -/
theorem FramesApart.notMem_cleared {x : Word} (hx : x ∈ Mem.block dir 4096) :
    x ∉ Mem.block (s.block ||| flags) 4096 := by
  obtain ⟨hframe, hnext⟩ := h 0 (emptySlots_pos hempty) hb
  rw [mem_block_or s.isPage_block hflags]
  rintro (⟨hmem, -⟩ | hmem)
  · exact Set.disjoint_left.1 hframe hmem hx
  · have hbehind : x ∈ Mem.block (s.block + 4096) 4096 := by
      rw [Mem.mem_block] at hmem ⊢
      omega
    exact Set.disjoint_left.1 hnext hbehind hx

/-- A new table fills a slot : this is why the recursion ends. -/
theorem FramesApart.emptySlots_installTable :
    (s.installTable dir v flags).emptySlots dir < s.emptySlots dir :=
  emptySlots_lt hempty (or_ne_zero hb) fun _ hi =>
    pagedir_installTable_of_notMem (fun _ hx => h.notMem_cleared hflags hempty hb hx) hi

/-- The directory stays apart from the blocks that come next. -/
theorem FramesApart.installTable : (s.installTable dir v flags).FramesApart dir := by
  intro n hn hp
  have hlt := h.emptySlots_installTable hflags hempty hb
  exact h (n + 1) (by omega) hp

end Install

/-- A mapping takes at most as many frames as there are empty slots : by strong induction on
their number. -/
theorem pmm_mapPhysicalAddress (k : ℕ) :
    ∀ {s : Vmm} {dir flags : Word}, s.emptySlots dir = k → s.FramesApart dir →
      flags.toNat < 0x1000 → ∀ virt phys : Word,
        ∃ n ≤ k, (vmmngrMapPhysicalAddress s dir virt phys flags).pmm = s.pmm.afterAllocs n := by
  induction k using Nat.strong_induction_on with
  | _ k ih =>
    intro s dir flags hk h hflags virt phys
    by_cases hslot : s.pagedir dir (dirIndex virt) = 0
    · have hpos := emptySlots_pos hslot
      by_cases hb : s.block = 0
      · refine ⟨1, by omega, ?_⟩
        rw [mapPhysicalAddress_of_no_block hslot hb]
        rfl
      · -- The new table fills the slot, and the call for its own frame is one of fewer slots.
        have hlt := h.emptySlots_installTable hflags hslot hb
        obtain ⟨n, hn, heq⟩ := ih _ (hk ▸ hlt) rfl (h.installTable hflags hslot hb) hflags s.block
          s.block
        refine ⟨n + 1, by omega, ?_⟩
        rw [mapPhysicalAddress_of_block hslot hb, Pmm.afterAllocs_succ]
        exact heq
    · refine ⟨0, Nat.zero_le k, ?_⟩
      rw [mapPhysicalAddress_of_table hslot]
      rfl

/-- A call makes as many allocations as there are empty slots at most. -/
theorem pmm_createPageTable {s : Vmm} {dir flags : Word} (h : s.FramesApart dir)
    (hflags : flags.toNat < 0x1000) (virt : Word) :
    ∃ n ≤ s.emptySlots dir,
      (vmmngrCreatePageTable s dir virt flags).2.pmm = s.pmm.afterAllocs n := by
  by_cases hslot : s.pagedir dir (dirIndex virt) = 0
  · -- A mapping of the page makes the same calls.
    obtain ⟨n, hn, heq⟩ := pmm_mapPhysicalAddress _ rfl h hflags virt 0
    rw [mapPhysicalAddress_of_empty hslot] at heq
    exact ⟨n, hn, heq⟩
  · refine ⟨0, Nat.zero_le _, ?_⟩
    rw [createPageTable_of_table hslot]
    rfl

/-- The creation of a table and the mapping of a page, with all the tables they create on the
way, allocate at most as many frames as the directory had empty slots. -/
theorem allocatesAtMost_emptySlots {s : Vmm} {dir flags : Word} (h : s.FramesApart dir)
    (hflags : flags.toNat < 0x1000) (virt phys : Word) :
    s.AllocatesAtMost (vmmngrCreatePageTable s dir virt flags).2 (s.emptySlots dir) ∧
      s.AllocatesAtMost (vmmngrMapPhysicalAddress s dir virt phys flags) (s.emptySlots dir) := by
  obtain ⟨n, hn, hcreate⟩ := pmm_createPageTable h hflags virt
  obtain ⟨m, hm, hmap⟩ := pmm_mapPhysicalAddress _ rfl h hflags virt phys
  exact ⟨allocatesAtMost_of_eq hn hcreate, allocatesAtMost_of_eq hm hmap⟩

/-- An empty directory in frame `8`, and one frame to hand out. -/
def emptySpace : Vmm where
  pmm := Pmm.lastFramePmm
  mem _ := 0
  curDirectory := 0x8000
  nullStores := 0

/-- The directory is not among the free blocks. -/
theorem framesApart_emptySpace : emptySpace.FramesApart 0x8000 := by
  intro n _ hne
  have hfirst : (pmmngrAllocBlock Pmm.lastFramePmm).1 = 0x1000 := by decide
  cases n with
  | zero =>
    have happart : ∀ p : Word, IsPage p → p ≠ 0x8000 →
        Disjoint (Mem.block p 4096) (Mem.block 0x8000 4096) := fun p hp hp8 =>
      Set.disjoint_left.2 fun x hx => notMem_block_page hp rfl hp8 hx
    show Disjoint (Mem.block (pmmngrAllocBlock Pmm.lastFramePmm).1 4096) _ ∧
      Disjoint (Mem.block ((pmmngrAllocBlock Pmm.lastFramePmm).1 + 4096) 4096) _
    rw [hfirst]
    exact ⟨happart 0x1000 rfl (by decide), happart 0x2000 rfl (by decide)⟩
  | succ n =>
    have hfree : pmmngrGetFreeBlockCount (pmmngrAllocBlock emptySpace.pmm).2 = 0 := by decide
    rw [Pmm.afterAllocs_succ, Pmm.afterAllocs_of_none_free hfree,
      Pmm.pmmngrAllocBlock_of_none_free hfree] at hne
    exact absurd rfl hne

/-- Both functions on a directory without tables. -/
theorem allocatesAtMost_emptySpace :
    emptySpace.AllocatesAtMost (vmmngrCreatePageTable emptySpace 0x8000 0x400000 3).2
        (emptySpace.emptySlots 0x8000) ∧
      emptySpace.AllocatesAtMost (vmmngrMapPhysicalAddress emptySpace 0x8000 0x400000 0x9000 3)
        (emptySpace.emptySlots 0x8000) :=
  allocatesAtMost_emptySlots framesApart_emptySpace (by decide) 0x400000 0x9000

end Vmm

end Scorch
