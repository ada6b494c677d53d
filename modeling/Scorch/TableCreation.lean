import Scorch.AddressSpace

/-!
# Creating a page table

When the directory entry of a page is empty, `vmmngr_mapPhysicalAddress` takes a block,
stores it with the flags in the entry, clears 4096 bytes at the value of the entry and
maps the block to itself. The `memset` gets the flags with the address, so it starts
`flags` bytes into the table and ends as many bytes into the next frame
(`mem_block_or`).

`CanInstall` says that the block is of no other use and `installTable` is the step up to
the `memset`. `createdTable_clean_iff` says when the bytes left and the bytes cleared make
no difference.

The call stores three times apart from the `memset` : the directory entry, the entry that maps
the table to itself, and the entry of the page. `CanInstall.mem_mapPhysicalAddress` lists them in
order, and what is left of the question is which bytes of the table and of the frame behind it
are zero (`CanInstall.table_apply`, `CanInstall.outside_unchanged_iff`).
-/

open ByteMemory

namespace Scorch

open Pmm

theorem isPage_frameAddr (f : ℕ) : IsPage (frameAddr f) := by
  rw [IsPage, toNat_frameAddr]
  exact Nat.mul_mod_left _ _

namespace Vmm

/-- The block `pmmngr_alloc_block` returns. -/
def block (s : Vmm) : Word :=
  (pmmngrAllocBlock s.pmm).1

/-- The block in the directory and 4096 bytes cleared from the directory entry on. -/
def installTable (s : Vmm) (dir virt flags : Word) : Vmm :=
  { s with
    pmm := (pmmngrAllocBlock s.pmm).2
    mem := memset (s.mem.store32 (dir + 4 * dirIndex virt) (s.block ||| flags))
      (s.block ||| flags) 0 4096 }

theorem isPage_block (s : Vmm) : IsPage s.block := by
  rw [block]
  rcases pmmngrAllocBlock_cases s.pmm with ⟨heq, -⟩ | ⟨f, -, -, heq⟩
  · rw [heq]
    rfl
  · rw [heq]
    exact isPage_frameAddr f

end Vmm

theorem createPageTable_of_table {s : Vmm} {dir virt : Word}
    (h : s.pagedir dir (dirIndex virt) ≠ 0) (flags : Word) :
    vmmngrCreatePageTable s dir virt flags = (1, s) := by
  rw [vmmngrCreatePageTable, if_neg h]

/-- A new table goes into a block, which is then mapped at its own address. -/
theorem createPageTable_of_block {s : Vmm} {dir virt : Word}
    (h : s.pagedir dir (dirIndex virt) = 0) (hb : s.block ≠ 0) (flags : Word) :
    vmmngrCreatePageTable s dir virt flags =
      (1, vmmngrMapPhysicalAddress (s.installTable dir virt flags) dir s.block s.block flags) := by
  have hne : ¬(pmmngrAllocBlock s.pmm).1 = 0 := hb
  rw [vmmngrCreatePageTable, if_pos h]
  simp only [hne, ↓reduceDIte, Vmm.setPagedir, Vmm.pagedir, Mem.load32_store32_self]
  rfl

/-- Without a block the error `0` comes back, and the slot stays empty. -/
theorem createPageTable_of_no_block {s : Vmm} {dir virt : Word}
    (h : s.pagedir dir (dirIndex virt) = 0) (hb : s.block = 0) (flags : Word) :
    vmmngrCreatePageTable s dir virt flags = (0, { s with pmm := (pmmngrAllocBlock s.pmm).2 }) := by
  have hnull : (pmmngrAllocBlock s.pmm).1 = 0 := hb
  rw [vmmngrCreatePageTable, if_pos h]
  simp only [hnull, ↓reduceDIte]

/-- A mapping makes the table first, and looks at no error. -/
theorem mapPhysicalAddress_of_empty {s : Vmm} {dir virt : Word}
    (h : s.pagedir dir (dirIndex virt) = 0) (phys flags : Word) :
    vmmngrMapPhysicalAddress s dir virt phys flags =
      (vmmngrCreatePageTable s dir virt flags).2.setEntry dir virt (phys ||| flags) := by
  rw [vmmngrMapPhysicalAddress, if_pos h]

/-- With a block, the new table and the frame of the table are mapped before the page. -/
theorem mapPhysicalAddress_of_block {s : Vmm} {dir virt : Word}
    (h : s.pagedir dir (dirIndex virt) = 0) (hb : s.block ≠ 0) (phys flags : Word) :
    vmmngrMapPhysicalAddress s dir virt phys flags =
      (vmmngrMapPhysicalAddress (s.installTable dir virt flags) dir s.block s.block
        flags).setEntry dir virt (phys ||| flags) := by
  rw [mapPhysicalAddress_of_empty h, createPageTable_of_block h hb]

/-- Without a block, the entry is stored through the empty slot. -/
theorem mapPhysicalAddress_of_no_block {s : Vmm} {dir virt : Word}
    (h : s.pagedir dir (dirIndex virt) = 0) (hb : s.block = 0) (phys flags : Word) :
    vmmngrMapPhysicalAddress s dir virt phys flags =
      { s with pmm := (pmmngrAllocBlock s.pmm).2 }.setEntry dir virt (phys ||| flags) := by
  rw [mapPhysicalAddress_of_empty h, createPageTable_of_no_block h hb]

namespace Vmm

/-- A block that can become the table of `v` : it is neither the directory nor a table nor the
frame before the directory. -/
structure CanInstall (s : Vmm) (dir v : Word) : Prop where
  wellFormed : s.WellFormed dir
  empty : s.pagedir dir (dirIndex v) = 0
  block_ne_zero : s.block ≠ 0
  block_ne_dir : s.block ≠ dir
  next_ne_dir : s.block + 4096 ≠ dir
  table_ne_block : ∀ i : Word, i.toNat < 1024 → s.pagedir dir i ≠ 0 →
    pageOf (s.pagedir dir i) ≠ s.block

section Install

variable {s : Vmm} {dir v flags : Word}

/-- The bytes cleared are those of the table from the flags on, and as many bytes of the
next frame as the flags say. -/
theorem mem_block_or {p x : Word} (hp : IsPage p) (hflags : flags.toNat < 4096) :
    x ∈ Mem.block (p ||| flags) 4096 ↔
      (x ∈ Mem.block p 4096 ∧ x ∉ Mem.block p flags.toNat) ∨
        x ∈ Mem.block (p + 4096) flags.toNat := by
  rw [hp.or_eq_add hflags]
  simp only [Mem.mem_block]
  bv_omega

/-- A frame filled from the address with flags reaches into the frame behind it, and no other. -/
theorem notMem_block_of_page_ne {p x q : Word} (hp : IsPage p) (hq : IsPage q)
    (hne : p ≠ q) (hnext : p + 4096 ≠ q) (hflags : flags.toNat < 4096)
    (hx : x ∈ Mem.block q 4096) : x ∉ Mem.block (p ||| flags) 4096 := by
  rw [mem_block_or hp hflags]
  rintro (⟨hmem, -⟩ | hmem)
  · exact notMem_block_page hq hp hne.symm hx hmem
  · refine notMem_block_page hq (isPage_add hp) hnext.symm hx ?_
    rw [Mem.mem_block] at hmem ⊢
    omega

/-- The two stores of `vmmngr_createPageTable` : the slot, and the `memset` from the entry on,
flags and all. -/
theorem mem_installTable :
    (s.installTable dir v flags).mem =
      (s.mem.store32 (dir + 4 * dirIndex v) (s.block ||| flags)).fill (s.block ||| flags) 0
        4096 := by
  have hval : (0 : Word).setWidth 8 = (0 : Byte) := rfl
  have hlen : (4096 : Word).toNat = 4096 := rfl
  rw [installTable, memset, hval, hlen]

/-- What is cleared being none of the directory, only the slot of `v` changes. -/
theorem pagedir_installTable_of_notMem
    (hclear : ∀ x ∈ Mem.block dir 4096, x ∉ Mem.block (s.block ||| flags) 4096) {i : Word}
    (hi : i.toNat < 1024) :
    (s.installTable dir v flags).pagedir dir i =
      if i = dirIndex v then s.block ||| flags else s.pagedir dir i := by
  rw [pagedir, mem_installTable, Mem.load32_fill_of_apart (by norm_num)
    fun x hx => hclear x (mem_block_page hi hx)]
  split_ifs with hiv
  · subst hiv
    exact Mem.load32_store32_self _ _ _
  · exact Mem.load32_store32_of_apart (apart_of_index_ne dir (dirIndex_lt v) hi (Ne.symm hiv))

/-- Only the slot of the new table changes. -/
theorem CanInstall.pagedir_installTable (h : s.CanInstall dir v) (hflags : flags.toNat < 4096)
    {i : Word} (hi : i.toNat < 1024) :
    (s.installTable dir v flags).pagedir dir i =
      if i = dirIndex v then s.block ||| flags else s.pagedir dir i :=
  pagedir_installTable_of_notMem (fun _ hx => notMem_block_of_page_ne s.isPage_block
    h.wellFormed.isPage h.block_ne_dir h.next_ne_dir hflags hx) hi

/-- The slot holds the block with the flags. -/
theorem CanInstall.pagedir_installTable_self (h : s.CanInstall dir v)
    (hflags : flags.toNat < 4096) :
    (s.installTable dir v flags).pagedir dir (dirIndex v) = s.block ||| flags := by
  rw [h.pagedir_installTable hflags (dirIndex_lt v), if_pos rfl]

/-- A slot that has a table keeps it. -/
theorem CanInstall.pagedir_installTable_of_ne_zero (h : s.CanInstall dir v)
    (hflags : flags.toNat < 4096) {x : Word} (hx : s.pagedir dir (dirIndex x) ≠ 0) :
    (s.installTable dir v flags).pagedir dir (dirIndex x) = s.pagedir dir (dirIndex x) := by
  have hne : dirIndex x ≠ dirIndex v := fun heq => hx (heq ▸ h.empty)
  rw [h.pagedir_installTable hflags (dirIndex_lt x), if_neg hne]

/-- Flags do not make an address null. -/
theorem or_ne_zero {p flags : Word} (hp : p ≠ 0) : p ||| flags ≠ 0 := by
  intro h
  exact hp (BitVec.or_eq_zero_iff.1 h).1

/-- The address space with the new table is well formed. -/
theorem CanInstall.installTable (h : s.CanInstall dir v) (hflags : flags.toNat < 4096) :
    (s.installTable dir v flags).WellFormed dir := by
  have hpage := s.isPage_block.pageOf_or hflags
  refine ⟨h.wellFormed.isPage, fun i hi => ?_, fun i j hi hj => ?_⟩
  · rw [h.pagedir_installTable hflags hi]
    split_ifs with hiv
    · rw [hpage]
      exact fun _ => h.block_ne_dir
    · exact h.wellFormed.table_ne_dir i hi
  · rw [h.pagedir_installTable hflags hi, h.pagedir_installTable hflags hj]
    split_ifs with hiv hjv hjv
    · exact fun _ _ _ => hiv.trans hjv.symm
    · rw [hpage]
      exact fun _ hne heq => absurd heq.symm (h.table_ne_block j hj hne)
    · rw [hpage]
      exact fun hne _ heq => absurd heq (h.table_ne_block i hi hne)
    · exact h.wellFormed.table_inj i j hi hj

section Translation

variable {x : Word} (h : s.CanInstall dir v) (hflags : flags.toNat < 4096)
  (hx : s.pagedir dir (dirIndex x) ≠ 0)

include h hflags hx

/-- An address whose table was there is translated by its old entry, in the new memory. -/
theorem CanInstall.getPhysicalAddress_installTable :
    vmmngrGetPhysicalAddress (s.installTable dir v flags) dir x =
      (s.installTable dir v flags).mem.load32 (s.entryAddr dir x) := by
  have hdir := h.pagedir_installTable_of_ne_zero hflags hx
  rw [getPhysicalAddress_of_table (by rwa [hdir]), entryAddr_congr hdir]

/-- A page translates as before, but for the first page of a table in the frame behind the
block. -/
theorem CanInstall.getPhysicalAddress_installTable_of_ne
    (hne : ¬(tableIndex x = 0 ∧ pageOf (s.pagedir dir (dirIndex x)) = s.block + 4096))
    (hshort : flags.toNat ≤ 4) :
    vmmngrGetPhysicalAddress (s.installTable dir v flags) dir x =
      vmmngrGetPhysicalAddress s dir x := by
  have hfill : ∀ y ∈ Mem.block (s.entryAddr dir x) 4, y ∉ Mem.block (s.block ||| flags) 4096 := by
    intro y hy
    have hpage := mem_block_page (tableIndex_lt x) hy
    rw [mem_block_or s.isPage_block hflags]
    rintro (⟨hmem, -⟩ | hmem)
    · exact notMem_block_page (isPage_pageOf _) s.isPage_block
        (h.table_ne_block _ (dirIndex_lt x) hx) hpage hmem
    · have hnext : y ∈ Mem.block (s.block + 4096) 4096 := by
        rw [Mem.mem_block] at hmem ⊢
        omega
      have hbase : pageOf (s.pagedir dir (dirIndex x)) = s.block + 4096 := by
        by_contra hcon
        exact notMem_block_page (isPage_pageOf _) (isPage_add s.isPage_block) hcon hpage hnext
      have hindex : (tableIndex x).toNat ≠ 0 := fun h0 =>
        hne ⟨BitVec.eq_of_toNat_eq h0, hbase⟩
      have hlt := tableIndex_lt x
      rw [entryAddr, hbase, Mem.mem_block] at hy
      rw [Mem.mem_block] at hmem
      bv_omega
  rw [h.getPhysicalAddress_installTable hflags hx, mem_installTable,
    Mem.load32_fill_of_apart (by norm_num) hfill, getPhysicalAddress_of_table hx]
  exact Mem.load32_store32_of_apart (h.wellFormed.entryAddr_apart_dir hx (dirIndex_lt v)).symm

/-- That page loses the present bit. -/
theorem CanInstall.getLsbD_getPhysicalAddress_installTable (hindex : tableIndex x = 0)
    (hbase : pageOf (s.pagedir dir (dirIndex x)) = s.block + 4096) (hpos : 0 < flags.toNat) :
    (vmmngrGetPhysicalAddress (s.installTable dir v flags) dir x).getLsbD 0 = false := by
  have haddr : s.entryAddr dir x = s.block + 4096 := by
    rw [entryAddr, hbase, hindex]
    bv_omega
  have hmem : s.block + 4096 ∈ Mem.block (s.block ||| flags) 4096 := by
    rw [mem_block_or s.isPage_block hflags]
    refine Or.inr ?_
    rw [Mem.mem_block, BitVec.sub_self]
    exact hpos
  have hbyte := Mem.getLsbD_load32 (s.installTable dir v flags).mem (s.block + 4096)
    (k := 0) (t := 0) (by norm_num) (by norm_num)
  rw [h.getPhysicalAddress_installTable hflags hx, haddr]
  refine hbyte.trans ?_
  have hoff : s.block + 4096 + BitVec.ofNat 32 0 = s.block + 4096 := BitVec.add_zero _
  rw [hoff, mem_installTable, Mem.fill_of_mem (by norm_num) hmem]
  exact BitVec.getLsbD_zero

end Translation

/-- The entry that maps the block is not in the block, when another table covers it. -/
theorem CanInstall.entryAddr_block_notMem (h : s.CanInstall dir v)
    (hcovered : s.pagedir dir (dirIndex s.block) ≠ 0) {x : Word}
    (hx : x ∈ Mem.block (s.entryAddr dir s.block) 4) : x ∉ Mem.block s.block 4096 :=
  notMem_block_page (isPage_pageOf _) s.isPage_block
    (h.table_ne_block _ (dirIndex_lt _) hcovered) (mem_block_page (tableIndex_lt _) hx)

end Install

end Vmm

/-- Every place in a table is the place of a page. -/
theorem exists_page {d i : Word} (hd : d.toNat < 1024) (hi : i.toNat < 1024) :
    ∃ w, dirIndex w = d ∧ tableIndex w = i := by
  refine ⟨BitVec.ofNat 32 (d.toNat * 2 ^ 22 + i.toNat * 4096), ?_, ?_⟩
  · rw [← BitVec.toNat_inj, toNat_dirIndex, BitVec.toNat_ofNat]
    omega
  · rw [← BitVec.toNat_inj, toNat_tableIndex, BitVec.toNat_ofNat]
    omega

namespace Vmm

section Created

variable {s : Vmm} {dir v flags : Word} (h : s.CanInstall dir v) (hflags : flags.toNat < 4096)
  (hcovered : s.pagedir dir (dirIndex s.block) ≠ 0)

include h hflags hcovered

/-- The table that covers the block is still there. -/
theorem CanInstall.block_covered :
    (s.installTable dir v flags).pagedir dir (dirIndex s.block) ≠ 0 := by
  rwa [h.pagedir_installTable_of_ne_zero hflags hcovered]

/-- The stores of a call that creates the table of `v`, when the block lies in a region
with a table. -/
theorem CanInstall.mapPhysicalAddress (p : Word) :
    vmmngrMapPhysicalAddress s dir v p flags =
      ((s.installTable dir v flags).setEntry dir s.block (s.block ||| flags)).setEntry dir v
        (p ||| flags) := by
  have hslot := h.block_covered hflags hcovered
  rw [mapPhysicalAddress_of_block h.empty h.block_ne_zero, mapPhysicalAddress_of_table hslot]

/-- The stores of a mapping that makes a table, when another table covers it : the table, the
page of the table, and the page itself. -/
theorem CanInstall.mem_mapPhysicalAddress (p : Word) :
    (vmmngrMapPhysicalAddress s dir v p flags).mem =
      ((s.installTable dir v flags).mem.store32 (s.entryAddr dir s.block)
        (s.block ||| flags)).store32 (s.block + 4 * tableIndex v) (p ||| flags) := by
  have hslot := h.block_covered hflags hcovered
  have hident : (s.installTable dir v flags).entryAddr dir s.block = s.entryAddr dir s.block :=
    entryAddr_congr (h.pagedir_installTable_of_ne_zero hflags hcovered)
  have hentry : ((s.installTable dir v flags).setEntry dir s.block (s.block ||| flags)).entryAddr
      dir v = s.block + 4 * tableIndex v := by
    rw [entryAddr, (h.installTable hflags).pagedir_setEntry hslot _ (dirIndex_lt v),
      h.pagedir_installTable_self hflags, s.isPage_block.pageOf_or hflags]
  rw [h.mapPhysicalAddress hflags hcovered, setEntry, hentry, setEntry, hident]

/-- A byte away from the three entries stored to is zero when it was cleared, and else as
before. -/
theorem CanInstall.mapPhysicalAddress_apply (p : Word) {x : Word}
    (hv : x ∉ Mem.block (s.block + 4 * tableIndex v) 4)
    (hi : x ∉ Mem.block (s.entryAddr dir s.block) 4)
    (hd : x ∉ Mem.block (dir + 4 * dirIndex v) 4) :
    (vmmngrMapPhysicalAddress s dir v p flags).mem x =
      if x ∈ Mem.block (s.block ||| flags) 4096 then 0 else s.mem x := by
  rw [h.mem_mapPhysicalAddress hflags hcovered, Mem.store32_of_notMem hv, Mem.store32_of_notMem hi,
    mem_installTable]
  split_ifs with hx
  · exact Mem.fill_of_mem (by norm_num) hx
  · rw [Mem.fill_of_notMem (by norm_num) hx, Mem.store32_of_notMem hd]

/-- The slot of the page holds the new table. -/
theorem CanInstall.pagedir_mapPhysicalAddress (p : Word) :
    (vmmngrMapPhysicalAddress s dir v p flags).pagedir dir (dirIndex v) = s.block ||| flags := by
  have hwf := h.installTable hflags
  have hslot := h.block_covered hflags hcovered
  have hident := hwf.pagedir_setEntry hslot (s.block ||| flags) (dirIndex_lt v)
  rw [h.pagedir_installTable_self hflags] at hident
  have hne : ((s.installTable dir v flags).setEntry dir s.block (s.block ||| flags)).pagedir dir
      (dirIndex v) ≠ 0 := by
    rw [hident]
    exact or_ne_zero h.block_ne_zero
  rw [h.mapPhysicalAddress hflags hcovered,
    (hwf.setEntry hslot _).pagedir_setEntry hne _ (dirIndex_lt v), hident]

/-- The pages of the region are translated by the block. -/
theorem CanInstall.getPhysicalAddress_region (p : Word) {w : Word} (hw : dirIndex w = dirIndex v) :
    vmmngrGetPhysicalAddress (vmmngrMapPhysicalAddress s dir v p flags) dir w =
      (vmmngrMapPhysicalAddress s dir v p flags).mem.load32 (s.block + 4 * tableIndex w) := by
  have hdir := h.pagedir_mapPhysicalAddress hflags hcovered p
  have hne : (vmmngrMapPhysicalAddress s dir v p flags).pagedir dir (dirIndex w) ≠ 0 := by
    rw [hw, hdir]
    exact or_ne_zero h.block_ne_zero
  rw [getPhysicalAddress_of_table hne, entryAddr, hw, hdir, s.isPage_block.pageOf_or hflags]

/-- The other pages of the region are unmapped when the other words of the table are zero. -/
theorem CanInstall.region_words_iff (p : Word) :
    (∀ w, dirIndex w = dirIndex v → pageOf w ≠ pageOf v →
        vmmngrGetPhysicalAddress (vmmngrMapPhysicalAddress s dir v p flags) dir w = 0) ↔
      ∀ i : Word, i.toNat < 1024 → i ≠ tableIndex v →
        (vmmngrMapPhysicalAddress s dir v p flags).mem.load32 (s.block + 4 * i) = 0 := by
  refine ⟨fun hw i hi hiv => ?_, fun hi w hw hwv => ?_⟩
  · obtain ⟨w, hwd, rfl⟩ := exists_page (dirIndex_lt v) hi
    rw [← h.getPhysicalAddress_region hflags hcovered p hwd]
    exact hw w hwd fun hpage => hiv (pageOf_eq_iff.1 hpage).2
  · rw [h.getPhysicalAddress_region hflags hcovered p hw]
    exact hi _ (tableIndex_lt w) fun ht => hwv (pageOf_eq_iff.2 ⟨hw, ht⟩)

/-- Outside the entry of `v` the table keeps its first bytes, as many as the flags say, and
is zero from there on. -/
theorem CanInstall.table_apply (p : Word) {x : Word} (hx : x ∈ Mem.block s.block 4096)
    (hv : x ∉ Mem.block (s.block + 4 * tableIndex v) 4) :
    (vmmngrMapPhysicalAddress s dir v p flags).mem x =
      if x ∈ Mem.block s.block flags.toNat then s.mem x else 0 := by
  have hdir : x ∉ Mem.block (dir + 4 * dirIndex v) 4 := fun hd =>
    notMem_block_page s.isPage_block h.wellFormed.isPage h.block_ne_dir hx
      (mem_block_page (dirIndex_lt v) hd)
  have hnext : x ∉ Mem.block (s.block + 4096) flags.toNat := fun hn => by
    rw [Mem.mem_block] at hx hn
    bv_omega
  rw [h.mapPhysicalAddress_apply hflags hcovered p hv
    (fun hi => h.entryAddr_block_notMem hcovered hi hx) hdir]
  simp only [mem_block_or s.isPage_block hflags, hx, hnext, true_and, or_false]
  by_cases hflag : x ∈ Mem.block s.block flags.toNat
  · rw [if_neg (not_not.2 hflag), if_pos hflag]
  · rw [if_pos hflag, if_neg hflag]

/-- The other pages of the region are unmapped when the stale bytes the flags skip are
zero. -/
theorem CanInstall.region_unmapped_iff (p : Word) :
    (∀ w, dirIndex w = dirIndex v → pageOf w ≠ pageOf v →
        vmmngrGetPhysicalAddress (vmmngrMapPhysicalAddress s dir v p flags) dir w = 0) ↔
      ∀ x ∈ Mem.block s.block flags.toNat, x ∉ Mem.block (s.block + 4 * tableIndex v) 4 →
        s.mem x = 0 := by
  rw [h.region_words_iff hflags hcovered, words_eq_zero_iff _ s.isPage_block (tableIndex_lt v)]
  refine forall_congr' fun x => ⟨fun hz hx hxv => ?_, fun hz hx hxv => ?_⟩
  · have hpage : x ∈ Mem.block s.block 4096 := by
      rw [Mem.mem_block] at hx ⊢
      omega
    rw [← hz hpage hxv, h.table_apply hflags hcovered p hpage hxv, if_pos hx]
  · rw [h.table_apply hflags hcovered p hx hxv]
    split_ifs with hxf
    · exact hz hxf hxv
    · rfl

/-- Nothing else changes when the bytes cleared behind the table were zero. -/
theorem CanInstall.outside_unchanged_iff (p : Word) :
    (∀ x, x ∉ Mem.block s.block 4096 → x ∉ Mem.block (dir + 4 * dirIndex v) 4 →
        x ∉ Mem.block (s.entryAddr dir s.block) 4 →
        (vmmngrMapPhysicalAddress s dir v p flags).mem x = s.mem x) ↔
      ∀ x ∈ Mem.block (s.block + 4096) flags.toNat, x ∉ Mem.block (s.entryAddr dir s.block) 4 →
        s.mem x = 0 := by
  have hentry : ∀ x, x ∉ Mem.block s.block 4096 → x ∉ Mem.block (s.block + 4 * tableIndex v) 4 :=
    fun x hx hxv => hx (mem_block_page (tableIndex_lt v) hxv)
  have hfill : ∀ x, x ∉ Mem.block s.block 4096 →
      (x ∈ Mem.block (s.block ||| flags) 4096 ↔ x ∈ Mem.block (s.block + 4096) flags.toNat) := by
    intro x hx
    rw [mem_block_or s.isPage_block hflags]
    exact or_iff_right fun hmem => hx hmem.1
  refine ⟨fun hsame x hx hi => ?_, fun hzero x hx hd hi => ?_⟩
  · have hnext : x ∈ Mem.block (s.block + 4096) 4096 := by
      rw [Mem.mem_block] at hx ⊢
      omega
    have hout : x ∉ Mem.block s.block 4096 :=
      notMem_block_page (isPage_add s.isPage_block) s.isPage_block (by bv_omega) hnext
    have hd : x ∉ Mem.block (dir + 4 * dirIndex v) 4 := fun hd =>
      notMem_block_page (isPage_add s.isPage_block) h.wellFormed.isPage h.next_ne_dir hnext
        (mem_block_page (dirIndex_lt v) hd)
    rw [← hsame x hout hd hi, h.mapPhysicalAddress_apply hflags hcovered p (hentry x hout) hi hd,
      if_pos ((hfill x hout).2 hx)]
  · rw [h.mapPhysicalAddress_apply hflags hcovered p (hentry x hx) hi hd]
    split_ifs with hxf
    · exact (hzero x ((hfill x hx).1 hxf) hi).symm
    · rfl

end Created

end Vmm

/-- A call that creates the table of `v` leaves the other pages of the region unmapped, and
the memory outside the table, the directory entry and the identity entry as it was,
exactly when the bytes `[b, b + flags)` it does not clear and the bytes
`[b + 4096, b + 4096 + flags)` it clears too were zero. -/
theorem createdTable_clean_iff {s : Vmm} {dir v flags : Word} (h : s.CanInstall dir v)
    (hflags : flags.toNat < 4096) (hcovered : s.pagedir dir (dirIndex s.block) ≠ 0) (p : Word) :
    ((∀ w, dirIndex w = dirIndex v → pageOf w ≠ pageOf v →
        vmmngrGetPhysicalAddress (vmmngrMapPhysicalAddress s dir v p flags) dir w = 0) ∧
      ∀ x, x ∉ Mem.block s.block 4096 → x ∉ Mem.block (dir + 4 * dirIndex v) 4 →
        x ∉ Mem.block (s.entryAddr dir s.block) 4 →
        (vmmngrMapPhysicalAddress s dir v p flags).mem x = s.mem x) ↔
      (∀ x ∈ Mem.block s.block flags.toNat, x ∉ Mem.block (s.block + 4 * tableIndex v) 4 →
        s.mem x = 0) ∧
      ∀ x ∈ Mem.block (s.block + 4096) flags.toNat, x ∉ Mem.block (s.entryAddr dir s.block) 4 →
        s.mem x = 0 :=
  and_congr (h.region_unmapped_iff hflags hcovered p) (h.outside_unchanged_iff hflags hcovered p)

/-- The next block of `oneTable` can be its second table. -/
theorem canInstall_oneTable {v : Word} (hv : dirIndex v = 1) :
    oneTable.CanInstall 0x1000 v := by
  have hblock : oneTable.block = 0x3000 := by decide
  refine ⟨oneTable_wellFormed, ?_, ?_, ?_, ?_, fun i hi hne => ?_⟩
  · rw [pagedir_oneTable (dirIndex_lt _), hv, if_neg (by decide)]
  · rw [hblock]
    decide
  · rw [hblock]
    decide
  · rw [hblock]
    decide
  · rw [pagedir_oneTable hi] at hne ⊢
    split_ifs at hne ⊢
    · rw [hblock]
      decide
    · exact absurd rfl hne

/-- The table of page `0x400` in a frame of zeros. -/
theorem createdTable_clean_oneTable :
    (∀ w, dirIndex w = 1 → pageOf w ≠ 0x400000 →
        vmmngrGetPhysicalAddress (vmmngrMapPhysicalAddress oneTable 0x1000 0x400000 0x8000 3)
          0x1000 w = 0) ∧
      ∀ x, x ∉ Mem.block 0x3000 4096 → x ∉ Mem.block 0x1004 4 → x ∉ Mem.block 0x200c 4 →
        (vmmngrMapPhysicalAddress oneTable 0x1000 0x400000 0x8000 3).mem x = oneTable.mem x := by
  have hblock : oneTable.block = 0x3000 := by decide
  have hzero : ∀ x ∉ Mem.block 0x1000 4, oneTable.mem x = 0 := fun x hx =>
    Mem.store32_of_notMem hx
  have hcovered : oneTable.pagedir 0x1000 (dirIndex oneTable.block) ≠ 0 := by
    rw [hblock]
    exact oneTable_ne_zero rfl
  have hentry : oneTable.entryAddr 0x1000 0x3000 = 0x200c := by decide
  have hflags : (3 : Word).toNat < 4096 := by decide
  have hclean := createdTable_clean_iff (canInstall_oneTable (v := 0x400000) rfl) hflags
    hcovered 0x8000
  rw [hblock, hentry] at hclean
  refine hclean.2 ⟨fun x hx _ => hzero x ?_, fun x hx _ => hzero x ?_⟩
  · rw [Mem.mem_block] at hx
    rw [Mem.mem_block]
    bv_omega
  · rw [Mem.mem_block] at hx
    rw [Mem.mem_block]
    bv_omega

/-- The frame the next table goes into starts with a byte that is not zero. -/
def staleFrame : Vmm :=
  { oneTable with mem := oneTable.mem.store32 0x3000 1 }

/-- The slots are those of `oneTable`. -/
theorem pagedir_staleFrame {i : Word} (hi : i.toNat < 1024) :
    staleFrame.pagedir 0x1000 i = oneTable.pagedir 0x1000 i := by
  have happart : Mem.Apart (0x3000 + 4 * 0) (0x1000 + 4 * i) :=
    apart_of_ne rfl rfl (by decide) hi (Or.inl (by decide))
  exact Mem.load32_store32_of_apart happart

theorem canInstall_staleFrame {v : Word} (hv : dirIndex v = 1) :
    staleFrame.CanInstall 0x1000 v := by
  have h := canInstall_oneTable hv
  refine ⟨h.wellFormed.congr fun i hi => pagedir_staleFrame hi, ?_, h.block_ne_zero,
    h.block_ne_dir, h.next_ne_dir, fun i hi => ?_⟩
  · rw [pagedir_staleFrame (dirIndex_lt _)]
    exact h.empty
  · rw [pagedir_staleFrame hi]
    exact h.table_ne_block i hi

/-- Mapping page `0x401` in that state leaves page `0x400` translated to the stale byte. -/
theorem not_createdTable_clean :
    ¬∀ (s : Vmm) (dir v p flags : Word), s.CanInstall dir v → flags.toNat < 4096 →
      s.pagedir dir (dirIndex s.block) ≠ 0 →
      (∀ w, dirIndex w = dirIndex v → pageOf w ≠ pageOf v →
        vmmngrGetPhysicalAddress (vmmngrMapPhysicalAddress s dir v p flags) dir w = 0) ∧
      ∀ x, x ∉ Mem.block s.block 4096 → x ∉ Mem.block (dir + 4 * dirIndex v) 4 →
        x ∉ Mem.block (s.entryAddr dir s.block) 4 →
        (vmmngrMapPhysicalAddress s dir v p flags).mem x = s.mem x := by
  intro h
  have hcovered : staleFrame.pagedir 0x1000 (dirIndex staleFrame.block) ≠ 0 := by
    rw [pagedir_staleFrame (dirIndex_lt _)]
    exact oneTable_ne_zero (by decide)
  have hcan := canInstall_staleFrame (v := 0x401000) rfl
  have hclean := h staleFrame 0x1000 0x401000 0x8000 3 hcan (by decide) hcovered
  have hstale := (hcan.region_unmapped_iff (by decide) hcovered 0x8000).1 hclean.1 0x3000
    (by decide) (by decide)
  exact absurd hstale (by decide)

end Scorch
