import Scorch.Vmm

/-!
# Address spaces

A directory is well formed when the tables its entries point to are distinct frames, none
of them the directory (`WellFormed`). Then a store through one entry changes the
translation of one page and leaves the directory alone (`getPhysicalAddress_setEntry`),
so mapping a page whose table exists is a read-over-write law
(`getPhysicalAddress_mapPhysicalAddress`).

Unmapping a page takes its whole table away, so the other pages keep their translation
only when none of them was mapped (`unmapped_alone_iff`).

An address space is well formed when the directory and the tables in its slots are in pages of their
own. Then a store to an entry is seen by the addresses of its page and by no other.
-/

open ByteMemory

namespace Scorch

open Pmm

/-! ## Indices -/

/-- The slot is the upper ten bits of an address. -/
theorem toNat_dirIndex (v : Word) : (dirIndex v).toNat = v.toNat / 2 ^ 22 := by
  rw [dirIndex, BitVec.toNat_ushiftRight, Nat.shiftRight_eq_div_pow]

/-- The place in the table is the ten bits below them. -/
theorem toNat_tableIndex (v : Word) : (tableIndex v).toNat = v.toNat % 2 ^ 22 / 4096 := by
  rw [tableIndex, BitVec.toNat_ushiftRight, BitVec.toNat_ushiftRight, BitVec.toNat_shiftLeft,
    Nat.shiftRight_eq_div_pow, Nat.shiftRight_eq_div_pow, Nat.shiftLeft_eq]
  omega

theorem dirIndex_lt (v : Word) : (dirIndex v).toNat < 1024 := by
  rw [toNat_dirIndex]
  omega

theorem tableIndex_lt (v : Word) : (tableIndex v).toNat < 1024 := by
  rw [toNat_tableIndex]
  omega

/-- A virtual page is its place in the directory and its place in the table. -/
theorem pageOf_eq_iff {v w : Word} :
    pageOf v = pageOf w ↔ dirIndex v = dirIndex w ∧ tableIndex v = tableIndex w := by
  rw [← BitVec.toNat_inj, ← BitVec.toNat_inj, ← BitVec.toNat_inj, toNat_pageOf, toNat_pageOf,
    toNat_dirIndex, toNat_dirIndex, toNat_tableIndex, toNat_tableIndex]
  omega

namespace Vmm

/-- The tables of a directory are distinct frames, all distinct from the directory. -/
structure WellFormed (s : Vmm) (dir : Word) : Prop where
  isPage : IsPage dir
  table_ne_dir : ∀ i : Word, i.toNat < 1024 → s.pagedir dir i ≠ 0 →
    pageOf (s.pagedir dir i) ≠ dir
  table_inj : ∀ i j : Word, i.toNat < 1024 → j.toNat < 1024 → s.pagedir dir i ≠ 0 →
    s.pagedir dir j ≠ 0 → pageOf (s.pagedir dir i) = pageOf (s.pagedir dir j) → i = j

/-- Whether an address space is well formed depends on the slots. -/
theorem WellFormed.congr {s s' : Vmm} {dir : Word} (h : s.WellFormed dir)
    (hdir : ∀ i : Word, i.toNat < 1024 → s'.pagedir dir i = s.pagedir dir i) :
    s'.WellFormed dir := by
  refine ⟨h.isPage, fun i hi => ?_, fun i j hi hj => ?_⟩
  · rw [hdir i hi]
    exact h.table_ne_dir i hi
  · rw [hdir i hi, hdir j hj]
    exact h.table_inj i j hi hj

/-- Behind an empty slot nothing is mapped. -/
theorem getPhysicalAddress_of_empty {s : Vmm} {dir v : Word} (h : s.pagedir dir (dirIndex v) = 0) :
    vmmngrGetPhysicalAddress s dir v = 0 :=
  if_pos h

theorem getPhysicalAddress_of_table {s : Vmm} {dir v : Word} (h : s.pagedir dir (dirIndex v) ≠ 0) :
    vmmngrGetPhysicalAddress s dir v = s.mem.load32 (s.entryAddr dir v) :=
  if_neg h

/-- The translation depends on the page only. -/
theorem getPhysicalAddress_of_pageOf_eq (s : Vmm) (dir : Word) {v w : Word}
    (h : pageOf v = pageOf w) :
    vmmngrGetPhysicalAddress s dir v = vmmngrGetPhysicalAddress s dir w := by
  obtain ⟨hd, ht⟩ := pageOf_eq_iff.1 h
  rw [vmmngrGetPhysicalAddress, vmmngrGetPhysicalAddress, entryAddr, entryAddr, hd, ht]

/-- Where an entry is depends on the slot. -/
theorem entryAddr_congr {s s' : Vmm} {dir x : Word}
    (h : s'.pagedir dir (dirIndex x) = s.pagedir dir (dirIndex x)) :
    s'.entryAddr dir x = s.entryAddr dir x := by
  rw [entryAddr, entryAddr, h]

/-! ## Stores to entries -/

section Stores

variable {s : Vmm} {dir : Word} (h : s.WellFormed dir)

include h

/-- No word of a table is a word of the directory. -/
theorem WellFormed.entryAddr_apart_dir {v : Word} (hv : s.pagedir dir (dirIndex v) ≠ 0)
    {i : Word} (hi : i.toNat < 1024) : Mem.Apart (s.entryAddr dir v) (dir + 4 * i) :=
  apart_of_ne (isPage_pageOf _) h.isPage (tableIndex_lt v) hi
    (Or.inl (h.table_ne_dir _ (dirIndex_lt v) hv))

/-- The entries of two pages are different words. -/
theorem WellFormed.entryAddr_apart {v w : Word} (hv : s.pagedir dir (dirIndex v) ≠ 0)
    (hw : s.pagedir dir (dirIndex w) ≠ 0) (hne : pageOf v ≠ pageOf w) :
    Mem.Apart (s.entryAddr dir v) (s.entryAddr dir w) := by
  refine apart_of_ne (isPage_pageOf _) (isPage_pageOf _) (tableIndex_lt v) (tableIndex_lt w) ?_
  by_contra hcon
  rw [not_or, not_not, not_not] at hcon
  obtain ⟨hbase, hindex⟩ := hcon
  have hslot := h.table_inj _ _ (dirIndex_lt v) (dirIndex_lt w) hv hw hbase
  exact hne (pageOf_eq_iff.2 ⟨hslot, hindex⟩)

/-- A store to an entry is apart from the directory. -/
theorem WellFormed.pagedir_setEntry {v : Word} (hv : s.pagedir dir (dirIndex v) ≠ 0) (w : Word)
    {i : Word} (hi : i.toNat < 1024) : (s.setEntry dir v w).pagedir dir i = s.pagedir dir i :=
  Mem.load32_store32_of_apart (h.entryAddr_apart_dir hv hi)

theorem WellFormed.setEntry {v : Word} (hv : s.pagedir dir (dirIndex v) ≠ 0) (w : Word) :
    (s.setEntry dir v w).WellFormed dir :=
  h.congr fun _ hi => h.pagedir_setEntry hv w hi

/-- A store through the entry of one page is seen by that page and by no other. -/
theorem WellFormed.getPhysicalAddress_setEntry {v : Word} (hv : s.pagedir dir (dirIndex v) ≠ 0)
    (w x : Word) :
    vmmngrGetPhysicalAddress (s.setEntry dir v w) dir x =
      if pageOf x = pageOf v then w else vmmngrGetPhysicalAddress s dir x := by
  have hdir : (s.setEntry dir v w).pagedir dir (dirIndex x) = s.pagedir dir (dirIndex x) :=
    h.pagedir_setEntry hv w (dirIndex_lt x)
  rw [vmmngrGetPhysicalAddress, vmmngrGetPhysicalAddress, hdir, entryAddr_congr hdir]
  split_ifs with hx hp hp
  · exact absurd hx (by rwa [(pageOf_eq_iff.1 hp).1])
  · rfl
  · have hsame : s.entryAddr dir x = s.entryAddr dir v := by
      obtain ⟨hd, ht⟩ := pageOf_eq_iff.1 hp
      rw [entryAddr, entryAddr, hd, ht]
    rw [hsame]
    exact Mem.load32_store32_self _ _ _
  · exact Mem.load32_store32_of_apart (h.entryAddr_apart hv hx (Ne.symm hp))

end Stores

end Vmm

/-! ## Mapping a page whose table exists -/

/-- A mapping is then one store to the entry. -/
theorem mapPhysicalAddress_of_table {s : Vmm} {dir virt : Word}
    (h : s.pagedir dir (dirIndex virt) ≠ 0) (phys flags : Word) :
    vmmngrMapPhysicalAddress s dir virt phys flags = s.setEntry dir virt (phys ||| flags) := by
  rw [vmmngrMapPhysicalAddress, if_neg h]

/-- The page mapped translates to the frame and the flags, every other page to what it did
before, and the address space stays well formed. -/
theorem getPhysicalAddress_mapPhysicalAddress {s : Vmm} {dir v : Word} (h : s.WellFormed dir)
    (hv : s.pagedir dir (dirIndex v) ≠ 0) (p flags : Word) :
    vmmngrGetPhysicalAddress (vmmngrMapPhysicalAddress s dir v p flags) dir v = p ||| flags ∧
      (∀ v₂, pageOf v₂ ≠ pageOf v →
        vmmngrGetPhysicalAddress (vmmngrMapPhysicalAddress s dir v p flags) dir v₂ =
          vmmngrGetPhysicalAddress s dir v₂) ∧
      (vmmngrMapPhysicalAddress s dir v p flags).WellFormed dir := by
  rw [mapPhysicalAddress_of_table hv]
  refine ⟨?_, fun v₂ hne => ?_, h.setEntry hv _⟩
  · rw [h.getPhysicalAddress_setEntry hv, if_pos rfl]
  · rw [h.getPhysicalAddress_setEntry hv, if_neg hne]

/-- A manager of 128 KiB with the first three frames used. -/
def threeUsed : Pmm where
  mem a := if a = 0 then 7 else 0
  mmngrMemorySize := 128
  mmngrUsedBlocks := 3
  mmngrMaxBlocks := 32
  mmngrMemoryMap := 0

/-- A directory in frame `1` with one table, in frame `2`, for the first 4 MiB. -/
def oneTable : Vmm where
  pmm := threeUsed
  mem := Mem.store32 (fun _ => 0) 0x1000 0x2003
  curDirectory := 0x1000
  nullStores := 0

theorem pagedir_oneTable {i : Word} (hi : i.toNat < 1024) :
    oneTable.pagedir 0x1000 i = if i = 0 then 0x2003 else 0 := by
  split_ifs with h0
  · subst h0
    exact Mem.load32_store32_self _ _ _
  · have happart : Mem.Apart 0x1000 (0x1000 + 4 * i) :=
      apart_of_ne (p := 0x1000) (q := 0x1000) (i := 0) rfl rfl (by decide) hi
        (Or.inr (Ne.symm h0))
    refine (Mem.load32_store32_of_apart happart).trans ?_
    exact (Mem.load32_eq_zero_iff _ _).2 fun _ _ => rfl

/-- The table is apart from the directory. -/
theorem oneTable_wellFormed : oneTable.WellFormed 0x1000 := by
  have hzero : ∀ i : Word, i.toNat < 1024 → oneTable.pagedir 0x1000 i ≠ 0 → i = 0 := by
    intro i hi hne
    rw [pagedir_oneTable hi] at hne
    by_contra h0
    exact hne (if_neg h0)
  refine ⟨rfl, fun i hi hne => ?_, fun i j hi hj hne hne' _ => ?_⟩
  · rw [hzero i hi hne, pagedir_oneTable (by decide)]
    decide
  · rw [hzero i hi hne, hzero j hj hne']

theorem oneTable_ne_zero {v : Word} (hv : dirIndex v = 0) :
    oneTable.pagedir 0x1000 (dirIndex v) ≠ 0 := by
  rw [pagedir_oneTable (dirIndex_lt v), if_pos hv]
  decide

/-- No page is mapped yet. -/
theorem oneTable_unmapped (w : Word) : vmmngrGetPhysicalAddress oneTable 0x1000 w = 0 := by
  by_cases hw : oneTable.pagedir 0x1000 (dirIndex w) = 0
  · exact Vmm.getPhysicalAddress_of_empty hw
  · rw [Vmm.getPhysicalAddress_of_table hw]
    have happart : Mem.Apart (0x1000 + 4 * 0) (oneTable.entryAddr 0x1000 w) :=
      (oneTable_wellFormed.entryAddr_apart_dir hw (by decide)).symm
    refine (Mem.load32_store32_of_apart happart).trans ?_
    exact (Mem.load32_eq_zero_iff _ _).2 fun _ _ => rfl

/-- Page `5` mapped to frame `8`. -/
theorem getPhysicalAddress_oneTable :
    vmmngrGetPhysicalAddress (vmmngrMapPhysicalAddress oneTable 0x1000 0x5000 0x8000 3)
      0x1000 0x5000 = 0x8003 :=
  (getPhysicalAddress_mapPhysicalAddress oneTable_wellFormed (oneTable_ne_zero rfl) 0x8000 3).1

/-! ## Unmapping a page -/

/-- `vmmngr_unmapPhysicalAddress` gives the frame of the table back and clears the slot. -/
theorem unmapPhysicalAddress_of_table {s : Vmm} {dir v : Word}
    (hv : s.pagedir dir (dirIndex v) ≠ 0) :
    vmmngrUnmapPhysicalAddress s dir v =
      { s with
        pmm := pmmngrFreeBlock s.pmm (s.pagedir dir (dirIndex v) &&& 0x7FFFF000)
        mem := s.mem.store32 (dir + 4 * dirIndex v) 0 } := by
  rw [vmmngrUnmapPhysicalAddress, if_pos hv, vmmngrUnmapPageTable, if_pos hv]
  rfl

/-- Behind an empty slot it does nothing. -/
theorem unmapPhysicalAddress_of_empty {s : Vmm} {dir v : Word}
    (hv : s.pagedir dir (dirIndex v) = 0) : vmmngrUnmapPhysicalAddress s dir v = s :=
  if_neg (not_not.2 hv)

namespace Vmm

section Unmap

variable {s : Vmm} {dir : Word} (h : s.WellFormed dir)

include h

/-- Unmapping empties one entry of the directory. -/
theorem WellFormed.pagedir_unmapPhysicalAddress (v : Word) {i : Word} (hi : i.toNat < 1024) :
    (vmmngrUnmapPhysicalAddress s dir v).pagedir dir i =
      if i = dirIndex v then 0 else s.pagedir dir i := by
  by_cases hv : s.pagedir dir (dirIndex v) = 0
  · rw [unmapPhysicalAddress_of_empty hv]
    split_ifs with hiv
    · rw [hiv, hv]
    · rfl
  · rw [unmapPhysicalAddress_of_table hv]
    split_ifs with hiv
    · subst hiv
      exact Mem.load32_store32_self _ _ _
    · exact Mem.load32_store32_of_apart
        (apart_of_ne h.isPage h.isPage (dirIndex_lt v) hi (Or.inr (Ne.symm hiv)))

/-- Every page of the 4 MiB region of the page unmapped becomes unmapped, and no other. -/
theorem WellFormed.getPhysicalAddress_unmapPhysicalAddress (v x : Word) :
    vmmngrGetPhysicalAddress (vmmngrUnmapPhysicalAddress s dir v) dir x =
      if dirIndex x = dirIndex v then 0 else vmmngrGetPhysicalAddress s dir x := by
  have hdir := h.pagedir_unmapPhysicalAddress v (dirIndex_lt x)
  split_ifs at hdir ⊢ with hx
  · exact getPhysicalAddress_of_empty hdir
  · rw [vmmngrGetPhysicalAddress, vmmngrGetPhysicalAddress, hdir, entryAddr_congr hdir]
    split_ifs with hempty
    · rfl
    · by_cases hv : s.pagedir dir (dirIndex v) = 0
      · rw [unmapPhysicalAddress_of_empty hv]
      · rw [unmapPhysicalAddress_of_table hv]
        exact Mem.load32_store32_of_apart (h.entryAddr_apart_dir hempty (dirIndex_lt v)).symm

end Unmap

end Vmm

/-- Unmapping a page leaves every other translation as it was exactly when the page is the
only one mapped in its 4 MiB region. -/
theorem unmapped_alone_iff {s : Vmm} {dir : Word} (h : s.WellFormed dir) (v : Word) :
    (vmmngrGetPhysicalAddress (vmmngrUnmapPhysicalAddress s dir v) dir v = 0 ∧
        ∀ w, pageOf w ≠ pageOf v →
          vmmngrGetPhysicalAddress (vmmngrUnmapPhysicalAddress s dir v) dir w =
            vmmngrGetPhysicalAddress s dir w) ↔
      ∀ w, dirIndex w = dirIndex v → pageOf w ≠ pageOf v →
        vmmngrGetPhysicalAddress s dir w = 0 := by
  simp only [h.getPhysicalAddress_unmapPhysicalAddress, if_pos, true_and]
  refine forall_congr' fun w => ⟨fun hw hregion hne => ?_, fun hw hne => ?_⟩
  · rw [← hw hne, if_pos hregion]
  · split_ifs with hregion
    · exact (hw hregion hne).symm
    · rfl

/-- Page `5` mapped. -/
def onePage : Vmm :=
  oneTable.setEntry 0x1000 0x5000 0x8003

/-- Mapping a page with a table keeps the address space well formed. -/
theorem onePage_wellFormed : onePage.WellFormed 0x1000 :=
  oneTable_wellFormed.setEntry (oneTable_ne_zero rfl) _

theorem getPhysicalAddress_onePage (w : Word) :
    vmmngrGetPhysicalAddress onePage 0x1000 w = if pageOf w = pageOf 0x5000 then 0x8003 else 0 := by
  rw [onePage, oneTable_wellFormed.getPhysicalAddress_setEntry (oneTable_ne_zero rfl),
    oneTable_unmapped]

/-- Unmapping page `5` when no other page is mapped. -/
theorem unmapped_alone_onePage :
    vmmngrGetPhysicalAddress (vmmngrUnmapPhysicalAddress onePage 0x1000 0x5000) 0x1000 0x5000 = 0 ∧
      ∀ w, pageOf w ≠ pageOf 0x5000 →
        vmmngrGetPhysicalAddress (vmmngrUnmapPhysicalAddress onePage 0x1000 0x5000) 0x1000 w =
          vmmngrGetPhysicalAddress onePage 0x1000 w := by
  refine (unmapped_alone_iff onePage_wellFormed 0x5000).2 fun w _ hne => ?_
  rw [getPhysicalAddress_onePage, if_neg hne]

/-- Pages `5` and `6` mapped through one table. -/
def twoPages : Vmm :=
  onePage.setEntry 0x1000 0x6000 0x9003

theorem pagedir_onePage : onePage.pagedir 0x1000 (dirIndex 0x6000) ≠ 0 := by
  rw [onePage, oneTable_wellFormed.pagedir_setEntry (oneTable_ne_zero rfl) _ (dirIndex_lt _)]
  exact oneTable_ne_zero rfl

/-- The second page is mapped through the same table. -/
theorem twoPages_wellFormed : twoPages.WellFormed 0x1000 :=
  onePage_wellFormed.setEntry pagedir_onePage _

theorem getPhysicalAddress_twoPages :
    vmmngrGetPhysicalAddress twoPages 0x1000 0x5000 = 0x8003 ∧
      vmmngrGetPhysicalAddress twoPages 0x1000 0x6000 = 0x9003 := by
  constructor
  · rw [twoPages, onePage_wellFormed.getPhysicalAddress_setEntry pagedir_onePage,
      if_neg (by decide), getPhysicalAddress_onePage, if_pos rfl]
  · rw [twoPages, onePage_wellFormed.getPhysicalAddress_setEntry pagedir_onePage, if_pos rfl]

/-- Unmapping page `5` unmaps page `6`. -/
theorem not_unmapped_alone :
    ¬∀ (s : Vmm) (dir v : Word), s.WellFormed dir → vmmngrGetPhysicalAddress s dir v ≠ 0 →
      vmmngrGetPhysicalAddress (vmmngrUnmapPhysicalAddress s dir v) dir v = 0 ∧
        ∀ w, pageOf w ≠ pageOf v →
          vmmngrGetPhysicalAddress (vmmngrUnmapPhysicalAddress s dir v) dir w =
            vmmngrGetPhysicalAddress s dir w := by
  intro h
  have hmapped : vmmngrGetPhysicalAddress twoPages 0x1000 0x5000 ≠ 0 := by
    rw [getPhysicalAddress_twoPages.1]
    decide
  have hsix := (h twoPages 0x1000 0x5000 twoPages_wellFormed hmapped).2 0x6000 (by decide)
  rw [twoPages_wellFormed.getPhysicalAddress_unmapPhysicalAddress, if_pos (by decide),
    getPhysicalAddress_twoPages.2] at hsix
  exact absurd hsix (by decide)

end Scorch
