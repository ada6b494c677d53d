import Scorch.Paging
import Scorch.TableCreation

/-!
# Walking the tables

Three ways to find the entry of an address. The mapping functions shift. The lookup
functions of `vmm.c` divide, and `vmmngr_pdirectory_lookup_entry` divides with the index
function of tables, so that it is right about the first page only
(`lookupEntries_agree_iff`). The processor walks from the directory to the table to the
frame (`hardwareWalk`).

`vmmngr_initialize` fills two tables of 1024 entries and puts each into one slot. The pages
at `0xc0100000` start in the middle of a table, so the last 256 of the 1024 that the loop
writes wrap to the entries before the first, and the addresses they are meant for have an
empty slot (`initialize_walk_iff`).
-/

open ByteMemory

namespace Scorch

open Pmm

/-! ## The lookup functions -/

/-- `PTABLE_ADDR_SPACE_SIZE`. -/
def ptableAddrSpaceSize : ℕ := 0x400000

/-- `DTABLE_ADDR_SPACE_SIZE`. -/
def dtableAddrSpaceSize : ℕ := 0x100000000

/-- `PAGE_SIZE`. -/
def pageSize : Word := 4096

/-- `vmmngr_ptable_virt_to_index`. -/
def vmmngrPtableVirtToIndex (addr : Word) : Word :=
  if ptableAddrSpaceSize ≤ addr.toNat then 0 else addr / pageSize

/-- `vmmngr_ptable_lookup_entry`. -/
def vmmngrPtableLookupEntry (p addr : Word) : Word :=
  if p ≠ 0 then p + 4 * vmmngrPtableVirtToIndex addr else 0

/-- No function calls it. -/
def vmmngrPdirectoryVirtToIndex (addr : Word) : Word :=
  if dtableAddrSpaceSize ≤ addr.toNat then 0 else addr / pageSize

/-- `vmmngr_pdirectory_lookup_entry`. -/
def vmmngrPdirectoryLookupEntry (p addr : Word) : Word :=
  if p ≠ 0 then p + 4 * vmmngrPtableVirtToIndex addr else 0

/-- `&pagedir[virt >> 22]`. -/
def dirSlot (dir virt : Word) : Word :=
  dir + 4 * dirIndex virt

/-- The place of an address in its table. -/
def tableSlot (table virt : Word) : Word :=
  table + 4 * tableIndex virt

/-- The slots are those that the translation of an address reads. -/
theorem getPhysicalAddress_eq_slots (s : Vmm) (dir virt : Word) :
    vmmngrGetPhysicalAddress s dir virt =
      if s.mem.load32 (dirSlot dir virt) = 0 then 0
      else s.mem.load32 (tableSlot (pageOf (s.mem.load32 (dirSlot dir virt))) virt) :=
  rfl

/-- Different indices are different places. -/
theorem add_four_mul_inj {p i j : Word} (hi : i.toNat < 2 ^ 30) (hj : j.toNat < 2 ^ 30) :
    p + 4 * i = p + 4 * j ↔ i = j := by
  refine ⟨fun h => ?_, fun h => by rw [h]⟩
  bv_omega

/-- The index of an address of the first 4 MiB, and zero for all others. -/
theorem toNat_ptableVirtToIndex (addr : Word) :
    (vmmngrPtableVirtToIndex addr).toNat =
      if addr.toNat < 2 ^ 22 then addr.toNat / 4096 else 0 := by
  have hdiv : (addr / pageSize).toNat = addr.toNat / 4096 := BitVec.toNat_udiv
  have hsize : ptableAddrSpaceSize = 2 ^ 22 := rfl
  rw [vmmngrPtableVirtToIndex, hsize]
  by_cases h : addr.toNat < 2 ^ 22
  · rw [if_neg (Nat.not_le.2 h), if_pos h, hdiv]
  · rw [if_pos (Nat.not_lt.1 h), if_neg h]
    rfl

theorem ptableVirtToIndex_lt (addr : Word) : (vmmngrPtableVirtToIndex addr).toNat < 1024 := by
  rw [toNat_ptableVirtToIndex]
  split_ifs <;> omega

/-- The lookup in a directory finds the slot of the mapping functions for the first page
only : below 4 MiB that is slot `0`, and above it is not. -/
theorem pdirectoryLookupEntry_eq_dirSlot_iff {d : Word} (hd : d ≠ 0) (a : Word) :
    vmmngrPdirectoryLookupEntry d a = dirSlot d a ↔ a.toNat < 4096 := by
  have hindex := toNat_ptableVirtToIndex a
  have hdir := toNat_dirIndex a
  have hlt := ptableVirtToIndex_lt a
  have hdlt := dirIndex_lt a
  rw [vmmngrPdirectoryLookupEntry, if_pos hd, dirSlot, add_four_mul_inj (by omega) (by omega),
    ← BitVec.toNat_inj, hindex, hdir]
  split_ifs with h <;> omega

/-- The lookup in a table finds the place in the table for the first 4 MiB, and else for the
first page of a table. -/
theorem ptableLookupEntry_eq_tableSlot_iff {t : Word} (ht : t ≠ 0) (a : Word) :
    vmmngrPtableLookupEntry t a = tableSlot t a ↔ a.toNat < 2 ^ 22 ∨ a.toNat % 2 ^ 22 < 4096 := by
  have hindex := toNat_ptableVirtToIndex a
  have htable := toNat_tableIndex a
  have hlt := ptableVirtToIndex_lt a
  have htlt := tableIndex_lt a
  rw [vmmngrPtableLookupEntry, if_pos ht, tableSlot, add_four_mul_inj (by omega) (by omega),
    ← BitVec.toNat_inj, hindex, htable]
  split_ifs with h <;> omega

/-- The index function of directories gives the place in the directory for no more
addresses. -/
theorem pdirectoryVirtToIndex_eq_dirIndex_iff (a : Word) :
    vmmngrPdirectoryVirtToIndex a = dirIndex a ↔ a.toNat < 4096 := by
  have hdiv : (a / pageSize).toNat = a.toNat / 4096 := BitVec.toNat_udiv
  have hsize : ¬dtableAddrSpaceSize ≤ a.toNat := Nat.not_le.2 a.isLt
  have hdir := toNat_dirIndex a
  rw [vmmngrPdirectoryVirtToIndex, if_neg hsize, ← BitVec.toNat_inj, hdiv, hdir]
  omega

/-- Both lookups find the entries that the mapping functions use exactly for the addresses
of the first page. -/
theorem lookupEntries_agree_iff {d : Word} (hd : d ≠ 0) (t a : Word) :
    (vmmngrPdirectoryLookupEntry d a = dirSlot d a ∧
      vmmngrPtableLookupEntry t a = tableSlot t a) ↔ a.toNat < 4096 := by
  rw [pdirectoryLookupEntry_eq_dirSlot_iff hd]
  refine and_iff_left_of_imp fun hfirst => ?_
  by_cases ht : t = 0
  · have hzero : tableIndex a = 0 := by
      rw [← BitVec.toNat_inj, toNat_tableIndex]
      show a.toNat % 2 ^ 22 / 4096 = 0
      omega
    rw [ht, tableSlot, hzero]
    rfl
  · exact (ptableLookupEntry_eq_tableSlot_iff ht a).2 (Or.inl (by omega))

/-- Both lookups at the end of the first page. -/
theorem lookupEntries_agree_lastByte :
    vmmngrPdirectoryLookupEntry 0x1000 0xfff = dirSlot 0x1000 0xfff ∧
      vmmngrPtableLookupEntry 0x2000 0xfff = tableSlot 0x2000 0xfff :=
  (lookupEntries_agree_iff (d := 0x1000) (by decide) 0x2000 0xfff).2 (by decide)

/-- Address `0x1000` : entry `1` of the directory instead of entry `0`. -/
theorem not_lookupEntries_agree :
    ¬∀ d t a : Word, d ≠ 0 →
      vmmngrPdirectoryLookupEntry d a = dirSlot d a ∧
        vmmngrPtableLookupEntry t a = tableSlot t a := by
  intro h
  exact absurd (h 0x1000 0x2000 0x1000 (by decide)).1 (by decide)

/-! ## The walk of the processor -/

/-- Bits 31 to 22 of an address. -/
def walkDirIndex (v : Word) : Word :=
  v >>> 22

/-- Bits 21 to 12. -/
def walkTableIndex (v : Word) : Word :=
  v >>> 12 &&& 0x3ff

/-- The two-level walk : the frame and the offset in it, or a page fault. -/
def hardwareWalk (m : Mem) (pdbr v : Word) : Option Word :=
  let pde := m.load32 (pageOf pdbr + 4 * walkDirIndex v)
  if pde.getLsbD 0 then
    let pte := m.load32 (pageOf pde + 4 * walkTableIndex v)
    if pte.getLsbD 0 then some (pageOf pte ||| (v &&& 0xfff)) else none
  else none

/-- The index of a table that the processor takes is that of the mapping functions. -/
theorem walkTableIndex_eq_tableIndex (v : Word) : walkTableIndex v = tableIndex v := by
  rw [walkTableIndex, ← BitVec.toNat_inj, toNat_and_low (k := 10) _ rfl, toNat_tableIndex,
    BitVec.toNat_ushiftRight, Nat.shiftRight_eq_div_pow]
  omega

/-- The sign of the `int` does not reach the ten bits. -/
theorem pageTableIndex_eq_tableIndex (v : Word) : pageTableIndex v = tableIndex v := by
  rw [← walkTableIndex_eq_tableIndex, pageTableIndex, walkTableIndex]
  refine BitVec.eq_of_getLsbD_eq fun t ht => ?_
  have hmask : (0x3ff : Word).getLsbD t = decide (t < 10) := by
    interval_cases t <;> rfl
  rw [BitVec.getLsbD_and, BitVec.getLsbD_and, hmask, BitVec.getLsbD_sshiftRight,
    BitVec.getLsbD_ushiftRight]
  by_cases hlow : t < 10
  · have hin : 12 + t < 32 := by omega
    simp [hlow, hin, ht]
  · simp [hlow]

/-! ## The tables that are filled -/

/-- A page is present and has no other attribute. -/
theorem ptEntrySetFrame_present (frame : Word) :
    ptEntrySetFrame (ptEntryAddAttrib 0 1) frame = 1 ||| frame := by
  have hpresent : ptEntryAddAttrib 0 1 &&& ~~~pteFrame = 1 := by decide
  rw [ptEntrySetFrame, hpresent]

/-- The entry after the last is the first. -/
theorem toNat_pageTableIndex_next (virt : Word) :
    (pageTableIndex (virt + 4096)).toNat = ((pageTableIndex virt).toNat + 1) % 1024 := by
  have h4096 : (4096 : Word).toNat = 4096 := rfl
  rw [pageTableIndex_eq_tableIndex, pageTableIndex_eq_tableIndex, toNat_tableIndex,
    toNat_tableIndex, BitVec.toNat_add, h4096]
  omega

/-- The round of the loop that stores entry `j`, when the first one stores entry `i`. -/
def fillRound (i j : ℕ) : ℕ :=
  (j + 1024 - i) % 1024

section Fill

variable {p : Word} (hp : IsPage p)

include hp

/-- The loop stores to no other page. -/
theorem load32_fillTable_of_ne {q i : Word} (hq : IsPage q) (hne : p ≠ q) (hi : i.toNat < 1024) :
    ∀ (n : ℕ) (frame virt : Word) (m : Mem),
      (fillTable p n frame virt m).load32 (q + 4 * i) = m.load32 (q + 4 * i)
  | 0, _, _, _ => rfl
  | n + 1, frame, virt, m => by
    have hidx : (pageTableIndex virt).toNat < 1024 := by
      rw [pageTableIndex_eq_tableIndex]
      exact tableIndex_lt virt
    rw [fillTable, load32_fillTable_of_ne hq hne hi n]
    exact Mem.load32_store32_of_apart (apart_of_ne hp hq hidx hi (Or.inl hne))

omit hp in
/-- Each entry has the frame of its round. The induction is on the rounds left. -/
theorem load32_fillTable {j : Word} (hj : j.toNat < 1024) :
    ∀ (n : ℕ) (frame virt : Word) (m : Mem), n ≤ 1024 →
      (fillTable p n frame virt m).load32 (p + 4 * j) =
        if fillRound (pageTableIndex virt).toNat j.toNat < n then
          1 ||| (frame + 4096 * BitVec.ofNat 32 (fillRound (pageTableIndex virt).toNat j.toNat))
        else m.load32 (p + 4 * j)
  | 0, _, _, _, _ => by rw [if_neg (Nat.not_lt_zero _)]; rfl
  | n + 1, frame, virt, m, hn => by
    have hidx : (pageTableIndex virt).toNat < 1024 := by
      rw [pageTableIndex_eq_tableIndex]
      exact tableIndex_lt virt
    rw [fillTable, load32_fillTable hj n _ _ _ (by omega), toNat_pageTableIndex_next,
      ptEntrySetFrame_present]
    by_cases hself : pageTableIndex virt = j
    · -- The entry of this round, which the rounds left do not reach.
      subst hself
      have hzero : fillRound (pageTableIndex virt).toNat (pageTableIndex virt).toNat = 0 := by
        unfold fillRound
        omega
      have hlast : ¬fillRound (((pageTableIndex virt).toNat + 1) % 1024)
          (pageTableIndex virt).toNat < n := by
        unfold fillRound
        omega
      have hframe : frame + 4096 * BitVec.ofNat 32 0 = frame := by bv_omega
      rw [if_neg hlast, Mem.load32_store32_self, hzero, if_pos (Nat.succ_pos n), hframe]
    · have hne := BitVec.toNat_ne_iff_ne.2 hself
      have hround : fillRound (pageTableIndex virt).toNat j.toNat =
          fillRound (((pageTableIndex virt).toNat + 1) % 1024) j.toNat + 1 := by
        unfold fillRound
        omega
      have hframe : ∀ k, frame + 4096 + 4096 * BitVec.ofNat 32 k =
          frame + 4096 * BitVec.ofNat 32 (k + 1) := fun k => by
        rw [BitVec.ofNat_add k 1]
        bv_omega
      rw [hround, hframe, Mem.load32_store32_of_apart (apart_of_index_ne p hidx hj hself)]
      exact if_congr (Nat.add_lt_add_iff_right).symm rfl rfl

end Fill

/-! ## The directory that is built -/

section Directory

variable {s : Vmm} {dir i j : Word} (hi : i.toNat < 1024) (hj : j.toNat < 1024)

include hi hj

/-- A store to a slot changes that slot. -/
theorem pagedir_setPagedir (w : Word) :
    (s.setPagedir dir i w).pagedir dir j = if j = i then w else s.pagedir dir j := by
  split_ifs with h
  · rw [h]
    exact Mem.load32_store32_self _ _ _
  · exact Mem.load32_store32_of_apart (apart_of_index_ne dir hi hj (Ne.symm h))

/-- An empty slot gets the table, present and writable. -/
theorem pagedir_setUpEntry (hempty : s.pagedir dir i = 0) (table : Word) :
    (setUpEntry s dir i table).pagedir dir j = if j = i then 3 ||| table else s.pagedir dir j := by
  have hattrib : pdEntryAddAttrib (pdEntryAddAttrib 0 1) 2 &&& ~~~pteFrame = 3 := by decide
  unfold setUpEntry
  dsimp only
  simp only [pagedir_setPagedir hi hi, pagedir_setPagedir hi hj, if_true, hempty, pdEntrySetFrame,
    hattrib]
  split_ifs <;> rfl

theorem load32_setUpEntry_of_ne {q : Word} (hdir : IsPage dir) (hq : IsPage q) (hne : dir ≠ q)
    (table : Word) :
    (setUpEntry s dir i table).mem.load32 (q + 4 * j) = s.mem.load32 (q + 4 * j) := by
  have happart : Mem.Apart (dir + 4 * i) (q + 4 * j) := apart_of_ne hdir hq hi hj (Or.inl hne)
  unfold setUpEntry Vmm.setPagedir
  simp only [Mem.load32_store32_of_apart happart]

end Directory

theorem load32_memset_self (m : Mem) (p : Word) {i : Word} (hi : i.toNat < 1024) :
    (memset m p 0 4096).load32 (p + 4 * i) = 0 :=
  (Mem.load32_eq_zero_iff _ _).2 fun _ hx =>
    Mem.fill_of_mem (by decide) (mem_block_page hi hx)

theorem load32_memset_of_ne (m : Mem) {p q : Word} (hp : IsPage p) (hq : IsPage q) (hne : p ≠ q)
    {i : Word} (hi : i.toNat < 1024) :
    (memset m p 0 4096).load32 (q + 4 * i) = m.load32 (q + 4 * i) :=
  Mem.load32_fill_of_apart (by decide) fun _ hx =>
    notMem_block_page hq hp hne.symm (mem_block_page hi hx)

/-- A directory that was cleared has empty slots. -/
theorem pagedir_cleared (s : Vmm) (dir : Word) {k : Word} (hk : k.toNat < 1024) :
    Vmm.pagedir { s with mem := memset s.mem dir 0 4096 } dir k = 0 := by
  rw [Vmm.pagedir, load32_memset_self _ dir hk]

/-- The bitmap is not in the memory of the tables. -/
theorem mem_withPmm (s : Vmm) (pmm : Pmm) : (s.withPmm pmm).mem = s.mem :=
  rfl

/-- `vmmngr_initialize` clears the directory and sets two slots. -/
theorem initDirectory_eq (s : Vmm) (dir table table2 : Word) :
    initDirectory s dir table table2 =
      setUpEntry (setUpEntry { s with mem := memset s.mem dir 0 4096 } dir 768 table) dir 0
        table2 := by
  have hfirst : pageDirectoryIndex 0x00000000 = 0 := by decide
  have hkernel : pageDirectoryIndex 0xc0100000 = 768 := by decide
  rw [initDirectory, hfirst, hkernel]

/-- Two slots of the directory have tables : those of the first 4 MiB and of the 4 MiB from
3 GiB on. -/
theorem pagedir_initDirectory (s : Vmm) (dir table table2 : Word) {i : Word}
    (hi : i.toNat < 1024) :
    (initDirectory s dir table table2).pagedir dir i =
      if i = 0 then 3 ||| table2 else if i = 768 then 3 ||| table else 0 := by
  have hkernel := pagedir_cleared s dir (k := 768) (by decide)
  have hfirst := pagedir_setUpEntry (i := 768) (j := 0) (by decide) (by decide) hkernel table
  rw [if_neg (by decide), pagedir_cleared s dir (by decide)] at hfirst
  rw [initDirectory_eq, pagedir_setUpEntry (by decide) hi hfirst,
    pagedir_setUpEntry (by decide) hi hkernel, pagedir_cleared s dir hi]

/-- The directory and the tables of `vmmngr_initialize`, in three frames. -/
structure BuildsIn (dir table table2 : Word) : Prop where
  isPage_dir : IsPage dir
  isPage_table : IsPage table
  isPage_table2 : IsPage table2
  table_ne_table2 : table ≠ table2
  dir_ne_table : dir ≠ table
  dir_ne_table2 : dir ≠ table2

namespace BuildsIn

variable {dir table table2 : Word} (h : BuildsIn dir table table2) (s : Vmm) (pmm : Pmm)

include h

/-- The words of a table are those it was filled with. -/
theorem load32_initDirectory {q : Word} (hq : IsPage q) (hne : dir ≠ q) {j : Word}
    (hj : j.toNat < 1024) :
    (initDirectory ((initTables s table table2).withPmm pmm) dir table table2).mem.load32
        (q + 4 * j) =
      (initTables s table table2).mem.load32 (q + 4 * j) := by
  rw [initDirectory_eq, load32_setUpEntry_of_ne (by decide) hj h.isPage_dir hq hne,
    load32_setUpEntry_of_ne (by decide) hj h.isPage_dir hq hne,
    load32_memset_of_ne _ h.isPage_dir hq hne hj, mem_withPmm]

/-- The first table has the pages from 1 MiB on, beginning with its entry `256`. -/
theorem load32_table {j : Word} (hj : j.toNat < 1024) :
    (initDirectory ((initTables s table table2).withPmm pmm) dir table table2).mem.load32
        (table + 4 * j) =
      1 ||| (0x100000 + 4096 * BitVec.ofNat 32 (fillRound 256 j.toNat)) := by
  have hidx : (pageTableIndex 0xc0100000).toNat = 256 := by decide
  have hround : fillRound 256 j.toNat < 1024 := Nat.mod_lt _ (by norm_num)
  rw [h.load32_initDirectory s pmm h.isPage_table h.dir_ne_table hj, initTables,
    load32_fillTable hj 1024 _ _ _ le_rfl, hidx, if_pos hround]

/-- The second table maps the first 4 MiB to themselves. -/
theorem load32_table2 {j : Word} (hj : j.toNat < 1024) :
    (initDirectory ((initTables s table table2).withPmm pmm) dir table table2).mem.load32
        (table2 + 4 * j) = 1 ||| 4096 * j := by
  have hidx : (pageTableIndex 0x00000000).toNat = 0 := by decide
  have hround : fillRound 0 j.toNat = j.toNat := by
    unfold fillRound
    omega
  rw [h.load32_initDirectory s pmm h.isPage_table2 h.dir_ne_table2 hj, initTables]
  dsimp only
  have hframe : 0x0 + 4096 * BitVec.ofNat 32 j.toNat = 4096 * j := by
    rw [BitVec.ofNat_toNat, BitVec.setWidth_eq]
    bv_omega
  rw [load32_fillTable_of_ne h.isPage_table h.isPage_table2 h.table_ne_table2 hj,
    load32_fillTable hj 1024 _ _ _ le_rfl, hidx, hround, if_pos hj, hframe]

end BuildsIn

/-! ## The walk of the installed directory -/

/-- An address whose directory entry and table entry are present. -/
theorem hardwareWalk_of_present {m : Mem} {dir v table frame : Word} (hdir : IsPage dir)
    (htable : IsPage table) (hframe : IsPage frame)
    (hpde : m.load32 (dir + 4 * dirIndex v) = 3 ||| table)
    (hpte : m.load32 (table + 4 * tableIndex v) = 1 ||| frame) :
    hardwareWalk m dir v = some (frame + (v &&& 0xfff)) := by
  have htbase : pageOf (3 ||| table) = table := by
    rw [BitVec.or_comm]
    exact htable.pageOf_or (by decide)
  have hfbase : pageOf (1 ||| frame) = frame := by
    rw [BitVec.or_comm]
    exact hframe.pageOf_or (by decide)
  have hoffset : (v &&& 0xfff).toNat < 4096 := by
    rw [toNat_and_low (k := 12) v rfl]
    omega
  unfold hardwareWalk
  dsimp only
  rw [walkDirIndex, ← dirIndex, walkTableIndex_eq_tableIndex, hdir.pageOf_eq, hpde, htbase, hpte,
    hfbase, if_pos (by simp), if_pos (by simp), hframe.or_eq_add hoffset]

/-- The processor finds nothing behind an empty slot. -/
theorem hardwareWalk_of_empty {m : Mem} {dir v : Word} (hdir : IsPage dir)
    (hpde : m.load32 (dir + 4 * dirIndex v) = 0) : hardwareWalk m dir v = none := by
  unfold hardwareWalk
  dsimp only
  rw [walkDirIndex, ← dirIndex, hdir.pageOf_eq, hpde]
  rfl

/-- What the four allocations of `vmmngr_initialize` return : three tables and the directory. -/
def bootBlocks (p : Pmm) : List Word :=
  let table := pmmngrAllocBlock p
  let table2 := pmmngrAllocBlock table.2
  let table3 := pmmngrAllocBlock table2.2
  let dir := pmmngrAllocBlocks table3.2 3
  [table.1, table2.1, table3.1, dir.1]

/-- They return frames, no two of them the same. -/
def DistinctFrames (p : Pmm) : Prop :=
  (0 :: bootBlocks p).Nodup

instance (p : Pmm) : Decidable (DistinctFrames p) :=
  inferInstanceAs (Decidable (List.Nodup _))

theorem isPage_pmmngrAllocBlocks (p : Pmm) (size : Word) : IsPage (pmmngrAllocBlocks p size).1 := by
  rcases pmmngrAllocBlocks_cases p size with ⟨heq, -⟩ | ⟨f, -, -, -, heq⟩
  · rw [heq]
    rfl
  · rw [heq]
    exact isPage_frameAddr f

/-- With four distinct frames `vmmngr_initialize` builds its directory and installs it. -/
theorem exists_initialize_eq {s : Paging} (h : DistinctFrames s.vmm.pmm) :
    ∃ (dir table table2 : Word) (v : Vmm) (pmm : Pmm), BuildsIn dir table table2 ∧
      (vmmngrInitialize s).pdbr = some dir ∧
      (vmmngrInitialize s).vmm.mem =
        (initDirectory ((initTables v table table2).withPmm pmm) dir table table2).mem := by
  set table := pmmngrAllocBlock s.vmm.pmm with htable
  set table2 := pmmngrAllocBlock table.2 with htable2
  set table3 := pmmngrAllocBlock table2.2 with htable3
  set dir := pmmngrAllocBlocks table3.2 3 with hdir
  have hnodup : [0, table.1, table2.1, table3.1, dir.1].Nodup := h
  simp only [List.nodup_cons, List.mem_cons, not_or, List.not_mem_nil, not_false_eq_true,
    and_true] at hnodup
  obtain ⟨⟨h1, h2, h3, h4⟩, ⟨h12, -, h14⟩, ⟨-, h24⟩, -, -⟩ := hnodup
  have hpages : BuildsIn dir.1 table.1 table2.1 :=
    { isPage_dir := isPage_pmmngrAllocBlocks _ _
      isPage_table := s.vmm.isPage_block
      isPage_table2 := (s.vmm.withPmm table.2).isPage_block
      table_ne_table2 := h12
      dir_ne_table := Ne.symm h14
      dir_ne_table2 := Ne.symm h24 }
  refine ⟨dir.1, table.1, table2.1, s.vmm.withPmm table3.2, dir.2, hpages, ?_⟩
  have heq : vmmngrInitialize s = installDirectory { s with
      vmm := initDirectory ((initTables (s.vmm.withPmm table3.2) table.1 table2.1).withPmm dir.2)
        dir.1 table.1 table2.1 } dir.1 := by
    rw [vmmngrInitialize]
    exact (if_neg (Ne.symm h1)).trans ((if_neg (Ne.symm h2)).trans ((if_neg (Ne.symm h3)).trans
      (if_neg (Ne.symm h4))))
  rw [heq, (Paging.installDirectory_of_ne_zero _ (Ne.symm h4)).2.2]
  refine ⟨rfl, ?_⟩
  unfold installDirectory
  dsimp only
  rw [Paging.switchPdirectory_of_ne_zero _ (Ne.symm h4)]
  rfl

/-- An address that the loops of `vmmngr_initialize` write an entry for. -/
def Covered (v : Word) : Prop :=
  v.toNat < 0x400000 ∨ 0xC0100000 ≤ v.toNat ∧ v.toNat < 0xC0500000

/-- The physical address it is meant for : itself in the first 4 MiB, and 3 GiB less from
there on. -/
def intendedAddress (v : Word) : Word :=
  if v.toNat < 0x400000 then v else v - 0xC0000000

namespace BuildsIn

variable {dir table table2 : Word} (h : BuildsIn dir table table2) (s : Vmm) (pmm : Pmm) {v : Word}

include h

/-- The first 4 MiB are walked to themselves. -/
theorem hardwareWalk_low (hv : v.toNat < 0x400000) :
    hardwareWalk (initDirectory ((initTables s table table2).withPmm pmm) dir table table2).mem
      dir v = some v := by
  have hdirIndex : dirIndex v = 0 := by
    rw [← BitVec.toNat_inj, toNat_dirIndex]
    exact Nat.div_eq_of_lt hv
  have hpde := pagedir_initDirectory ((initTables s table table2).withPmm pmm) dir table table2
    (dirIndex_lt v)
  rw [if_pos hdirIndex, Vmm.pagedir] at hpde
  have htable := toNat_tableIndex v
  have hoffset : (v &&& 0xfff).toNat = v.toNat % 2 ^ 12 := toNat_and_low v rfl
  have hframe : IsPage (4096 * tableIndex v) := by
    unfold IsPage
    bv_omega
  have haddress : 4096 * tableIndex v + (v &&& 0xfff) = v := by bv_omega
  rw [hardwareWalk_of_present h.isPage_dir h.isPage_table2 hframe hpde
    (h.load32_table2 s pmm (tableIndex_lt v)), haddress]

/-- The entries from `256` on have the frames from 1 MiB on. -/
theorem hardwareWalk_kernel (hlo : 0xC0100000 ≤ v.toNat) (hhi : v.toNat < 0xC0400000) :
    hardwareWalk (initDirectory ((initTables s table table2).withPmm pmm) dir table table2).mem
      dir v = some (v - 0xC0000000) := by
  have hdirIndex : dirIndex v = 768 := by
    have h768 : (768 : Word).toNat = 768 := rfl
    rw [← BitVec.toNat_inj, toNat_dirIndex, h768]
    omega
  have hpde := pagedir_initDirectory ((initTables s table table2).withPmm pmm) dir table table2
    (dirIndex_lt v)
  rw [if_neg (by rw [hdirIndex]; decide), if_pos hdirIndex, Vmm.pagedir] at hpde
  have htable := toNat_tableIndex v
  have hoffset : (v &&& 0xfff).toNat = v.toNat % 2 ^ 12 := toNat_and_low v rfl
  have hround : fillRound 256 (tableIndex v).toNat = (tableIndex v).toNat - 256 := by
    rw [fillRound, htable]
    omega
  set frame := 0x100000 + 4096 * BitVec.ofNat 32 (fillRound 256 (tableIndex v).toNat) with hframe
  have hframeNat : frame.toNat = 4096 * (tableIndex v).toNat := by
    rw [hframe, hround]
    bv_omega
  have hpage : IsPage frame := by
    rw [IsPage, hframeNat]
    omega
  have haddress : frame + (v &&& 0xfff) = v - 0xC0000000 := by bv_omega
  rw [hardwareWalk_of_present h.isPage_dir h.isPage_table hpage hpde
    (h.load32_table s pmm (tableIndex_lt v)), haddress]

/-- Slot `769` is empty. -/
theorem hardwareWalk_beyond (hlo : 0xC0400000 ≤ v.toNat) :
    hardwareWalk (initDirectory ((initTables s table table2).withPmm pmm) dir table table2).mem
      dir v = none := by
  have h768 : (768 : Word).toNat = 768 := rfl
  have hne : dirIndex v ≠ 0 ∧ dirIndex v ≠ 768 := by
    rw [Ne, Ne, ← BitVec.toNat_inj, ← BitVec.toNat_inj, toNat_dirIndex, h768]
    show v.toNat / 2 ^ 22 ≠ 0 ∧ v.toNat / 2 ^ 22 ≠ 768
    omega
  have hpde := pagedir_initDirectory ((initTables s table table2).withPmm pmm) dir table table2
    (dirIndex_lt v)
  rw [if_neg hne.1, if_neg hne.2, Vmm.pagedir] at hpde
  exact hardwareWalk_of_empty h.isPage_dir hpde

end BuildsIn

/-- The processor is led to the address meant exactly for the addresses below the table behind
the one at 3 GiB. -/
theorem initialize_walk_iff {s : Paging} (h : DistinctFrames s.vmm.pmm) {v : Word}
    (hv : Covered v) :
    (∃ dir, (vmmngrInitialize s).pdbr = some dir ∧
        hardwareWalk (vmmngrInitialize s).vmm.mem dir v = some (intendedAddress v)) ↔
      v.toNat < 0xC0400000 := by
  obtain ⟨dir, table, table2, w, pmm, hbuild, hpdbr, hmem⟩ := exists_initialize_eq h
  have hdir : (∃ d, (vmmngrInitialize s).pdbr = some d ∧
      hardwareWalk (vmmngrInitialize s).vmm.mem d v = some (intendedAddress v)) ↔
      hardwareWalk (vmmngrInitialize s).vmm.mem dir v = some (intendedAddress v) := by
    rw [hpdbr]
    simp
  rw [hdir, hmem]
  rcases hv with hlow | ⟨hlo, hhi⟩
  · rw [hbuild.hardwareWalk_low w pmm hlow, intendedAddress, if_pos hlow]
    exact iff_of_true rfl (by omega)
  · by_cases hend : v.toNat < 0xC0400000
    · rw [hbuild.hardwareWalk_kernel w pmm hlo hend, intendedAddress, if_neg (by omega)]
      exact iff_of_true rfl hend
    · rw [hbuild.hardwareWalk_beyond w pmm (by omega)]
      exact iff_of_false (by simp) hend

/-- The next four blocks are different. -/
theorem distinctFrames_threeUsed : DistinctFrames threeUsed := by
  decide

/-- The first byte of the kernel. -/
theorem initialize_walk_threeUsed :
    ∃ dir, (vmmngrInitialize (.boot threeUsed fun _ => 0)).pdbr = some dir ∧
      hardwareWalk (vmmngrInitialize (.boot threeUsed fun _ => 0)).vmm.mem dir 0xC0100000 =
        some (intendedAddress 0xC0100000) :=
  (initialize_walk_iff (s := .boot threeUsed fun _ => 0) distinctFrames_threeUsed
    (Or.inr ⟨by decide, by decide⟩)).2 (by decide)

/-- Address `0xC0400000` faults : its entry is the one that `0xC0000000` is found by. -/
theorem not_initialize_walk :
    ¬∀ (s : Paging) (v : Word), DistinctFrames s.vmm.pmm → Covered v →
      ∃ dir, (vmmngrInitialize s).pdbr = some dir ∧
        hardwareWalk (vmmngrInitialize s).vmm.mem dir v = some (intendedAddress v) := by
  intro hall
  set s : Paging := .boot threeUsed fun _ => 0
  obtain ⟨dir, table, table2, w, pmm, hbuild, hpdbr, hmem⟩ :=
    exists_initialize_eq (s := s) distinctFrames_threeUsed
  obtain ⟨d, hd, hwalk⟩ := hall s 0xC0400000 distinctFrames_threeUsed
    (Or.inr ⟨by decide, by decide⟩)
  obtain rfl : dir = d := Option.some.inj (hpdbr.symm.trans hd)
  rw [hmem, hbuild.hardwareWalk_beyond w pmm (by decide)] at hwalk
  contradiction

end Scorch
