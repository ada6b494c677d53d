import Scorch.AddressSpace
import Scorch.Lib.GuardedRun

/-!
# Page directories and the processor

`vmmngr_initialize`, `vmmngr_switch_pdirectory` and `vmmngr_createAddressSpace`. Three
variables name a page directory : `_cur_directory`, which the mapping functions edit,
`_cur_pdbr`, and the register the processor walks from. `vmmngr_initialize` sets all
three. A switch sets the first and loads the second into the third, and nothing else
writes the second.

So the processor follows the software exactly as long as every switch names the directory
that `vmmngr_initialize` built (`agrees_iff_switches_home`).
-/

open ByteMemory GuardedRun

namespace Scorch

open Pmm

/-- The memory manager with `_cur_pdbr`, and the registers of the processor it writes. -/
structure Paging where
  vmm : Vmm
  /-- `_cur_pdbr`. -/
  curPdbr : Word
  /-- What `pmmngr_load_PDBR` loaded last, if it has run. -/
  pdbr : Option Word
  /-- The paging bit of `cr0`. -/
  paging : Bool

/-- The managers before `vmmngr_initialize` : the variables of `vmm.c` start at zero. -/
def Paging.boot (pmm : Pmm) (mem : Mem) : Paging where
  vmm := { pmm := pmm, mem := mem, curDirectory := 0, nullStores := 0 }
  curPdbr := 0
  pdbr := none
  paging := false

/-! ## Entries -/

/-- `I86_PTE_FRAME`, and `I86_PDE_FRAME`. -/
def pteFrame : Word := 0x7FFFF000

/-- `pt_entry_add_attrib`. -/
def ptEntryAddAttrib (e attrib : Word) : Word :=
  e ||| attrib

/-- `pt_entry_set_frame`. -/
def ptEntrySetFrame (e addr : Word) : Word :=
  (e &&& ~~~pteFrame) ||| addr

/-- `pd_entry_add_attrib`. -/
def pdEntryAddAttrib (e attrib : Word) : Word :=
  e ||| attrib

/-- `pd_entry_set_frame`. -/
def pdEntrySetFrame (e addr : Word) : Word :=
  (e &&& ~~~pteFrame) ||| addr

/-- `PAGE_DIRECTORY_INDEX`, of an unsigned constant. -/
def pageDirectoryIndex (x : Word) : Word :=
  x >>> 22 &&& 0x3ff

/-- `PAGE_TABLE_INDEX`, of an `int`. -/
def pageTableIndex (x : Word) : Word :=
  x.sshiftRight 12 &&& 0x3ff

/-! ## The functions -/

/-- The loops of `vmmngr_initialize` that fill a table, with `n` rounds left. -/
def fillTable (table : Word) : ℕ → Word → Word → Mem → Mem
  | 0, _, _, m => m
  | n + 1, frame, virt, m =>
    let page := ptEntrySetFrame (ptEntryAddAttrib 0 1) frame
    fillTable table n (frame + 4096) (virt + 4096)
      (m.store32 (table + 4 * pageTableIndex virt) page)

/-- The three statements that set up one directory entry. -/
def setUpEntry (s : Vmm) (dir i table : Word) : Vmm :=
  let s := s.setPagedir dir i (pdEntryAddAttrib (s.pagedir dir i) 1)
  let s := s.setPagedir dir i (pdEntryAddAttrib (s.pagedir dir i) 2)
  s.setPagedir dir i (pdEntrySetFrame (s.pagedir dir i) table)

/-- `pmmngr_load_PDBR`. -/
def pmmngrLoadPdbr (s : Paging) (addr : Word) : Paging :=
  { s with pdbr := some addr }

/-- `pmmngr_paging_enable`. -/
def pmmngrPagingEnable (s : Paging) (b : Bool) : Paging :=
  { s with paging := b }

/-- `vmmngr_switch_pdirectory` : the null pointer is refused. -/
def vmmngrSwitchPdirectory (s : Paging) (dir : Word) : Bool × Paging :=
  if dir = 0 then (false, s)
  else
    let s := { s with vmm := { s.vmm with curDirectory := dir } }
    (true, pmmngrLoadPdbr s s.curPdbr)

/-- `vmmngr_get_directory`. -/
def vmmngrGetDirectory (s : Paging) : Word :=
  s.vmm.curDirectory

/-- The state after a call of the manager below. -/
def Vmm.withPmm (s : Vmm) (pmm : Pmm) : Vmm :=
  { s with pmm := pmm }

/-- The part of `vmmngr_initialize` that builds the directory in `dir`, once the tables are
filled. -/
def initDirectory (s : Vmm) (dir table table2 : Word) : Vmm :=
  let s := { s with mem := memset s.mem dir 0 4096 }
  let s := setUpEntry s dir (pageDirectoryIndex 0xc0100000) table
  setUpEntry s dir (pageDirectoryIndex 0x00000000) table2

/-- The part of `vmmngr_initialize` that clears and fills the tables. -/
def initTables (s : Vmm) (table table2 : Word) : Vmm :=
  let m := memset s.mem table 0 4096
  let m := memset m table2 0 4096
  let m := fillTable table2 1024 0x0 0x00000000 m
  { s with mem := fillTable table 1024 0x100000 0xc0100000 m }

/-- The part that stores `_cur_pdbr`, switches to the directory and enables paging. -/
def installDirectory (s : Paging) (dir : Word) : Paging :=
  let s := { s with curPdbr := dir }
  pmmngrPagingEnable (vmmngrSwitchPdirectory s dir).2 true

/-- `vmmngr_initialize` : two tables, the one of the first 4 MiB and the one of the kernel, and
a directory that becomes the current one. -/
def vmmngrInitialize (s : Paging) : Paging :=
  let table := (pmmngrAllocBlock s.vmm.pmm).1
  let v := s.vmm.withPmm (pmmngrAllocBlock s.vmm.pmm).2
  if table = 0 then { s with vmm := v }
  else
    let table2 := (pmmngrAllocBlock v.pmm).1
    let v := v.withPmm (pmmngrAllocBlock v.pmm).2
    if table2 = 0 then { s with vmm := v }
    else
      let table3 := (pmmngrAllocBlock v.pmm).1
      let v := v.withPmm (pmmngrAllocBlock v.pmm).2
      if table3 = 0 then { s with vmm := v }
      else
        let v := initTables v table table2
        let dir := (pmmngrAllocBlocks v.pmm 3).1
        let v := v.withPmm (pmmngrAllocBlocks v.pmm 3).2
        if dir = 0 then { s with vmm := v }
        else installDirectory { s with vmm := initDirectory v dir table table2 } dir

/-- Returns the address of the directory, `0` when there is no block for it. -/
def vmmngrCreateAddressSpace (s : Vmm) : Word × Vmm :=
  let dir := (pmmngrAllocBlock s.pmm).1
  let s := s.withPmm (pmmngrAllocBlock s.pmm).2
  if dir = 0 then (0, s)
  else (dir, { s with mem := memset s.mem dir 0 4096 })

/-! ## Runs -/

/-- The calls made after `vmmngr_initialize`. A directory to switch to is not null. -/
inductive DirectoryCall where
  | createAddressSpace
  | switchPdirectory (dir : {d : Word // d ≠ 0})

namespace Paging

/-- The state after a call. -/
def step (s : Paging) : DirectoryCall → Paging
  | .createAddressSpace => { s with vmm := (vmmngrCreateAddressSpace s.vmm).2 }
  | .switchPdirectory dir => (vmmngrSwitchPdirectory s dir).2

/-- The directory of the software is the one loaded last, or there is neither. -/
def Agrees (s : Paging) : Prop :=
  s.pdbr = some (vmmngrGetDirectory s) ∨ s.pdbr = none ∧ vmmngrGetDirectory s = 0

instance (s : Paging) : Decidable s.Agrees :=
  inferInstanceAs (Decidable (_ ∨ _))

/-- A switch goes to the directory in `_cur_pdbr`. -/
def SwitchesHome (s : Paging) : DirectoryCall → Prop
  | .createAddressSpace => True
  | .switchPdirectory dir => dir = s.curPdbr

/-- A switch loads the register with the address that was noted before, whatever directory is
asked for. -/
theorem switchPdirectory_of_ne_zero (s : Paging) {dir : Word} (h : dir ≠ 0) :
    vmmngrSwitchPdirectory s dir =
      (true, { s with vmm := { s.vmm with curDirectory := dir }, pdbr := some s.curPdbr }) :=
  if_neg h

/-- `vmmngr_initialize` notes the address of its directory first. -/
theorem installDirectory_of_ne_zero (s : Paging) {dir : Word} (h : dir ≠ 0) :
    vmmngrGetDirectory (installDirectory s dir) = dir ∧ (installDirectory s dir).curPdbr = dir ∧
      (installDirectory s dir).pdbr = some dir := by
  unfold installDirectory
  dsimp only
  rw [switchPdirectory_of_ne_zero _ h]
  exact ⟨rfl, rfl, rfl⟩

/-- `vmmngr_initialize` sets the three variables together, or none of them. -/
theorem initialize_cases (s : Paging) :
    (∃ dir, dir ≠ 0 ∧ vmmngrGetDirectory (vmmngrInitialize s) = dir ∧
        (vmmngrInitialize s).curPdbr = dir ∧ (vmmngrInitialize s).pdbr = some dir) ∨
      vmmngrGetDirectory (vmmngrInitialize s) = vmmngrGetDirectory s ∧
        (vmmngrInitialize s).curPdbr = s.curPdbr ∧ (vmmngrInitialize s).pdbr = s.pdbr := by
  generalize hr : vmmngrInitialize s = r
  unfold vmmngrInitialize at hr
  dsimp only at hr
  split at hr
  · subst hr
    exact Or.inr ⟨rfl, rfl, rfl⟩
  split at hr
  · subst hr
    exact Or.inr ⟨rfl, rfl, rfl⟩
  split at hr
  · subst hr
    exact Or.inr ⟨rfl, rfl, rfl⟩
  split at hr
  · subst hr
    simp [vmmngrGetDirectory, Vmm.withPmm, initTables]
  case isFalse hdir =>
    subst hr
    exact Or.inl ⟨_, hdir, installDirectory_of_ne_zero _ hdir⟩

/-- After the start the register and the variable agree. -/
theorem agrees_first (p : Pmm) (m : Mem) : (vmmngrInitialize (boot p m)).Agrees := by
  rcases (boot p m).initialize_cases with ⟨dir, -, hcur, -, hpdbr⟩ | ⟨hcur, -, hpdbr⟩
  · exact Or.inl (by rw [hcur, hpdbr])
  · exact Or.inr ⟨hpdbr, hcur⟩

@[simp] theorem vmm_curDirectory_createAddressSpace (s : Vmm) :
    (vmmngrCreateAddressSpace s).2.curDirectory = s.curDirectory := by
  unfold vmmngrCreateAddressSpace
  dsimp only
  split_ifs <;> rfl

@[simp] theorem curPdbr_step_create (s : Paging) :
    (s.step .createAddressSpace).curPdbr = s.curPdbr :=
  rfl

/-- Creating an address space touches none of the three. -/
theorem agrees_step_create (s : Paging) : (s.step .createAddressSpace).Agrees ↔ s.Agrees := by
  simp [Agrees, step, vmmngrGetDirectory]

/-- After a switch the register holds `_cur_pdbr`, wherever the switch went. -/
theorem agrees_step_switch (s : Paging) (dir : {d : Word // d ≠ 0}) :
    (s.step (.switchPdirectory dir)).Agrees ↔ dir = s.curPdbr := by
  have hpdbr : (s.step (.switchPdirectory dir)).pdbr = some s.curPdbr := by
    simp only [step, switchPdirectory_of_ne_zero s dir.2]
  have hcur : vmmngrGetDirectory (s.step (.switchPdirectory dir)) = dir := by
    simp only [step, switchPdirectory_of_ne_zero s dir.2, vmmngrGetDirectory]
  rw [Agrees, hpdbr, hcur]
  constructor
  · rintro (h | ⟨h, -⟩)
    · exact (Option.some.inj h).symm
    · simp at h
  · intro h
    exact Or.inl (congrArg some h.symm)

/-- A call keeps them together when it switches to the first directory. -/
theorem agrees_step_iff (s : Paging) (c : DirectoryCall) (h : s.Agrees) :
    (s.step c).Agrees ↔ s.SwitchesHome c := by
  cases c with
  | createAddressSpace => exact iff_of_true (s.agrees_step_create.2 h) trivial
  | switchPdirectory dir => exact s.agrees_step_switch dir

/-- The directory in use is the one loaded in every state of a run after
`vmmngr_initialize` exactly when every switch of the run goes to the directory that
`vmmngr_initialize` built. -/
theorem agrees_iff_switches_home (p : Pmm) (m : Mem) (cs : List DirectoryCall) :
    (∀ ds, ds <+: cs → (run step (vmmngrInitialize (boot p m)) ds).Agrees) ↔
      Meets step SwitchesHome (vmmngrInitialize (boot p m)) cs :=
  forall_prefix_iff_meets agrees_step_iff (agrees_first p m) cs

/-- The manager `threeUsed` gives the tables frames `3`, `4`, `5` and the directory frame
`6`, and the next address space frame `9`. A switch to it loads `0x6000`. -/
theorem not_agrees_after_switch :
    ¬∀ (p : Pmm) (m : Mem) (cs ds : List DirectoryCall), ds <+: cs →
      (run step (vmmngrInitialize (boot p m)) ds).Agrees := by
  intro h
  have hdir : (vmmngrInitialize (boot threeUsed fun _ => 0)).curPdbr = 0x6000 := by decide
  have hswitch := h threeUsed (fun _ => 0)
    [.createAddressSpace, .switchPdirectory ⟨0x9000, by decide⟩] _ (List.prefix_refl _)
  rw [run_cons, run_cons, run_nil, agrees_step_switch, curPdbr_step_create, hdir] at hswitch
  contradiction

end Paging

end Scorch
