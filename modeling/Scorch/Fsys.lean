import Mathlib.Data.BitVec
import Mathlib.Logic.Function.Basic
import Scorch.Lib.ByteMemory
import Scorch.Lib.GuardedRun

/-!
# The device table

The registration calls of `fsys.c`. `_FileSystems` has an entry for each of the 26 devices,
and `volRegisterFileSystem` counts the registrations it has made in a `static int` that
nothing takes down again.

What the table is for is a finite map : a registration puts a filesystem at its device, the
two kinds of unregistration empty entries (`DeviceMap.record`). The table and the map take
the same calls side by side. One registration keeps them equal just when the counter is
below 26 or the entry holds that filesystem already (`agrees_perform_iff`), so a run of any
length keeps them equal just when each of its registrations meets that condition
(`fileSystems_eq_record_iff`).
-/

open ByteMemory GuardedRun

namespace Scorch

/-- `DEVICE_MAX`. -/
def deviceMax : ℕ := 26

/-- The variables of `fsys.c`. -/
structure Fsys where
  /-- `_FileSystems`, by entry; the pointers are addresses. -/
  fileSystems : ℕ → Word
  /-- The `static int i` of `volRegisterFileSystem`. -/
  i : ℕ

/-- Static variables are zero at the start. -/
def fsysInit : Fsys where
  fileSystems _ := 0
  i := 0

/-- `volRegisterFileSystem`, with the count of its static variable. -/
def volRegisterFileSystem (s : Fsys) (fsys deviceID : Word) : Fsys :=
  if s.i < deviceMax then
    if fsys ≠ 0 then
      { fileSystems := Function.update s.fileSystems deviceID.toNat fsys, i := s.i + 1 }
    else s
  else s

/-- The loop of `volUnregisterFileSystem` from entry `i` on, with `n` rounds left. -/
def unregisterFrom (fsys : Word) : ℕ → ℕ → (ℕ → Word) → ℕ → Word
  | 0, _, table => table
  | n + 1, i, table =>
    unregisterFrom fsys n (i + 1)
      (if table i = fsys then Function.update table i 0 else table)

/-- `volUnregisterFileSystem`. -/
def volUnregisterFileSystem (s : Fsys) (fsys : Word) : Fsys :=
  { s with fileSystems := unregisterFrom fsys deviceMax 0 s.fileSystems }

/-- `volUnregisterFileSystemByID`. -/
def volUnregisterFileSystemByID (s : Fsys) (deviceID : Word) : Fsys :=
  if deviceID.toNat < deviceMax then
    { s with fileSystems := Function.update s.fileSystems deviceID.toNat 0 }
  else s

/-! ## Calls -/

/-- A call that changes the table. -/
inductive VolCall where
  | register (fsys deviceID : Word)
  | unregister (fsys : Word)
  | unregisterByID (deviceID : Word)

/-- The state after a call. -/
def Fsys.perform (s : Fsys) : VolCall → Fsys
  | .register fsys deviceID => volRegisterFileSystem s fsys deviceID
  | .unregister fsys => volUnregisterFileSystem s fsys
  | .unregisterByID deviceID => volUnregisterFileSystemByID s deviceID

/-- A registration gives a filesystem and one of the devices. -/
def VolCall.Valid : VolCall → Prop
  | .register fsys deviceID => fsys ≠ 0 ∧ deviceID.toNat < deviceMax
  | _ => True

/-- What the table is for : the filesystem last registered at each device and not
unregistered since, `0` where there is none. -/
abbrev DeviceMap := ℕ → Word

/-- The entries a call gives a new value, and the value. -/
def DeviceMap.record (m : DeviceMap) : VolCall → DeviceMap
  | .register fsys deviceID => fun d => if d = deviceID.toNat then fsys else m d
  | .unregister fsys => fun d => if m d = fsys then 0 else m d
  | .unregisterByID deviceID => fun d => if d = deviceID.toNat then 0 else m d

/-- The table holds the map. -/
def Fsys.Agrees (s : Fsys) (m : DeviceMap) : Prop :=
  ∀ d < deviceMax, s.fileSystems d = m d

/-- A registration is in time when the counter has not run out, or changes nothing. -/
def Fsys.InTime (s : Fsys) : VolCall → Prop
  | .register fsys deviceID => s.i < deviceMax ∨ s.fileSystems deviceID.toNat = fsys
  | _ => True

/-! ## One call -/

/-- The loop clears the entries that hold the file system. -/
theorem unregisterFrom_apply (fsys : Word) :
    ∀ (n i : ℕ) (table : ℕ → Word) (d : ℕ), unregisterFrom fsys n i table d =
      if (i ≤ d ∧ d < i + n) ∧ table d = fsys then 0 else table d
  | 0, i, table, d => by
    have hd : ¬(i ≤ d ∧ d < i + 0) := by omega
    rw [unregisterFrom, if_neg fun h => hd h.1]
  | n + 1, i, table, d => by
    rw [unregisterFrom, unregisterFrom_apply fsys n (i + 1)]
    by_cases hd : d = i
    · have hpast : ¬(i + 1 ≤ d ∧ d < i + 1 + n) := by omega
      have hhere : i ≤ d ∧ d < i + (n + 1) := by omega
      rw [if_neg fun h => hpast h.1, hd]
      by_cases h : table i = fsys
      · rw [if_pos h, if_pos ⟨hd ▸ hhere, h⟩, Function.update_self]
      · rw [if_neg h, if_neg fun h' => h h'.2]
    · have hsame : (if table i = fsys then Function.update table i 0 else table) d = table d := by
        split_ifs
        · exact Function.update_of_ne hd _ _
        · rfl
      have hrange : i + 1 ≤ d ∧ d < i + 1 + n ↔ i ≤ d ∧ d < i + (n + 1) := by omega
      rw [hsame]
      simp only [hrange]

theorem fileSystems_volUnregisterFileSystem (s : Fsys) (fsys : Word) {d : ℕ}
    (hd : d < deviceMax) : (volUnregisterFileSystem s fsys).fileSystems d =
      if s.fileSystems d = fsys then 0 else s.fileSystems d := by
  have hrange : 0 ≤ d ∧ d < 0 + deviceMax := by omega
  simp only [volUnregisterFileSystem, unregisterFrom_apply]
  exact if_congr (and_iff_right hrange) rfl rfl

section Call

variable {s : Fsys} {m : DeviceMap}

/-- The table and the record agree after it. -/
theorem agrees_volUnregisterFileSystem (h : s.Agrees m) (fsys : Word) :
    (volUnregisterFileSystem s fsys).Agrees (m.record (.unregister fsys)) := by
  intro d hd
  rw [fileSystems_volUnregisterFileSystem s fsys hd, h d hd]
  rfl

theorem agrees_volUnregisterFileSystemByID (h : s.Agrees m) (deviceID : Word) :
    (volUnregisterFileSystemByID s deviceID).Agrees (m.record (.unregisterByID deviceID)) := by
  intro d hd
  have hrec : m.record (.unregisterByID deviceID) d =
      if d = deviceID.toNat then 0 else m d := rfl
  rw [hrec, volUnregisterFileSystemByID]
  split_ifs with h1 h2 h2
  · simp [h2]
  · simp [h2, h d hd]
  · omega
  · exact h d hd

/-- A registration within the counter is recorded, one past it is dropped. -/
theorem agrees_volRegisterFileSystem_iff (h : s.Agrees m) {fsys deviceID : Word}
    (hfsys : fsys ≠ 0) (hdev : deviceID.toNat < deviceMax) :
    (volRegisterFileSystem s fsys deviceID).Agrees (m.record (.register fsys deviceID)) ↔
      s.i < deviceMax ∨ s.fileSystems deviceID.toNat = fsys := by
  have hrec : ∀ d, m.record (.register fsys deviceID) d =
      if d = deviceID.toNat then fsys else m d := fun _ => rfl
  rw [volRegisterFileSystem]
  by_cases hi : s.i < deviceMax
  · rw [if_pos hi, if_pos hfsys]
    refine iff_of_true (fun d hd => ?_) (Or.inl hi)
    rw [hrec]
    split_ifs with hd'
    · simp [hd']
    · simp [hd', h d hd]
  · rw [if_neg hi, or_iff_right hi]
    constructor
    · intro hagrees
      rw [hagrees _ hdev, hrec, if_pos rfl]
    · intro hsame d hd
      rw [hrec]
      split_ifs with hd'
      · rw [hd', hsame]
      · exact h d hd

/-- One call keeps the table equal to the map just when it is in time. -/
theorem agrees_perform_iff (h : s.Agrees m) {call : VolCall} (hvalid : call.Valid) :
    (s.perform call).Agrees (m.record call) ↔ s.InTime call := by
  cases call with
  | register fsys deviceID => exact agrees_volRegisterFileSystem_iff h hvalid.1 hvalid.2
  | unregister fsys => exact iff_of_true (agrees_volUnregisterFileSystem h fsys) trivial
  | unregisterByID deviceID =>
    exact iff_of_true (agrees_volUnregisterFileSystemByID h deviceID) trivial

end Call

/-! ## Runs of calls -/

/-- The table is the map after every call of a run just when every registration of the run
is in time. -/
theorem fileSystems_eq_record_iff (calls : List VolCall) (hvalid : ∀ call ∈ calls, call.Valid) :
    (∀ cs, cs <+: calls → ∀ d < deviceMax,
      (run Fsys.perform fsysInit cs).fileSystems d =
        run DeviceMap.record (fun _ => 0) cs d) ↔
      Meets Fsys.perform Fsys.InTime fsysInit calls := by
  have hmeets : Meets (beside Fsys.perform DeviceMap.record) (fun _ call => call.Valid)
      (fsysInit, fun _ => 0) calls := meets_of_forall calls hvalid _
  have hbeside : Meets (beside Fsys.perform DeviceMap.record) (fun p call => p.1.InTime call)
      (fsysInit, fun _ => 0) calls ↔ Meets Fsys.perform Fsys.InTime fsysInit calls :=
    meets_beside _ _ calls
  have hstart : fsysInit.Agrees fun _ => 0 := fun _ _ => rfl
  rw [← hbeside, ← hmeets.forall_prefix_iff (I := fun _ => True) (P := fun p => p.1.Agrees p.2)
    (fun _ _ _ _ => trivial) (fun p call _ hP hok => agrees_perform_iff hP hok) trivial hstart]
  simp only [run_beside, Fsys.Agrees]

/-- A filesystem is registered and unregistered. -/
theorem fileSystems_eq_record_once :
    let calls := [VolCall.register 1 0, .unregister 1]
    (∀ call ∈ calls, call.Valid) ∧
      ((∀ cs, cs <+: calls → ∀ d < deviceMax,
        (run Fsys.perform fsysInit cs).fileSystems d =
          run DeviceMap.record (fun _ => 0) cs d) ↔
        Meets Fsys.perform Fsys.InTime fsysInit calls) := by
  have hvalid : ∀ call ∈ [VolCall.register 1 0, .unregister 1], call.Valid := by
    simp [VolCall.Valid, deviceMax]
  exact ⟨hvalid, fileSystems_eq_record_iff _ hvalid⟩

/-- Twenty-six registrations at a device, an unregistration, and one more registration. -/
def manyRegistrations : List VolCall :=
  List.replicate 26 (.register 1 0) ++ [.unregisterByID 0, .register 1 0]

/-- The last registration leaves the table empty. -/
theorem fileSystems_manyRegistrations :
    (∀ call ∈ manyRegistrations, call.Valid) ∧
      (run Fsys.perform fsysInit manyRegistrations).fileSystems 0 = 0 ∧
      run DeviceMap.record (fun _ => 0) manyRegistrations 0 = 1 := by
  refine ⟨?_, rfl, rfl⟩
  simp [manyRegistrations, VolCall.Valid, deviceMax]

end Scorch
