import Scorch.Shell

/-!
# The bound of the command table

`addCommand` tests `numCommands < 16` before it counts up from the last index, so the
seventeenth command still gets in, at index 16, behind the table.

`safe_iff` says how far the table is safe : in a run of calls the counter stays below 16,
all writes go to the 16 entries and a full table refuses a command, exactly when no
command is added to a full table, and no copied string runs over its end.

One call keeps the bounds exactly when it fits (`bounded_perform_iff`), and the run is an
induction over that.
-/

open ByteMemory GuardedRun

namespace Scorch

namespace Shell

/-- The counter is that of a table of 16 entries, and only they have been written. -/
structure Bounded (s : Shell) : Prop where
  lower : -1 ≤ s.numCommands
  upper : s.numCommands ≤ 15
  within : s.table.Within (· < commandAt 16)

/-- A full table refuses a command and stays as it is. -/
def Refuses (s : Shell) : Call → Prop
  | .clearCommands => True
  | .addCommand command description address =>
    s.numCommands = 15 → s.addCommand command description address = (s, -1)

/-- After every call of a run the counter and the writes are in bounds, and a full table
refuses every command. -/
def Safe (calls : List Call) : Prop :=
  (∀ js, js <+: calls → Bounded (run perform start js)) ∧
    ∀ js call, js ++ [call] <+: calls → Refuses (run perform start js) call

/-- There is an entry left, and the strings end inside the table. -/
def Fits (s : Shell) : Call → Prop
  | .clearCommands => True
  | .addCommand command description _ =>
    s.numCommands < 15 ∧
      commandAt (s.numCommands + 1).toNat + command.copied ≤ commandAt 16 ∧
      descriptionAt (s.numCommands + 1).toNat + description.copied ≤ commandAt 16

section Steps

variable {s : Shell}

/-- `clearCommands` stores within the table. -/
theorem within_clearFrom {n i : ℕ} (hn : i + n ≤ 16) (h : s.table.Within (· < commandAt 16)) :
    (clearFrom n i s).table.Within (· < commandAt 16) := by
  induction n generalizing i s with
  | zero => exact h
  | succ n ih =>
    refine ih (by omega) (within_storePointer.2 ⟨h, fun k hk => ?_⟩)
    unfold addressAt commandAt
    omega

theorem Bounded.clearCommands (h : s.Bounded) : s.clearCommands.Bounded where
  lower := by rw [numCommands_clearCommands]
  upper := by
    rw [numCommands_clearCommands]
    decide
  within := within_clearFrom le_rfl h.within

/-- `addCommand` stores within the table when its two copies and the pointer do. -/
theorem within_addCommand_iff (hlo : -1 ≤ s.numCommands) (hhi : s.numCommands < 15)
    (h : s.table.Within (· < commandAt 16)) (command description : CopySource) (address : Word) :
    (s.addCommand command description address).1.table.Within (· < commandAt 16) ↔
      commandAt (s.numCommands + 1).toNat + command.copied ≤ commandAt 16 ∧
        descriptionAt (s.numCommands + 1).toNat + description.copied ≤ commandAt 16 := by
  have hpointer : ∀ i < 4, addressAt (s.numCommands + 1).toNat + i < commandAt 16 := by
    unfold addressAt commandAt
    omega
  rw [addCommand, if_pos (hhi.trans (by decide)), within_storePointer, within_strcpy_lt_iff,
    within_strcpy_lt_iff, and_iff_left hpointer, and_assoc, and_iff_right h]

/-- A call keeps the bounds exactly when it fits. -/
theorem bounded_perform_iff (h : s.Bounded) (call : Call) :
    (s.perform call).Bounded ↔ s.Fits call := by
  cases call with
  | clearCommands => exact iff_of_true h.clearCommands trivial
  | addCommand command description address =>
    have hroom : s.numCommands < 16 := h.upper.trans_lt (by decide)
    have hcount := numCommands_addCommand hroom command description address
    constructor
    · intro hnext
      have hlast : s.numCommands < 15 := by
        have := hnext.upper
        rw [perform, hcount] at this
        omega
      exact ⟨hlast, (within_addCommand_iff h.lower hlast h.within _ _ _).1 hnext.within⟩
    · rintro ⟨hlast, hfit⟩
      refine ⟨?_, ?_, (within_addCommand_iff h.lower hlast h.within _ _ _).2 hfit⟩
      · have := h.lower
        rw [perform, hcount]
        omega
      · rw [perform, hcount]
        omega

end Steps

/-- The table is safe as long as every command that is added fits. -/
theorem safe_iff (calls : List Call) : Safe calls ↔ Meets perform Fits start calls := by
  have hstart : start.Bounded := ⟨by decide, by decide, fun i hi => absurd hi List.not_mem_nil⟩
  have hbounds : (∀ js, js <+: calls → Bounded (run perform start js)) ↔
      Meets perform Fits start calls :=
    forall_prefix_iff_meets (I := Bounded) (fun _ call h => bounded_perform_iff h call) hstart calls
  refine ⟨fun h => hbounds.1 h.1, fun h => ⟨hbounds.2 h, ?_⟩⟩
  rintro js call ⟨rest, rfl⟩
  have hlast : Fits (run perform start js) call := h.of_append.last
  cases call with
  | clearCommands => exact trivial
  | addCommand command description address =>
    exact fun hfull => absurd hlast.1 (by omega)

/-- Strings that fit their fields need nothing but an entry. -/
theorem fits_addCommand_iff (s : Shell) {command description : CopySource}
    (hcommand : command.copied ≤ 64) (hdescription : description.copied ≤ 256) (address : Word) :
    s.Fits (.addCommand command description address) ↔ s.numCommands < 15 := by
  refine ⟨fun h => h.1, fun h => ⟨h, ?_, ?_⟩⟩
  · unfold commandAt
    omega
  · unfold descriptionAt commandAt
    omega

/-- The counter goes up with every command, to `16`. -/
theorem numCommands_replicate (command description : CopySource) (address : Word) {n : ℕ}
    (hn : n ≤ 17) :
    (run perform start (List.replicate n (.addCommand command description address))).numCommands =
      n - 1 := by
  induction n with
  | zero => rfl
  | succ n ih =>
    rw [List.replicate_succ', run_append, run_cons, run_nil, perform, numCommands_addCommand,
      ih (by omega)]
    · omega
    · rw [ih (by omega)]
      omega

/-- The seventeenth command gets the index 16. -/
theorem not_safe_replicate :
    ¬Safe (List.replicate 17 (.addCommand (.ofCons 0x61 []) (.ofCons 0x62 []) 0x1000)) := by
  intro h
  have hupper := (h.1 _ List.prefix_rfl).upper
  rw [numCommands_replicate _ _ _ le_rfl] at hupper
  omega

end Shell

end Scorch
