import Scorch.Lib.GuardedRun
import Scorch.Strings

/-!
# The commands of the shell

`findCMD`, `clearCommands` and `addCommand` of `shell.c`. The memory from `CommandTable` on
is bytes, 324 for every entry : 64 for the command, 256 for the description and 4 for the
address. All bytes are zero at the start, and every byte that is written is logged by its
place. `numCommands` counts from `-1` on.
-/

open ByteMemory

namespace Scorch

/-- The variables of `shell.c` that hold the commands. -/
structure Shell where
  numCommands : ℤ
  table : StoreLog Byte

/-- A call that changes the table. -/
inductive Call
  | clearCommands
  | addCommand (command description : CopySource) (address : Word)

namespace Shell

/-! ## The table -/

/-- `CommandTable[i].command` -/
def commandAt (i : ℕ) : ℕ :=
  324 * i

/-- `CommandTable[i].description` -/
def descriptionAt (i : ℕ) : ℕ :=
  324 * i + 64

/-- `CommandTable[i].address` -/
def addressAt (i : ℕ) : ℕ :=
  324 * i + 320

/-- Write a pointer. -/
def storePointer (m : StoreLog Byte) (k : ℕ) (w : Word) : StoreLog Byte :=
  (((m.store k (w.setWidth 8)).store (k + 1) ((w >>> 8).setWidth 8)).store (k + 2)
    ((w >>> 16).setWidth 8)).store (k + 3) ((w >>> 24).setWidth 8)

/-- The first command is not registered yet. -/
def start : Shell where
  numCommands := -1
  table := ⟨fun _ => 0, []⟩

/-! ## Functions -/

/-- The loop of `findCMD`, with `n` entries left from the `i`-th on. `strcmp` ends with
`cmd` at the latest. -/
def findFrom (s : Shell) (cmd : CString) : ℕ → ℕ → ℤ
  | 0, _ => -1
  | n + 1, i =>
    let c := strcmpFrom (fun k => s.table.mem (commandAt i + k)) cmd.bytes cmd.bound 0
    if c = 0 then i else findFrom s cmd n (i + 1)

/-- `findCMD` -/
def findCMD (s : Shell) (cmd : CString) : ℤ :=
  findFrom s cmd (s.numCommands + 1).toNat 0

/-- The loop of `clearCommands`, with `n` entries left from the `i`-th on. -/
def clearFrom : ℕ → ℕ → Shell → Shell
  | 0, _, s => s
  | n + 1, i, s =>
    clearFrom n (i + 1) { numCommands := -1, table := storePointer s.table (addressAt i) 0 }

/-- `clearCommands` -/
def clearCommands (s : Shell) : Shell :=
  clearFrom 16 0 s

/-- `addCommand`, with the value it returns. -/
def addCommand (s : Shell) (command description : CopySource) (address : Word) : Shell × ℤ :=
  if s.numCommands < 16 then
    let n := s.numCommands + 1
    let table := strcpy s.table (commandAt n.toNat) command
    let table := strcpy table (descriptionAt n.toNat) description
    let table := storePointer table (addressAt n.toNat) address
    (⟨n, table⟩, n)
  else (s, -1)

/-- The state after a call. -/
def perform (s : Shell) : Call → Shell
  | .clearCommands => s.clearCommands
  | .addCommand command description address => (s.addCommand command description address).1

/-! ## What they do to the counter and the table -/

section Calls

variable {s : Shell} {p : ℕ → Prop}

theorem mem_storePointer (m : StoreLog Byte) {k j : ℕ} (w : Word) (h : j < k ∨ k + 4 ≤ j) :
    (storePointer m k w).mem j = m.mem j := by
  unfold storePointer
  rw [StoreLog.mem_store_apply, StoreLog.mem_store_apply, StoreLog.mem_store_apply,
    StoreLog.mem_store_apply, if_neg (by omega), if_neg (by omega), if_neg (by omega),
    if_neg (by omega)]

theorem within_storePointer {m : StoreLog Byte} {k : ℕ} {w : Word} :
    (storePointer m k w).Within p ↔ m.Within p ∧ ∀ i < 4, p (k + i) := by
  unfold storePointer
  simp only [StoreLog.within_store, Nat.forall_lt_succ_right, Nat.not_lt_zero, false_implies,
    implies_true, true_and, Nat.add_zero, and_assoc]

/-- After `clearCommands` the table is empty. -/
theorem numCommands_clearFrom (n i : ℕ) (s : Shell) :
    (clearFrom (n + 1) i s).numCommands = -1 := by
  induction n generalizing i s with
  | zero => rfl
  | succ n ih => exact ih (i + 1) _

@[simp] theorem numCommands_clearCommands (s : Shell) : s.clearCommands.numCommands = -1 :=
  numCommands_clearFrom 15 0 s

/-- A table with room counts the new command. -/
theorem numCommands_addCommand (h : s.numCommands < 16) (command description : CopySource)
    (address : Word) :
    (s.addCommand command description address).1.numCommands = s.numCommands + 1 := by
  rw [addCommand, if_pos h]

end Calls

end Shell

end Scorch
