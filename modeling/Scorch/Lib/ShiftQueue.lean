import Mathlib.Data.List.Basic
import Scorch.Lib.ForwardCopy

/-!
# A queue in an array that shifts

The queue is in the slots `1`, …, `n` of an array, its head in slot 1. A new entry goes to the
slot behind the last. The head is taken by moving every entry one slot down, which leaves it
in slot 0.
-/

namespace ShiftQueue

variable {α : Type*}

/-- The entries in the slots `1`, …, `n`. -/
def slots (a : ℕ → α) (n : ℕ) : List α :=
  (List.range n).map fun i => a (i + 1)

/-- The slots `0`, …, `n - 1` take, one after the other, the entry of the slot behind. -/
def shift (a : ℕ → α) (n : ℕ) : ℕ → α :=
  ForwardCopy.copy 0 1 a n

@[simp] theorem length_slots (a : ℕ → α) (n : ℕ) : (slots a n).length = n := by
  simp [slots]

@[simp] theorem slots_zero (a : ℕ → α) : slots a 0 = [] :=
  rfl

/-- A shift moves every slot of the queue down by one. -/
theorem shift_apply (a : ℕ → α) (n i : ℕ) :
    shift a n i = if i < n then a (i + 1) else a i := by
  rw [shift, ForwardCopy.copy_apply (Nat.zero_le 1)]
  simp

/-- A new entry is behind the others. -/
theorem slots_update (a : ℕ → α) (n : ℕ) (x : α) :
    slots (Function.update a (n + 1) x) (n + 1) = slots a n ++ [x] := by
  unfold slots
  rw [List.range_succ, List.map_append, List.map_singleton, Function.update_self]
  congr 1
  refine List.map_congr_left fun i hi => Function.update_of_ne ?_ x a
  have hlt := List.mem_range.1 hi
  omega

/-- Shifting takes the head. -/
theorem slots_succ_eq_cons (a : ℕ → α) (n : ℕ) :
    slots a (n + 1) = shift a (n + 1) 0 :: slots (shift a (n + 1)) n := by
  unfold slots
  rw [List.range_succ_eq_map, List.map_cons, List.map_map, shift_apply, if_pos (Nat.succ_pos n)]
  congr 1
  refine List.map_congr_left fun i hi => ?_
  have hlt := List.mem_range.1 hi
  rw [shift_apply, if_pos (by omega)]
  rfl

end ShiftQueue
