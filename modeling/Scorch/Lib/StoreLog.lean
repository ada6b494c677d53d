import Mathlib.Data.Nat.Notation
import Mathlib.Logic.Function.Basic

/-!
# Memory with a log of its writes

A memory whose places are numbers, with the list of the places that have been written.
`Within p` says that all of them are places with the property `p`. Every write adds one
place to what has to be checked (`within_store`).

A list of elements may be stored one behind the other (`storeList`), and the log then has one place
for each of them, in order.
-/

/-- A memory and the places that have been written, in order. -/
structure StoreLog (α : Type*) where
  mem : ℕ → α
  stores : List ℕ

namespace StoreLog

variable {α : Type*}

/-- Write one place. -/
def store (m : StoreLog α) (k : ℕ) (a : α) : StoreLog α where
  mem := Function.update m.mem k a
  stores := m.stores ++ [k]

/-- Write a list from a place on. -/
def storeList (m : StoreLog α) (k : ℕ) : List α → StoreLog α
  | [] => m
  | a :: l => (m.store k a).storeList (k + 1) l

/-- Only places with the property have been written. -/
def Within (p : ℕ → Prop) (m : StoreLog α) : Prop :=
  ∀ i ∈ m.stores, p i

variable {p : ℕ → Prop} {m : StoreLog α}

@[simp] theorem within_store {k : ℕ} {a : α} : (m.store k a).Within p ↔ m.Within p ∧ p k := by
  simp [Within, store, or_imp, forall_and]

theorem mem_store_apply (m : StoreLog α) (k j : ℕ) (a : α) :
    (m.store k a).mem j = if j = k then a else m.mem j :=
  Function.update_apply m.mem k a j

/-- A list of stores leaves what is before it alone. -/
theorem mem_storeList_of_lt (m : StoreLog α) {j k : ℕ} (l : List α) (h : j < k) :
    (m.storeList k l).mem j = m.mem j := by
  induction l generalizing m k with
  | nil => rfl
  | cons a l ih => rw [storeList, ih _ (by omega), mem_store_apply, if_neg (by omega)]

theorem mem_storeList_add (m : StoreLog α) (k : ℕ) {l : List α} {i : ℕ} (hi : i < l.length) :
    (m.storeList k l).mem (k + i) = l[i] := by
  induction l generalizing m k i with
  | nil => exact absurd hi (Nat.not_lt_zero i)
  | cons a l ih =>
    cases i with
    | zero => exact (mem_storeList_of_lt _ l (Nat.lt_succ_self k)).trans (if_pos rfl)
    | succ i =>
      have hrest := ih (m.store k a) (k + 1) (Nat.lt_of_succ_lt_succ hi)
      rwa [Nat.add_assoc, Nat.add_comm 1 i] at hrest

theorem stores_storeList (m : StoreLog α) (k : ℕ) (l : List α) :
    (m.storeList k l).stores = m.stores ++ List.range' k l.length := by
  induction l generalizing m k with
  | nil => exact (List.append_nil _).symm
  | cons a l ih =>
    rw [storeList, ih, List.length_cons, List.range'_succ, store, List.append_assoc]
    rfl

end StoreLog
