import Mathlib.Data.Int.Notation
import Mathlib.Data.List.Basic

/-!
# The first index of an entry

`firstIndex l a` is the least index at which the list `l` holds `a`, and `-1` when it holds
none. Two lists of one length that give the same answers still do, behind one more entry
each, exactly when the entries are equal or had both been in the lists
(`firstIndex_concat_eq_iff`).

This is what a search by name over a table that grows at its end returns.
-/

variable {α : Type*} [DecidableEq α]

/-- The least index of `a`, or `-1`. -/
def firstIndex (l : List α) (a : α) : ℤ :=
  if a ∈ l then (l.idxOf a : ℤ) else -1

theorem firstIndex_eq_neg_one_iff {l : List α} {a : α} : firstIndex l a = -1 ↔ a ∉ l := by
  unfold firstIndex
  split_ifs with h
  · exact iff_of_false not_false (not_not.2 h)
  · exact iff_of_true rfl h

/-- The index of what is there is one of its places. -/
theorem exists_firstIndex_of_mem {l : List α} {a : α} (h : a ∈ l) :
    ∃ (i : ℕ) (hi : i < l.length), firstIndex l a = i ∧ l[i] = a :=
  ⟨l.idxOf a, List.idxOf_lt_length_of_mem h, if_pos h, List.getElem_idxOf _⟩

theorem neg_one_le_firstIndex (l : List α) (a : α) : -1 ≤ firstIndex l a := by
  unfold firstIndex
  split_ifs <;> omega

/-- The first element, and otherwise those behind it. -/
theorem firstIndex_cons (b : α) (l : List α) (a : α) :
    firstIndex (b :: l) a =
      if b = a then 0 else if firstIndex l a = -1 then -1 else firstIndex l a + 1 := by
  by_cases hb : b = a
  · simp [firstIndex, hb]
  · rw [if_neg hb]
    by_cases ha : a ∈ l
    · rw [if_neg (mt firstIndex_eq_neg_one_iff.1 (not_not.2 ha))]
      simp [firstIndex, ha, List.idxOf_cons_ne l hb]
    · rw [if_pos (firstIndex_eq_neg_one_iff.2 ha)]
      exact firstIndex_eq_neg_one_iff.2 (by simp [ha, Ne.symm hb])

/-- An element at the end does not hide one before it. -/
theorem firstIndex_concat_of_mem {l : List α} {a : α} (h : a ∈ l) (b : α) :
    firstIndex (l ++ [b]) a = firstIndex l a := by
  rw [firstIndex, firstIndex, if_pos (List.mem_append_left _ h), if_pos h,
    List.idxOf_append_of_mem h]

theorem firstIndex_concat_of_notMem {l : List α} {a : α} (h : a ∉ l) (b : α) :
    firstIndex (l ++ [b]) a = if a = b then (l.length : ℤ) else -1 := by
  split_ifs with hb
  · subst hb
    simp [firstIndex, List.idxOf_append_of_notMem h]
  · exact firstIndex_eq_neg_one_iff.2 (by simp [h, hb])

/-- What one more entry does to two lists that gave the same answers. -/
theorem firstIndex_concat_eq_iff {l m : List α} {p : α → Prop} (hlen : l.length = m.length)
    (h : ∀ a, p a → firstIndex l a = firstIndex m a) {r n : α} (hr : p r) (hn : p n) :
    (∀ a, p a → firstIndex (l ++ [r]) a = firstIndex (m ++ [n]) a) ↔ r = n ∨ r ∈ m ∧ n ∈ m := by
  have hmem : ∀ a, p a → (a ∈ l ↔ a ∈ m) := fun a ha =>
    not_iff_not.1 (by rw [← firstIndex_eq_neg_one_iff, h a ha, firstIndex_eq_neg_one_iff])
  -- an entry that is in neither list is found behind both or behind none
  have hnew : ∀ a, p a → a ∉ m →
      (firstIndex (l ++ [r]) a = firstIndex (m ++ [n]) a ↔ (a = r ↔ a = n)) := by
    intro a ha hm
    rw [firstIndex_concat_of_notMem (mt (hmem a ha).1 hm), firstIndex_concat_of_notMem hm, hlen]
    split_ifs with har han han
    · exact iff_of_true rfl (iff_of_true har han)
    · exact iff_of_false not_false fun h => han (h.1 har)
    · exact iff_of_false not_false fun h => har (h.2 han)
    · exact iff_of_true rfl (iff_of_false har han)
  constructor
  · intro hall
    by_cases hrn : r = n
    · exact Or.inl hrn
    · refine Or.inr ⟨by_contra fun hrm => ?_, by_contra fun hnm => ?_⟩
      · exact hrn (((hnew r hr hrm).1 (hall r hr)).1 rfl)
      · exact hrn (((hnew n hn hnm).1 (hall n hn)).2 rfl).symm
  · intro hok a ha
    by_cases hm : a ∈ m
    · rw [firstIndex_concat_of_mem ((hmem a ha).2 hm), firstIndex_concat_of_mem hm, h a ha]
    · refine (hnew a ha hm).2 ?_
      rcases hok with rfl | ⟨hrm, hnm⟩
      · exact Iff.rfl
      · exact iff_of_false (fun har => hm (har ▸ hrm)) fun han => hm (han ▸ hnm)
