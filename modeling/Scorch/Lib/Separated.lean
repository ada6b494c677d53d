import Mathlib.Data.List.Basic

/-!
# Parts of a terminated array

An array holds a list of parts when they stand one after another, each with a separator
behind it, and the last with a terminator. The parts of an array are those at which its
content is split (`parts_splitOn`).
-/

namespace Separated

variable {α : Type*} {s : ℕ → α} {sep stop : α}

/-- The part stands from `p` on and has neither a separator nor a terminator in it. -/
structure PartAt (s : ℕ → α) (sep stop : α) (p : ℕ) (part : List α) : Prop where
  holds : ∀ (i : ℕ) (hi : i < part.length), s (p + i) = part[i]
  inner : ∀ i < part.length, s (p + i) ≠ sep ∧ s (p + i) ≠ stop

/-- The parts from `p` on, with the terminator at `e`. -/
inductive Parts (s : ℕ → α) (sep stop : α) : ℕ → ℕ → List (List α) → Prop where
  | last {p : ℕ} {part : List α} (hpart : PartAt s sep stop p part)
      (hend : s (p + part.length) = stop) : Parts s sep stop p (p + part.length) [part]
  | next {p e : ℕ} {part : List α} {parts : List (List α)} (hpart : PartAt s sep stop p part)
      (hsep : s (p + part.length) = sep)
      (hrest : Parts s sep stop (p + part.length + 1) e parts) :
      Parts s sep stop p e (part :: parts)

theorem PartAt.nil (s : ℕ → α) (sep stop : α) (p : ℕ) : PartAt s sep stop p [] :=
  ⟨fun i hi => absurd hi (Nat.not_lt_zero i), fun i hi => absurd hi (Nat.not_lt_zero i)⟩

/-- A part with one more element at its front. -/
theorem PartAt.cons {p : ℕ} {a : α} {part : List α} (h : PartAt s sep stop (p + 1) part)
    (ha : s p = a) (hsep : a ≠ sep) (hstop : a ≠ stop) : PartAt s sep stop p (a :: part) := by
  have hplace : ∀ i, p + (i + 1) = p + 1 + i := fun i => by omega
  constructor
  · intro i hi
    cases i with
    | zero => exact ha
    | succ i =>
      rw [List.getElem_cons_succ, hplace]
      exact h.holds i (Nat.lt_of_succ_lt_succ hi)
  · intro i hi
    cases i with
    | zero => exact ⟨fun h => hsep (ha.symm.trans h), fun h => hstop (ha.symm.trans h)⟩
    | succ i =>
      rw [hplace]
      exact h.inner i (Nat.lt_of_succ_lt_succ hi)

/-- A character in front goes to the first part. -/
theorem Parts.cons {p e : ℕ} {a : α} {parts : List (List α)} (h : Parts s sep stop (p + 1) e parts)
    (ha : s p = a) (hsep : a ≠ sep) (hstop : a ≠ stop) :
    Parts s sep stop p e (parts.modifyHead (List.cons a)) := by
  cases h with
  | last hpart hend =>
    have hplace : ∀ n, p + 1 + n = p + (n + 1) := fun n => by omega
    rw [hplace] at hend ⊢
    exact .last (hpart.cons ha hsep hstop) hend
  | next hpart hsep' hrest =>
    have hplace : ∀ n, p + 1 + n = p + (n + 1) := fun n => by omega
    rw [hplace] at hsep' hrest
    exact .next (hpart.cons ha hsep hstop) hsep' hrest

/-- An array that holds `l` and then a terminator holds the parts at which `l` is split. -/
theorem parts_splitOn [BEq α] [LawfulBEq α] (l : List α) (p : ℕ)
    (hl : ∀ (i : ℕ) (hi : i < l.length), s (p + i) = l[i]) (hstop : stop ∉ l)
    (hend : s (p + l.length) = stop) : Parts s sep stop p (p + l.length) (l.splitOn sep) := by
  induction l generalizing p with
  | nil => exact .last (.nil s sep stop p) hend
  | cons a l ih =>
    have hplace : ∀ n, p + (n + 1) = p + 1 + n := fun n => by omega
    have ha : s p = a := hl 0 (Nat.zero_lt_succ _)
    rw [List.length_cons, hplace] at hend ⊢
    have hrest : Parts s sep stop (p + 1) (p + 1 + l.length) (l.splitOn sep) :=
      ih (p + 1) (fun i hi => by
        rw [← hplace]
        exact hl (i + 1) (Nat.succ_lt_succ hi))
        (fun hmem => hstop (List.mem_cons_of_mem a hmem)) hend
    rw [List.splitOn_cons_eq_if_modifyHead]
    split_ifs with hsep
    · exact .next (.nil s sep stop p) (ha.trans (eq_of_beq hsep)) hrest
    · exact hrest.cons ha (fun h => hsep (beq_iff_eq.2 h)) fun h => hstop (h ▸ List.mem_cons_self)

theorem Parts.le {p e : ℕ} {parts : List (List α)} (h : Parts s sep stop p e parts) : p ≤ e := by
  induction h with
  | last _ _ => exact Nat.le_add_right _ _
  | next _ _ _ ih => omega

/-- Behind the separator the other parts follow. -/
theorem Parts.rest {p e : ℕ} {part : List α} {parts : List (List α)}
    (h : Parts s sep stop p e (part :: parts)) (hne : parts ≠ []) :
    Parts s sep stop (p + part.length + 1) e parts := by
  cases h with
  | last _ _ => exact absurd rfl hne
  | next _ _ hrest => exact hrest

/-- There is always a part. -/
theorem not_parts_nil {p e : ℕ} : ¬Parts s sep stop p e [] :=
  nofun

end Separated
