import Mathlib.Data.Int.Notation
import Mathlib.Data.List.Basic
import Mathlib.Tactic.SplitIfs

/-!
# The sign of a comparison of lists

`lexSign l m` is `-1`, `0` or `1` as `l` is below, equal to or above `m` in the lexicographic
order, where a proper prefix is below a list (`lexSign_eq_neg_one_iff` and so on).

A comparison of terminated sequences looks at one element of both in a round. When the
terminator `e` is below every other element, a round is one step of `lexSign`, with `e` for the
head of an empty list (`lexSign_eq_headD`).
-/

variable {α : Type*} [LT α] [DecidableEq α] [DecidableLT α]

/-- The sign of the comparison of two lists. -/
def lexSign : List α → List α → ℤ
  | [], [] => 0
  | [], _ :: _ => -1
  | _ :: _, [] => 1
  | a :: l, b :: m => if a = b then lexSign l m else if a < b then -1 else 1

/-- Equal heads leave the decision to the tails. -/
theorem lexSign_cons_self (a : α) (l m : List α) : lexSign (a :: l) (a :: m) = lexSign l m :=
  if_pos rfl

theorem lexSign_cons_of_ne {a b : α} (h : a ≠ b) (l m : List α) :
    lexSign (a :: l) (b :: m) = if a < b then -1 else 1 :=
  if_neg h

/-- Only equal lists compare as equal. -/
theorem lexSign_eq_zero_iff {l m : List α} : lexSign l m = 0 ↔ l = m := by
  induction l generalizing m with
  | nil => cases m <;> simp [lexSign]
  | cons a l ih =>
    rcases m with _ | ⟨b, m⟩
    · simp [lexSign]
    · by_cases hab : a = b
      · rw [hab, lexSign_cons_self, ih, List.cons_inj_right]
      · rw [lexSign_cons_of_ne hab]
        refine iff_of_false ?_ fun h => hab (List.cons.inj h).1
        split_ifs <;> decide

section Order

variable [Std.Asymm (· < · : α → α → Prop)]

/-- The negative sign is the lexicographic order. -/
theorem lexSign_eq_neg_one_iff {l m : List α} : lexSign l m = -1 ↔ l < m := by
  induction l generalizing m with
  | nil => cases m <;> simp [lexSign]
  | cons a l ih =>
    rcases m with _ | ⟨b, m⟩
    · simp [lexSign]
    · by_cases hab : a = b
      · rw [hab, lexSign_cons_self, ih, List.cons_lt_cons_self]
      · rw [lexSign_cons_of_ne hab, List.cons_lt_cons_iff, or_iff_left fun h => hab h.1]
        split_ifs with hlt
        · exact iff_of_true rfl hlt
        · exact iff_of_false (by decide) hlt

variable [Std.Trichotomous (· < · : α → α → Prop)]

/-- The sign turns round with the lists. -/
theorem lexSign_swap (l m : List α) : lexSign m l = -lexSign l m := by
  induction l generalizing m with
  | nil => cases m <;> rfl
  | cons a l ih =>
    rcases m with _ | ⟨b, m⟩
    · rfl
    · by_cases hab : a = b
      · rw [hab, lexSign_cons_self, lexSign_cons_self, ih]
      · rw [lexSign_cons_of_ne hab, lexSign_cons_of_ne (Ne.symm hab)]
        split_ifs with hba hlt
        · exact absurd hlt (Std.Asymm.asymm _ _ hba)
        · rfl
        · rfl
        · exact absurd (Std.Trichotomous.trichotomous a b ‹_› hba) hab

/-- The positive sign is the order the other way round. -/
theorem lexSign_eq_one_iff {l m : List α} : lexSign l m = 1 ↔ m < l := by
  rw [← lexSign_eq_neg_one_iff, lexSign_swap l m]
  omega

end Order

/-- One round of a comparison of terminated sequences. -/
theorem lexSign_eq_headD {e : α} {l m : List α} (hl : ∀ a ∈ l, e < a ∧ ¬a < e)
    (hm : ∀ a ∈ m, e < a ∧ ¬a < e) :
    lexSign l m =
      if l.headD e = m.headD e then if l.headD e = e then 0 else lexSign l.tail m.tail
      else if l.headD e < m.headD e then -1 else 1 := by
  have hne : ∀ {a : α}, e < a ∧ ¬a < e → a ≠ e := fun h heq => h.2 (heq ▸ h.1)
  rcases l with _ | ⟨a, l⟩ <;> rcases m with _ | ⟨b, m⟩
  · simp [lexSign]
  · have hb := hm b List.mem_cons_self
    simp [lexSign, (hne hb).symm, hb.1]
  · have ha := hl a List.mem_cons_self
    simp [lexSign, hne ha, ha.2]
  · have ha := hl a List.mem_cons_self
    simp [lexSign, hne ha]
