import Mathlib.Data.List.Basic

/-!
# Runs whose steps meet a condition

`run step s is` performs the inputs `is` one after another. `Meets step ok s is` says that
every input is performed in a state where the condition `ok` holds. `Meets.invariant` is
the induction over such a run : what a step that meets the condition preserves holds in
the state the run ends in, and, as a run that meets the condition does so up to every
point (`Meets.of_append`), in every state it passes.

Two systems may run side by side on the same inputs (`run_beside`), and a condition may speak about
both. What the steps of both preserve between them holds between their runs (`Meets.related`).
-/

namespace GuardedRun

variable {σ ι : Type*} {step : σ → ι → σ} {ok : σ → ι → Prop}

/-- The state after the inputs `is`. -/
def run (step : σ → ι → σ) (s : σ) (is : List ι) : σ :=
  is.foldl step s

/-- Every input of `is` is performed in a state where `ok` allows it. -/
def Meets (step : σ → ι → σ) (ok : σ → ι → Prop) : σ → List ι → Prop
  | _, [] => True
  | s, i :: is => ok s i ∧ Meets step ok (step s i) is

@[simp] theorem run_nil (s : σ) : run step s [] = s :=
  rfl

@[simp] theorem run_cons (s : σ) (i : ι) (is : List ι) :
    run step s (i :: is) = run step (step s i) is :=
  rfl

/-- A run goes on where another stopped. -/
theorem run_append (s : σ) (is js : List ι) :
    run step s (is ++ js) = run step (run step s is) js :=
  List.foldl_append

@[simp] theorem meets_nil (s : σ) : Meets step ok s [] :=
  trivial

@[simp] theorem meets_cons (s : σ) (i : ι) (is : List ι) :
    Meets step ok s (i :: is) ↔ ok s i ∧ Meets step ok (step s i) is :=
  Iff.rfl

theorem meets_append (s : σ) (is js : List ι) :
    Meets step ok s (is ++ js) ↔ Meets step ok s is ∧ Meets step ok (run step s is) js := by
  induction is generalizing s with
  | nil => simp
  | cons i is ih => simp [ih, and_assoc]

instance instDecidableMeets [∀ s i, Decidable (ok s i)] : ∀ s is, Decidable (Meets step ok s is)
  | _, [] => isTrue trivial
  | s, i :: is =>
    have := instDecidableMeets (step s i) is
    inferInstanceAs (Decidable (ok s i ∧ Meets step ok (step s i) is))

/-- Two conditions that agree in every state are met by the same runs. -/
theorem meets_congr {ok' : σ → ι → Prop} (h : ∀ s i, ok s i ↔ ok' s i) (s : σ) (is : List ι) :
    Meets step ok s is ↔ Meets step ok' s is := by
  induction is generalizing s with
  | nil => simp
  | cons i is ih => simp [h, ih]

namespace Meets

/-- A run that meets it does so from the start. -/
theorem of_append {s : σ} {is js : List ι} (h : Meets step ok s (is ++ js)) :
    Meets step ok s is :=
  ((meets_append s is js).1 h).1

/-- The last step of a run meets the condition in the state the rest of the run ends in. -/
theorem last {s : σ} {is : List ι} {i : ι} (h : Meets step ok s (is ++ [i])) :
    ok (run step s is) i :=
  (((meets_append s is [i]).1 h).2).1

/-- What every step that meets the condition preserves holds at the end of the run. -/
theorem invariant {I : σ → Prop} (hstep : ∀ s i, I s → ok s i → I (step s i)) {s : σ}
    {is : List ι} (h : Meets step ok s is) (hs : I s) : I (run step s is) := by
  induction is generalizing s with
  | nil => exact hs
  | cons i is ih => exact ih h.2 (hstep s i hs h.1)

/-- Along a run that keeps an invariant, one condition may be replaced by another that it
implies where the invariant holds. -/
theorem imp {ok' : σ → ι → Prop} {I : σ → Prop} (hstep : ∀ s i, I s → ok s i → I (step s i))
    (himp : ∀ s i, I s → ok s i → ok' s i) {s : σ} {is : List ι} (h : Meets step ok s is)
    (hs : I s) : Meets step ok' s is := by
  induction is generalizing s with
  | nil => exact meets_nil s
  | cons i is ih => exact ⟨himp s i hs h.1, ih h.2 (hstep s i hs h.1)⟩

/-- Along a run that keeps an invariant, a property that a condition decides step by step
holds in every state exactly when the condition is met. -/
theorem forall_prefix_iff {ok' : σ → ι → Prop} {I P : σ → Prop}
    (hstep : ∀ s i, I s → ok s i → I (step s i))
    (hiff : ∀ s i, I s → P s → ok s i → (P (step s i) ↔ ok' s i)) {s : σ} {is : List ι}
    (h : Meets step ok s is) (hs : I s) (hp : P s) :
    (∀ js, js <+: is → P (run step s js)) ↔ Meets step ok' s is := by
  induction is generalizing s with
  | nil => exact iff_of_true (fun js hjs => List.prefix_nil.1 hjs ▸ hp) trivial
  | cons i is ih =>
    have hnext := hiff s i hs hp h.1
    constructor
    · intro hall
      have hi : P (step s i) := hall [i] (List.cons_prefix_cons.2 ⟨rfl, List.nil_prefix⟩)
      refine ⟨hnext.1 hi, (ih h.2 (hstep s i hs h.1) hi).1 fun js hjs => ?_⟩
      exact hall (i :: js) (List.cons_prefix_cons.2 ⟨rfl, hjs⟩)
    · rintro ⟨hi, hrest⟩ js hjs
      have hall := (ih h.2 (hstep s i hs h.1) (hnext.2 hi)).2 hrest
      cases js with
      | nil => exact hp
      | cons j js =>
        obtain ⟨hj, htail⟩ := List.cons_prefix_cons.1 hjs
        exact hj ▸ hall js htail

end Meets

theorem meets_true (s : σ) (is : List ι) : Meets step (fun _ _ => True) s is := by
  induction is generalizing s with
  | nil => exact meets_nil s
  | cons i is ih => exact ⟨trivial, ih (step s i)⟩

/-- A run meets a condition when it holds of every input in the state it is performed in. -/
theorem meets_iff_forall_prefix (s : σ) (is : List ι) :
    Meets step ok s is ↔ ∀ js i, js ++ [i] <+: is → ok (run step s js) i := by
  constructor
  · rintro h js i ⟨ks, rfl⟩
    exact h.of_append.last
  · intro h
    induction is generalizing s with
    | nil => exact meets_nil s
    | cons i is ih =>
      refine ⟨h [] i (List.cons_prefix_cons.2 ⟨rfl, List.nil_prefix⟩), ih _ fun js j hjs => ?_⟩
      exact h (i :: js) j (List.cons_prefix_cons.2 ⟨rfl, hjs⟩)

/-! ## Two systems side by side -/

section Beside

variable {τ : Type*} {step' : τ → ι → τ}

/-- Two systems that take the same inputs. -/
def beside (step : σ → ι → σ) (step' : τ → ι → τ) (p : σ × τ) (i : ι) : σ × τ :=
  (step p.1 i, step' p.2 i)

/-- Two systems side by side run each on its own. -/
theorem run_beside (s : σ) (t : τ) (is : List ι) :
    run (beside step step') (s, t) is = (run step s is, run step' t is) := by
  induction is generalizing s t with
  | nil => rfl
  | cons i is ih => exact ih (step s i) (step' t i)

/-- A condition on the first system. -/
theorem meets_beside (s : σ) (t : τ) (is : List ι) :
    Meets (beside step step') (fun p i => ok p.1 i) (s, t) is ↔ Meets step ok s is := by
  induction is generalizing s t with
  | nil => simp
  | cons i is ih => exact and_congr_right fun _ => ih (step s i) (step' t i)

/-- Where one system meets its condition, another stays related to it when every pair of steps
keeps them so. -/
theorem Meets.related {ok' : τ → ι → Prop} {R : σ → τ → Prop}
    (hstep : ∀ s t i, R s t → ok' t i → R (step s i) (step' t i)) {s : σ} {t : τ} {is : List ι}
    (h : Meets step' ok' t is) (hst : R s t) : R (run step s is) (run step' t is) := by
  induction is generalizing s t with
  | nil => exact hst
  | cons i is ih => exact ih h.2 (hstep s t i hst h.1)

end Beside

theorem meets_of_forall (is : List ι) {q : ι → Prop} (h : ∀ i ∈ is, q i) (s : σ) :
    Meets step (fun _ i => q i) s is := by
  induction is generalizing s with
  | nil => exact meets_nil s
  | cons i is ih =>
    exact ⟨h i List.mem_cons_self, ih (fun j hj => h j (List.mem_cons_of_mem i hj)) _⟩

/-- When the condition decides, step by step, whether an invariant is kept, it decides
whether the invariant holds in every state of the run. -/
theorem forall_prefix_iff_meets {I : σ → Prop} (hstep : ∀ s i, I s → (I (step s i) ↔ ok s i))
    {s : σ} (hs : I s) (is : List ι) :
    (∀ js, js <+: is → I (run step s js)) ↔ Meets step ok s is :=
  (meets_true s is).forall_prefix_iff (I := fun _ => True) (fun _ _ _ _ => trivial)
    (fun s i _ hI _ => hstep s i hI) trivial hs

end GuardedRun
