import Mathlib.Algebra.Polynomial.Div
import Mathlib.Algebra.Polynomial.Monic
import Mathlib.Algebra.Polynomial.RingDivision
import Mathlib.RingTheory.Coprime.Lemmas

/-!
# Division by a shift register

The coefficients of a polynomial, the highest first, are its `message`. A register that takes
them one after another, and multiplies what it holds by `X` but for a multiple of `g`, holds in
the end what `g` divides the message with, `n` places further up (`dvd_foldl`), so with fewer
coefficients than `g` it holds the remainder (`eq_modByMonic`).

Two messages of one length with the same coefficients are the same (`message_injective`). Where
`g` has no common divisor with `X`, two messages that differ in a few neighbours only do not have
the same remainder (`burst_eq_of_dvd`).
-/

open Polynomial

namespace ShiftRegister

variable {R : Type*} [CommRing R]

/-! ## Messages -/

/-- The polynomial with the given coefficients, the highest first. -/
noncomputable def message (bs : List R) : R[X] :=
  bs.foldl (fun m b => X * m + C b) 0

@[simp] theorem message_nil : message ([] : List R) = 0 :=
  rfl

theorem message_concat (bs : List R) (b : R) : message (bs ++ [b]) = X * message bs + C b :=
  List.foldl_append

/-- A message behind another moves it up. -/
theorem message_append (as bs : List R) :
    message (as ++ bs) = X ^ bs.length * message as + message bs := by
  induction bs using List.reverseRecOn with
  | nil => simp
  | append_singleton bs b ih =>
    rw [← List.append_assoc, message_concat, ih, message_concat, List.length_append,
      List.length_singleton]
    ring

/-- A message of `n` bits has degree below `n`. -/
theorem degree_message_lt [Nontrivial R] (bs : List R) : (message bs).degree < bs.length := by
  rw [degree_lt_iff_coeff_zero]
  induction bs using List.reverseRecOn with
  | nil => intro m _; exact coeff_zero m
  | append_singleton bs b ih =>
    intro m hm
    rw [List.length_append, List.length_singleton] at hm
    obtain ⟨m, rfl⟩ : ∃ k, m = k + 1 := ⟨m - 1, by omega⟩
    rw [message_concat, coeff_add, coeff_X_mul, coeff_C_succ, add_zero]
    exact ih m (by omega)

/-- The coefficients of a message are those of its list. -/
theorem message_injective {as bs : List R} (hlen : as.length = bs.length)
    (h : message as = message bs) : as = bs := by
  induction as using List.reverseRecOn generalizing bs with
  | nil => exact (List.length_eq_zero_iff.1 hlen.symm).symm
  | append_singleton as a ih =>
    obtain rfl | ⟨bs, b, rfl⟩ := List.eq_nil_or_concat' bs
    · simp at hlen
    · rw [message_concat, message_concat] at h
      have hlast : a = b := by
        have hcoeff := congrArg (coeff · 0) h
        simpa using hcoeff
      have hrest : message as = message bs := by
        ext m
        have hcoeff := congrArg (coeff · (m + 1)) h
        simpa [coeff_C_succ] using hcoeff
      rw [ih (by simpa using hlen) hrest, hlast]

/-! ## Registers -/

section Register

variable {α σ : Type*} {g : R[X]} {n : ℕ} {poly : σ → R[X]} {step : σ → α → σ} {value : α → R}

/-- A register that starts empty. -/
theorem dvd_foldl (hstep : ∀ s a, g ∣ poly (step s a) - (X * poly s + C (value a) * X ^ n))
    {s : σ} (hs : poly s = 0) (l : List α) :
    g ∣ poly (l.foldl step s) - X ^ n * message (l.map value) := by
  induction l using List.reverseRecOn with
  | nil => simp [hs]
  | append_singleton l a ih =>
    rw [List.foldl_append, List.map_append, List.map_singleton, message_concat]
    have hshift := (ih.mul_left X).add (hstep (l.foldl step s) a)
    refine (congrArg (g ∣ ·) ?_).mp hshift
    rw [List.foldl_cons, List.foldl_nil]
    ring

end Register

/-- What is congruent to a polynomial and shorter than `g` is the remainder. -/
theorem eq_modByMonic [Nontrivial R] {g p q : R[X]} (hg : g.Monic) (hp : p.degree < g.degree)
    (h : g ∣ p - q) : p = q %ₘ g := by
  have hzero := (modByMonic_eq_zero_iff_dvd hg).2 h
  rw [sub_modByMonic, (modByMonic_eq_self_iff hg).2 hp] at hzero
  exact sub_eq_zero.1 hzero

/-- Two messages that `g` does not tell apart and that differ in a burst only, no longer than
`g`, are the same. -/
theorem burst_eq_of_dvd [IsDomain R] {g : R[X]} (hg : g.Monic) (hX : IsCoprime g X) {n : ℕ}
    {pre as bs post : List R} (hlen : as.length = bs.length) (hshort : as.length ≤ g.natDegree)
    (h : g ∣ X ^ n * message (pre ++ as ++ post) - X ^ n * message (pre ++ bs ++ post)) :
    as = bs := by
  have hburst : X ^ n * message (pre ++ as ++ post) - X ^ n * message (pre ++ bs ++ post) =
      X ^ (n + post.length) * (message as - message bs) := by
    simp only [message_append, hlen]
    ring
  rw [hburst] at h
  have hdvd : g ∣ message as - message bs := hX.pow_right.dvd_of_dvd_mul_left h
  have hdegree : ∀ cs : List R, cs.length = as.length → (message cs).degree < g.degree := by
    intro cs hcs
    rw [degree_eq_natDegree hg.ne_zero]
    exact (degree_message_lt cs).trans_le (by exact_mod_cast hcs.symm ▸ hshort)
  have hlt : (message as - message bs).degree < g.degree :=
    (degree_sub_le _ _).trans_lt (max_lt (hdegree as rfl) (hdegree bs hlen.symm))
  have hzero := eq_zero_of_dvd_of_degree_lt hdvd hlt
  exact message_injective hlen (sub_eq_zero.1 hzero)

end ShiftRegister
