import Mathlib.Order.Bounds.Basic
import Mathlib.Order.Monotone.Basic

/-!
# Polling a counter

`poll p n k` tests `p` at `k`, `k + 1` and so on, and stops at the first test that passes. It
stops at `k` exactly when `k` is the least position that passes (`forall_poll_iff`).

A counter `x` that rises by one at most between two tests (`UnitSteps`) is polled for the first
`k` with `m ≤ x k`. When counter and deadline start at `b` and wrap at `M`, the comparison of
what is left of them finds that `k` if and only if it is right at the first test
(`UnitSteps.isLeast_wrapped_iff`).
-/

namespace Polling

/-! ## The loop -/

section Loop

variable {p : ℕ → Bool} {n k i : ℕ}

/-- At most `n` tests from `k` on. -/
def poll (p : ℕ → Bool) : ℕ → ℕ → Option ℕ
  | 0, _ => none
  | n + 1, k => if p k then some k else poll p n (k + 1)

/-- The loop stops at the first time that the condition holds. -/
theorem poll_eq_some_iff :
    poll p n k = some i ↔ k ≤ i ∧ i < k + n ∧ p i ∧ ∀ j, k ≤ j → j < i → ¬p j := by
  induction n generalizing k with
  | zero => exact iff_of_false (by simp [poll]) fun h => by omega
  | succ n ih =>
    rw [poll]
    split_ifs with hk
    · rw [Option.some.injEq]
      constructor
      · rintro rfl
        exact ⟨le_rfl, by omega, hk, fun j hkj hjk => absurd hjk hkj.not_gt⟩
      · rintro ⟨hki, -, -, hbefore⟩
        exact hki.eq_of_not_lt fun hlt => hbefore k le_rfl hlt hk
    · rw [ih]
      constructor
      · rintro ⟨hki, hin, hi, hbefore⟩
        refine ⟨by omega, by omega, hi, fun j hkj hji => ?_⟩
        rcases hkj.eq_or_lt with rfl | hlt
        · exact hk
        · exact hbefore j hlt hji
      · rintro ⟨hki, hin, hi, hbefore⟩
        have hne : k ≠ i := fun h => hk (h ▸ hi)
        exact ⟨by omega, by omega, hi, fun j hkj hji => hbefore j (by omega) hji⟩

/-- The loop stops at the least position that passes, whatever number of tests it is given. -/
theorem forall_poll_iff :
    (∀ n, poll p n 0 = if k < n then some k else none) ↔ IsLeast {k | p k} k := by
  constructor
  · intro h
    obtain ⟨-, -, hk, hbefore⟩ := poll_eq_some_iff.1 ((h (k + 1)).trans (if_pos (by omega)))
    exact ⟨hk, fun j hj => not_lt.1 fun hlt => hbefore j (Nat.zero_le j) hlt hj⟩
  · rintro ⟨hk, hleast⟩ n
    split_ifs with hn
    · exact poll_eq_some_iff.2 ⟨Nat.zero_le k, by omega, hk,
        fun j _ hlt hj => absurd hlt (hleast hj).not_gt⟩
    · refine Option.eq_none_iff_forall_ne_some.2 fun i hi => ?_
      obtain ⟨-, hin, hpi, -⟩ := poll_eq_some_iff.1 hi
      have hki : k ≤ i := hleast hpi
      omega

end Loop

/-! ## The counter -/

/-- A counter that does not fall and rises by one at most. -/
structure UnitSteps (x : ℕ → ℕ) : Prop where
  le_succ (k : ℕ) : x k ≤ x (k + 1)
  succ_le (k : ℕ) : x (k + 1) ≤ x k + 1

namespace UnitSteps

variable {x : ℕ → ℕ} {m k : ℕ}

/-- Steps of one or none never go back. -/
theorem monotone (h : UnitSteps x) : Monotone x :=
  monotone_nat_of_le_succ h.le_succ

/-- Up to the least test at which `m` is reached, the counter does not pass `m`. -/
theorem le_max (h : UnitSteps x) (hk : IsLeast {k | m ≤ x k} k) {j : ℕ} (hj : j ≤ k) :
    x j ≤ max m (x 0) := by
  cases j with
  | zero => exact le_max_right _ _
  | succ j =>
    have hbefore : ¬m ≤ x j := fun hm => absurd (hk.2 hm) (by omega)
    have hstep := h.succ_le j
    omega

theorem add_mod_of_lt {a b M : ℕ} (ha : a < M) (hb : b < M) :
    (a + b) % M = if M ≤ a + b then a + b - M else a + b := by
  rw [Nat.add_mod_eq_ite, Nat.mod_eq_of_lt ha, Nat.mod_eq_of_lt hb]

/-- The wrapped counter is compared with the wrapped deadline. Once the first test is right, all
up to the least that passes are, since neither wraps between them without the other. -/
theorem isLeast_wrapped_iff (h : UnitSteps x) {b M : ℕ} (hb : b < M) (hm : m < M)
    (hx : x 0 < M) (hk : IsLeast {k | m ≤ x k} k) :
    IsLeast {k | (b + m) % M ≤ (b + x k) % M} k ↔
      (m ≤ x 0 ↔ (b + m) % M ≤ (b + x 0) % M) := by
  constructor
  · intro hk'
    constructor
    · intro hm0
      have hk0 : k = 0 := Nat.le_zero.1 (hk.2 hm0)
      exact hk0 ▸ hk'.1
    · intro hwrapped
      have hk0 : k = 0 := Nat.le_zero.1 (hk'.2 hwrapped)
      exact hk0 ▸ hk.1
  · intro hfirst
    have hsame : ∀ j ≤ k, (m ≤ x j ↔ (b + m) % M ≤ (b + x j) % M) := by
      intro j hj
      have h0j : x 0 ≤ x j := h.monotone (Nat.zero_le j)
      have hjm := h.le_max hk hj
      rw [add_mod_of_lt hb hm, add_mod_of_lt hb hx] at hfirst
      rw [add_mod_of_lt hb hm, add_mod_of_lt hb (by omega)]
      split_ifs at hfirst ⊢ <;> omega
    refine ⟨(hsame k le_rfl).1 hk.1, fun j hj => ?_⟩
    rcases le_total k j with hkj | hjk
    · exact hkj
    · exact hk.2 ((hsame j hjk).2 hj)

end UnitSteps

end Polling
