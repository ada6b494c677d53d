import Mathlib.Data.Nat.Notation
import Mathlib.Logic.Function.Basic

/-!
# Copying forward

A copy from one place of an array to another, one entry after the other from the first on.
When it goes to a lower place, no entry is read after it has been written, and the places may
overlap (`copy_apply`).
-/

namespace ForwardCopy

variable {α : Type*}

/-- The first `n` entries from `src` on are copied to `dst`. -/
def copy (dst src : ℕ) (a : ℕ → α) : ℕ → ℕ → α
  | 0 => a
  | n + 1 => Function.update (copy dst src a n) (dst + n) (copy dst src a n (src + n))

/-- A copy downwards, going forward, reads every element before it is overwritten. -/
theorem copy_apply {dst src : ℕ} (h : dst ≤ src) (a : ℕ → α) (n k : ℕ) :
    copy dst src a n k = if dst ≤ k ∧ k < dst + n then a (k + (src - dst)) else a k := by
  induction n generalizing k with
  | zero => rw [copy, if_neg (by omega)]
  | succ n ih =>
    rw [copy, Function.update_apply, ih, ih]
    -- the entry that is read lies behind all that have been written
    rw [if_neg (show ¬(dst ≤ src + n ∧ src + n < dst + n) by omega)]
    by_cases hk : k = dst + n
    · rw [if_pos hk, if_pos (by omega), hk, show dst + n + (src - dst) = src + n by omega]
    · rw [if_neg hk]
      refine if_congr ?_ rfl rfl
      omega

end ForwardCopy
