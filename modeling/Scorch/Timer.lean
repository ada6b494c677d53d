import Scorch.Lib.ByteMemory
import Scorch.Lib.Polling
import Mathlib.Data.Nat.Count

/-!
# Waiting for the timer

`PIC_handler` of `timer.c` counts the interrupts of the timer in `PIC_ticks`. `wait` adds its
delay to the counter and tests, again and again, whether the counter is below the sum. Both have
32 bits, and the interrupts come between the tests.

The loop compares what is left of both after they wrap. It is left at the first test at which
the delay has passed exactly when counter and deadline have both wrapped at the first test, or
neither has (`leavesInTime_iff`).
-/

open ByteMemory Polling

namespace Scorch

/-! ## Functions -/

/-- `PIC_handler (r)`, from one value of `PIC_ticks` to the next. -/
def picHandler (picTicks : Word) : Word :=
  picTicks + 1

/-- The loop of `wait` from test `k` on, with at most `n` tests : the test that leaves it.
`calls k` is whether `PIC_handler` is called before test `k`, behind the test before it. -/
def waitLoop (calls : ℕ → Bool) (eticks : Word) : ℕ → ℕ → Word → Option ℕ
  | 0, _, _ => none
  | n + 1, k, picTicks =>
    let picTicks := if calls k then picHandler picTicks else picTicks
    -- `PIC_ticks` is signed, `eticks` is not, so both are compared as unsigned
    if picTicks < eticks then waitLoop calls eticks n (k + 1) picTicks else some k

/-- `wait (ticks)`. -/
def wait (n : ℕ) (calls : ℕ → Bool) (picTicks ticks : Word) : Option ℕ :=
  let eticks := picTicks + ticks
  waitLoop calls eticks n 0 picTicks

/-! ## Ticks that have passed -/

section Elapsed

/-- Calls of `PIC_handler` from the entry of `wait` to test `k`. -/
def elapsed (calls : ℕ → Bool) (k : ℕ) : ℕ :=
  Nat.count (fun i => calls i) (k + 1)

/-- `wait` leaves its loop at the first test at which `ticks` calls have come. -/
def LeavesInTime (calls : ℕ → Bool) (picTicks ticks : Word) : Prop :=
  ∃ k, IsLeast {k | ticks.toNat ≤ elapsed calls k} k ∧
    ∀ n, wait n calls picTicks ticks = if k < n then some k else none

variable {calls : ℕ → Bool}

/-- In a round the counter goes up by one at most. -/
theorem unitSteps_elapsed (calls : ℕ → Bool) : UnitSteps (elapsed calls) where
  le_succ k := Nat.count_monotone _ (Nat.le_succ (k + 1))
  succ_le k := by
    rw [elapsed, Nat.count_succ]
    exact Nat.add_le_add_left (by split_ifs <;> omega) _

theorem elapsed_zero_le (calls : ℕ → Bool) : elapsed calls 0 ≤ 1 :=
  Nat.count_le _

/-- One gap between two tests, with a call or without. -/
theorem picTicks_step (calls : ℕ → Bool) (c : Word) (k : ℕ) :
    (if calls k then picHandler (c + BitVec.ofNat 32 (Nat.count (fun i => calls i) k))
      else c + BitVec.ofNat 32 (Nat.count (fun i => calls i) k)) =
        c + BitVec.ofNat 32 (elapsed calls k) := by
  rw [elapsed, Nat.count_succ]
  split_ifs
  · rw [picHandler, BitVec.ofNat_add, BitVec.add_assoc]
    rfl
  · rfl

/-- The loop polls a counter that is `elapsed` ahead of its value at entry. -/
theorem waitLoop_eq_poll (calls : ℕ → Bool) (eticks c : Word) (n k : ℕ) :
    waitLoop calls eticks n k (c + BitVec.ofNat 32 (Nat.count (fun i => calls i) k)) =
      poll (fun i => eticks ≤ c + BitVec.ofNat 32 (elapsed calls i)) n k := by
  induction n generalizing k with
  | zero => rfl
  | succ n ih =>
    have hstep := picTicks_step calls c k
    simp only [waitLoop, poll, hstep, decide_eq_true_eq]
    rw [elapsed, ih]
    split_ifs with hlt hle
    · exact absurd hlt (BitVec.not_lt.2 hle)
    · rfl
    · rfl
    · exact absurd (BitVec.not_lt.1 hlt) ‹_›

/-- The loop of `wait` is a polling loop. -/
theorem wait_eq_poll (n : ℕ) (calls : ℕ → Bool) (c t : Word) :
    wait n calls c t = poll (fun i => c + t ≤ c + BitVec.ofNat 32 (elapsed calls i)) n 0 := by
  have hloop := waitLoop_eq_poll calls (c + t) c n 0
  rwa [Nat.count_zero, show c + BitVec.ofNat 32 0 = c from BitVec.add_zero c] at hloop

/-- What a test compares. -/
theorem deadline_le_iff (c t : Word) (e : ℕ) : c + t ≤ c + BitVec.ofNat 32 e ↔
    (c.toNat + t.toNat) % 2 ^ 32 ≤ (c.toNat + e) % 2 ^ 32 := by
  rw [BitVec.le_def, BitVec.toNat_add, BitVec.toNat_add, BitVec.toNat_ofNat, Nat.add_mod_mod]

theorem forall_wait_iff (c t : Word) (k : ℕ) :
    (∀ n, wait n calls c t = if k < n then some k else none) ↔
      IsLeast {k | (c.toNat + t.toNat) % 2 ^ 32 ≤ (c.toNat + elapsed calls k) % 2 ^ 32} k := by
  simp only [wait_eq_poll, forall_poll_iff, decide_eq_true_eq, deadline_le_iff]

end Elapsed

/-! ## When the delay is kept -/

section Delay

variable {calls : ℕ → Bool}

/-- `wait` keeps its delay when deadline and counter have both wrapped at the first test or neither
has, and not otherwise. -/
theorem leavesInTime_iff (hcalls : ∀ m, ∃ k, m ≤ elapsed calls k) (c t : Word) :
    LeavesInTime calls c t ↔
      (c.toNat + t.toNat < 2 ^ 32 ↔ c.toNat + elapsed calls 0 < 2 ^ 32) := by
  have hc : c.toNat < 2 ^ 32 := c.isLt
  have ht : t.toNat < 2 ^ 32 := t.isLt
  have hfirst : elapsed calls 0 ≤ 1 := elapsed_zero_le calls
  have hex := hcalls t.toNat
  have hleast : IsLeast {k | t.toNat ≤ elapsed calls k} (Nat.find hex) :=
    ⟨Nat.find_spec hex, fun k hk => Nat.find_min' hex hk⟩
  -- the least test at which the delay has passed is the only one that `wait` may leave at
  have hwait : LeavesInTime calls c t ↔ IsLeast {k | (c.toNat + t.toNat) % 2 ^ 32 ≤
      (c.toNat + elapsed calls k) % 2 ^ 32} (Nat.find hex) := by
    constructor
    · rintro ⟨k, hk, hleaves⟩
      exact hleast.unique hk ▸ (forall_wait_iff c t k).1 hleaves
    · exact fun hleaves => ⟨_, hleast, (forall_wait_iff c t _).2 hleaves⟩
  rw [hwait, (unitSteps_elapsed calls).isLeast_wrapped_iff hc ht (by omega) hleast]
  omega

theorem leavesInTime_twenty : LeavesInTime (fun _ => true) 0 20 :=
  (leavesInTime_iff (fun m => ⟨m, by simp [elapsed, Nat.count_true]⟩) 0 20).2 (by decide)

/-- A deadline that wraps before the counter does is over at the first test. -/
theorem wait_of_deadline_wraps {c t : Word} (hdeadline : 2 ^ 32 ≤ c.toNat + t.toNat)
    (hcounter : c.toNat + elapsed calls 0 < 2 ^ 32) (n : ℕ) : wait (n + 1) calls c t = some 0 := by
  have hc : c.toNat < 2 ^ 32 := c.isLt
  have ht : t.toNat < 2 ^ 32 := t.isLt
  refine ((forall_wait_iff c t 0).2 ⟨?_, fun k _ => Nat.zero_le k⟩ (n + 1)).trans
    (if_pos n.succ_pos)
  change (c.toNat + t.toNat) % 2 ^ 32 ≤ (c.toNat + elapsed calls 0) % 2 ^ 32
  omega

/-- Ten ticks before the counter wraps, a wait for twenty is over at the first test. -/
theorem wait_wraps : (∀ m, ∃ k, m ≤ elapsed (fun _ => true) k) ∧
    wait 1 (fun _ => true) 0xfffffff6 20 = some 0 ∧ elapsed (fun _ => true) 0 = 1 ∧
      ¬LeavesInTime (fun _ => true) 0xfffffff6 20 := by
  have hwait : wait 1 (fun _ => true) 0xfffffff6 20 = some 0 :=
    wait_of_deadline_wraps (by decide) (by decide) 0
  have hone : elapsed (fun _ => true) 0 = 1 := by decide
  refine ⟨fun m => ⟨m, by simp [elapsed, Nat.count_true]⟩, hwait, hone, ?_⟩
  rintro ⟨k, hk, hleaves⟩
  have hk0 : k = 0 := by
    have hsome := (hleaves 1).symm.trans hwait
    split_ifs at hsome with hlt
    exact Nat.lt_one_iff.1 hlt
  have hpassed : 20 ≤ elapsed (fun _ => true) 0 := hk0 ▸ hk.1
  omega

end Delay

end Scorch
