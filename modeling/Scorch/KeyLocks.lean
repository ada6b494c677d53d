import Scorch.Keyboard
import Scorch.Lib.GuardedRun

/-!
# Locks, lights and shift keys

Every lock key that goes down, while `specKeyUp` is set, changes one variable of the driver
and one bit of `leds`, and clears `specKeyUp`. Any lock key that goes up sets it again, so it
may be set while another lock key is held. For Caps Lock and Num Lock the variable and the bit
belong together, and Scroll Lock changes `num` and the light of its own. The lights mirror the
locks in every state of a run just when Scroll Lock never goes down while `specKeyUp` is set
(`mirror_iff`).

The flag `shift` is set when one of the two Shift keys goes down and cleared when one goes up.
It is set while a Shift key is held, in every state of a run, just when no Shift key goes up
while the other is held (`shift_iff_held`).
-/

open ByteMemory GuardedRun

namespace Scorch

/-! ## Lights -/

theorem twoPow_ne_zero {i : ℕ} (hi : i < 8) : BitVec.twoPow 8 i ≠ 0 := by
  intro h
  have hbit := congrArg (fun x => x.getLsbD i) h
  simp [hi] at hbit

/-- `UpdateLeds` for one light changes its bit. -/
theorem getLsbD_toggleLeds (leds : Byte) {i j : ℕ} (hi : i < 8) (hj : j < 8) :
    (toggleLeds leds (BitVec.twoPow 8 i)).getLsbD j = (leds.getLsbD j ^^ decide (j = i)) := by
  unfold toggleLeds
  rw [if_neg (twoPow_ne_zero hi)]
  split_ifs with hon
  · simp [hj]
  · have hoff : leds.getLsbD i = false := by
      by_contra hset
      refine hon (BitVec.eq_of_getLsbD_eq fun t ht => ?_)
      rcases eq_or_ne t i with rfl | hti
      · simpa [ht] using hset
      · simp [ht, hti]
    rw [BitVec.getLsbD_or, BitVec.getLsbD_twoPow]
    rcases eq_or_ne j i with rfl | hji
    · rw [hoff]
      simp [hj]
    · simp [hji, hji.symm]

/-- A light is on. -/
def LedOn (leds led : Byte) : Prop :=
  leds &&& led ≠ 0

instance (leds led : Byte) : Decidable (LedOn leds led) :=
  inferInstanceAs (Decidable (_ ≠ _))

theorem ledOn_twoPow_iff (leds : Byte) {i : ℕ} (hi : i < 8) :
    LedOn leds (BitVec.twoPow 8 i) ↔ leds.getLsbD i = true := by
  unfold LedOn
  rw [BitVec.and_twoPow]
  split_ifs with h
  · exact iff_of_true (twoPow_ne_zero hi) h
  · simp [h]

/-- Toggling one light leaves the others. -/
theorem ledOn_toggleLeds_twoPow (leds : Byte) {i j : ℕ} (hi : i < 8) (hj : j < 8) :
    LedOn (toggleLeds leds (BitVec.twoPow 8 i)) (BitVec.twoPow 8 j) ↔
      (LedOn leds (BitVec.twoPow 8 j) ↔ j ≠ i) := by
  rw [ledOn_twoPow_iff _ hj, ledOn_twoPow_iff _ hj, getLsbD_toggleLeds leds hi hj]
  rcases eq_or_ne j i with rfl | hji
  · simp
  · simp [hji]

/-! ## Locks -/

namespace Keyboard

variable {k : Keyboard}

/-- The lights of Caps Lock and Num Lock are on when the locks are. -/
def Mirror (k : Keyboard) : Prop :=
  (LedOn k.leds capsLock ↔ k.caps = true) ∧ (LedOn k.leds numLock ↔ k.num = true)

instance (k : Keyboard) : Decidable k.Mirror :=
  inferInstanceAs (Decidable (_ ∧ _))

/-- What the light of a lock key does to the lights of both locks. -/
theorem ledOn_toggleLeds (leds : Byte) :
    (LedOn (toggleLeds leds capsLock) capsLock ↔ ¬LedOn leds capsLock) ∧
      (LedOn (toggleLeds leds capsLock) numLock ↔ LedOn leds numLock) ∧
      (LedOn (toggleLeds leds numLock) capsLock ↔ LedOn leds capsLock) ∧
      (LedOn (toggleLeds leds numLock) numLock ↔ ¬LedOn leds numLock) ∧
      (LedOn (toggleLeds leds scrollLock) numLock ↔ LedOn leds numLock) := by
  have hscroll : scrollLock = BitVec.twoPow 8 0 := rfl
  have hnum : numLock = BitVec.twoPow 8 1 := rfl
  have hcaps : capsLock = BitVec.twoPow 8 2 := rfl
  rw [hscroll, hnum, hcaps]
  simp [ledOn_toggleLeds_twoPow]

/-- A lock and its light that both change. -/
theorem not_iff_not_eq_true {p : Prop} {b : Bool} (h : p ↔ b = true) : ¬p ↔ (!b) = true := by
  rw [h]
  cases b <;> simp

/-- Only Scroll Lock, when it goes down while `specKeyUp` is set, breaks the mirror. -/
theorem Mirror.special_iff (h : k.Mirror) (special : SpecialKey) :
    (k.special special).Mirror ↔ ¬(special = .scrollDown ∧ k.specKeyUp = true) := by
  obtain ⟨hcaps, hnum⟩ := h
  obtain ⟨hcc, hcn, hnc, hnn, hsn⟩ := ledOn_toggleLeds k.leds
  cases special with
  | capsDown =>
    refine iff_of_true ?_ (by simp)
    rw [Keyboard.special]
    split_ifs
    · exact ⟨hcc.trans (not_iff_not_eq_true hcaps), hcn.trans hnum⟩
    · exact ⟨hcaps, hnum⟩
  | numDown =>
    refine iff_of_true ?_ (by simp)
    rw [Keyboard.special]
    split_ifs
    · exact ⟨hnc.trans hcaps, hnn.trans (not_iff_not_eq_true hnum)⟩
    · exact ⟨hcaps, hnum⟩
  | scrollDown =>
    rw [Keyboard.special]
    by_cases hup : k.specKeyUp = true
    · rw [if_pos hup]
      refine iff_of_false ?_ (by simp [hup])
      rintro ⟨-, hbroken⟩
      have hboth : LedOn k.leds numLock ↔ ¬LedOn k.leds numLock :=
        hsn.symm.trans (hbroken.trans (not_iff_not_eq_true hnum).symm)
      exact iff_not_self hboth
    · rw [if_neg hup]
      exact iff_of_true ⟨hcaps, hnum⟩ (by simp [hup])
  | _ => exact iff_of_true ⟨hcaps, hnum⟩ (by simp)

/-- Only the key itself counts as Scroll Lock. -/
theorem specialKey_eq_scrollDown_iff :
    ∀ scanCode, specialKey scanCode = some .scrollDown ↔ scanCode = 0x46 := by
  decide

/-- A step keeps the mirror, unless Scroll Lock goes down while `specKeyUp` is set. -/
theorem Mirror.keyboardHandler_iff (h : k.Mirror) (scanCode : Byte) :
    (keyboardHandler k scanCode).Mirror ↔ ¬(scanCode = 0x46 ∧ k.specKeyUp = true) := by
  rw [← specialKey_eq_scrollDown_iff]
  rcases keyboardHandler_cases k scanCode with
    ⟨hordinary, heq⟩ | ⟨-, ⟨special, hs, heq⟩ | ⟨hs, heq⟩⟩
  · rw [heq, Option.isNone_iff_eq_none.1 hordinary.1]
    exact iff_of_true h (by simp)
  · rw [heq, hs, h.special_iff special]
    simp
  · rw [heq, hs]
    exact iff_of_true h (by simp)

end Keyboard

/-- The code is not Scroll Lock going down while `specKeyUp` is set. -/
def NoScroll (k : Keyboard) (scanCode : Byte) : Prop :=
  ¬(scanCode = 0x46 ∧ k.specKeyUp = true)

/-- In every state of a run the lights mirror the locks, just when Scroll Lock never goes down
while `specKeyUp` is set. -/
theorem mirror_iff (scanCodes : List Byte) :
    (∀ codes, codes <+: scanCodes → (run keyboardHandler .initial codes).Mirror) ↔
      Meets keyboardHandler NoScroll .initial scanCodes :=
  forall_prefix_iff_meets (fun _ scanCode h => h.keyboardHandler_iff scanCode) (by decide) scanCodes

/-- Scroll Lock sets `num` and leaves the light of Num Lock off. -/
theorem not_mirror_scroll : ¬(run keyboardHandler .initial [0x46]).Mirror := by
  decide

/-! ## Shift keys -/

/-- Which of the Shift keys are held. -/
structure ShiftKeys where
  left : Bool
  right : Bool

/-- A Shift key is held from its make code to its break code. The prefix `E0` is ignored, as the
code ignores it : what comes behind it counts like any other code. -/
def ShiftKeys.step (s : ShiftKeys) (scanCode : Byte) : ShiftKeys :=
  if scanCode = 0x2A then { s with left := true }
  else if scanCode = 0xAA then { s with left := false }
  else if scanCode = 0x36 then { s with right := true }
  else if scanCode = 0xB6 then { s with right := false }
  else s

/-- The handler together with the Shift keys themselves. -/
def shiftStep (s : Keyboard × ShiftKeys) (scanCode : Byte) : Keyboard × ShiftKeys :=
  (keyboardHandler s.1 scanCode, s.2.step scanCode)

/-- `shift` is set when a Shift key is held. -/
def ShiftHeld (s : Keyboard × ShiftKeys) : Prop :=
  s.1.shift = true ↔ s.2.left = true ∨ s.2.right = true

/-- No Shift key goes up while the other one is held. -/
def LastShift (s : Keyboard × ShiftKeys) (scanCode : Byte) : Prop :=
  ¬(scanCode = 0xAA ∧ s.2.right = true) ∧ ¬(scanCode = 0xB6 ∧ s.2.left = true)

/-- The Shift keys share their cases of `kb_special`. -/
theorem specialKey_shift_iff :
    ∀ scanCode, (specialKey scanCode = some .shiftDown ↔ scanCode = 0x36 ∨ scanCode = 0x2A) ∧
      (specialKey scanCode = some .shiftUp ↔ scanCode = 0xB6 ∨ scanCode = 0xAA) := by
  decide

/-- Other special keys leave the Shift state alone. -/
theorem shift_special (k : Keyboard) (special : SpecialKey) (hdown : special ≠ .shiftDown)
    (hup : special ≠ .shiftUp) : (k.special special).shift = k.shift := by
  cases special <;> simp only [Keyboard.special, updateLeds] <;> first
    | contradiction
    | (split_ifs <;> rfl)

/-- What a scan code does to `shift`. -/
theorem shift_keyboardHandler (k : Keyboard) (scanCode : Byte) :
    (keyboardHandler k scanCode).shift =
      if scanCode = 0x36 ∨ scanCode = 0x2A then true
      else if scanCode = 0xB6 ∨ scanCode = 0xAA then false
      else k.shift := by
  obtain ⟨hdown, hup⟩ := specialKey_shift_iff scanCode
  simp only [← hdown, ← hup]
  rcases keyboardHandler_cases k scanCode with
    ⟨hordinary, heq⟩ | ⟨-, ⟨special, hs, heq⟩ | ⟨hs, heq⟩⟩
  · rw [heq, Option.isNone_iff_eq_none.1 hordinary.1]
    rfl
  · rw [heq, hs]
    split_ifs with h1 h2
    · rw [Option.some.inj h1, Keyboard.special]
    · rw [Option.some.inj h2, Keyboard.special]
    · exact shift_special k special (fun h => h1 (congrArg some h)) fun h => h2 (congrArg some h)
  · rw [heq, hs]
    rfl

/-- A step keeps `shift` right, unless a Shift key goes up while the other one is held. -/
theorem ShiftHeld.step_iff {s : Keyboard × ShiftKeys} (h : ShiftHeld s) (scanCode : Byte) :
    ShiftHeld (shiftStep s scanCode) ↔ LastShift s scanCode := by
  unfold ShiftHeld shiftStep LastShift ShiftKeys.step at *
  dsimp only
  rw [shift_keyboardHandler]
  by_cases h1 : scanCode = 0x2A
  · simp [h1]
  by_cases h2 : scanCode = 0xAA
  · simp [h2]
  by_cases h3 : scanCode = 0x36
  · simp [h3]
  by_cases h4 : scanCode = 0xB6
  · simp [h4]
  rw [if_neg (not_or.2 ⟨h3, h1⟩), if_neg (not_or.2 ⟨h4, h2⟩), if_neg h1, if_neg h2, if_neg h3,
    if_neg h4]
  exact iff_of_true h ⟨fun hup => h2 hup.1, fun hup => h4 hup.1⟩

/-- No Shift key is held. -/
def ShiftKeys.none : ShiftKeys where
  left := false
  right := false

/-- In every state of a run `shift` is set just when a Shift key is held, if no Shift key goes
up while the other one is held, and only then. -/
theorem shift_iff_held (scanCodes : List Byte) :
    (∀ codes, codes <+: scanCodes → ShiftHeld (run shiftStep (.initial, .none) codes)) ↔
      Meets shiftStep LastShift (.initial, .none) scanCodes := by
  have hinitial : ShiftHeld (.initial, .none) := by
    simp [ShiftHeld, Keyboard.initial, ShiftKeys.none]
  exact forall_prefix_iff_meets (fun _ scanCode h => h.step_iff scanCode) hinitial scanCodes

/-- Both Shift keys go down and the left one goes up. -/
theorem not_shiftHeld_both : ¬ShiftHeld (run shiftStep (.initial, .none) [0x2A, 0x36, 0xAA]) := by
  unfold ShiftHeld
  decide

end Scorch
