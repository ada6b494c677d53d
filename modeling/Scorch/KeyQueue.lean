import Scorch.Keyboard
import Scorch.Lib.GuardedRun

/-!
# The keys that are pending

The keys that have been pressed and not been returned are in the slots `1`, …, `keyBuffEnd` of
the buffer (`Keyboard.pending`). A key that is pressed goes to the end of them and
`getchar_int` returns the first, so what is returned, followed by what is pending, is what has
been pressed, as long as at most 255 keys are pending (`getchar_returns_pressed`).

With 255 keys pending `keyBuffEnd` goes from `255` to `0` at the next key, and nothing is
pending any more. A key that is pressed keeps the queue just when there is room for it
(`keepsQueue_iff_room`).
-/

open ByteMemory GuardedRun ShiftQueue

namespace Scorch

/-! ## The queue -/

/-- The queue of keys. -/
def Keyboard.pending (k : Keyboard) : List Byte :=
  slots k.keyBuff k.keyBuffEnd.toNat

section Handler

variable {k : Keyboard} {scanCode : Byte}

/-- Keys that are not ordinary queue nothing. -/
theorem pending_of_not_ordinary (h : ¬Ordinary scanCode) (k : Keyboard) :
    (keyboardHandler k scanCode).pending = k.pending := by
  rcases keyboardHandler_cases k scanCode with ⟨hordinary, -⟩ | ⟨-, ⟨special, -, heq⟩ | ⟨-, heq⟩⟩
  · exact absurd hordinary h
  · rw [heq, Keyboard.pending, Keyboard.keyBuff_special, Keyboard.keyBuffEnd_special,
      Keyboard.pending]
  · rw [heq]

/-- With room in the buffer the key is behind the others. -/
theorem pending_put (h : k.keyBuffEnd ≠ 255) (c : Byte) :
    (k.put c).pending = k.pending ++ [c] := by
  have hend : (k.keyBuffEnd + 1).toNat = k.keyBuffEnd.toNat + 1 := by bv_omega
  unfold Keyboard.put Keyboard.pending
  dsimp only
  rw [hend, slots_update]

/-- Without room, nothing is pending. -/
theorem pending_put_full (h : k.keyBuffEnd = 255) (c : Byte) : (k.put c).pending = [] := by
  unfold Keyboard.put Keyboard.pending
  dsimp only
  rw [h]
  rfl

@[simp] theorem length_pending (k : Keyboard) : k.pending.length = k.keyBuffEnd.toNat :=
  length_slots _ _

/-- `getchar_int` takes the first key. -/
theorem getcharInt_of_pending (h : k.keyBuffEnd ≠ 0) :
    ∃ c k', getcharInt k = some (c, k') ∧ k.pending = c :: k'.pending := by
  refine ⟨_, _, if_neg h, ?_⟩
  obtain ⟨n, hn⟩ : ∃ n, k.keyBuffEnd.toNat = n + 1 := ⟨k.keyBuffEnd.toNat - 1, by bv_omega⟩
  have hend : (k.keyBuffEnd - 1).toNat = n := by bv_omega
  unfold Keyboard.pending
  dsimp only
  rw [hend, hn, slots_succ_eq_cons]

end Handler

/-! ## Interrupts and reads -/

/-- What can happen : an interrupt with a scan code, or a call of `getchar_int`. -/
inductive KeyEvent where
  | key (scanCode : Byte)
  | getchar

/-- The driver, with the characters of the keys that have been pressed, the calls of
`getchar_int` that have been made and the characters that they have returned. -/
structure KeySession where
  keyboard : Keyboard
  pressed : List Byte
  calls : ℕ
  returned : List Byte

/-- Nothing has happened. -/
def KeySession.initial : KeySession where
  keyboard := .initial
  pressed := []
  calls := 0
  returned := []

/-- A call of `getchar_int` that waits returns nothing. -/
def keyStep (s : KeySession) : KeyEvent → KeySession
  | .key scanCode =>
    { s with
      keyboard := keyboardHandler s.keyboard scanCode
      pressed :=
        if Ordinary scanCode then s.pressed ++ [s.keyboard.translate scanCode] else s.pressed }
  | .getchar =>
    match getcharInt s.keyboard with
    | none => { s with calls := s.calls + 1 }
    | some (c, keyboard) =>
      { s with keyboard := keyboard, calls := s.calls + 1, returned := s.returned ++ [c] }

namespace KeySession

/-- After the event at most 255 keys have been pressed and not been returned, and a call of
`getchar_int` is made when there is such a key. -/
def Allowed (s : KeySession) : KeyEvent → Prop
  | .key scanCode => Ordinary scanCode → s.pressed.length < s.returned.length + 255
  | .getchar => s.returned.length < s.pressed.length

instance (s : KeySession) : ∀ event, Decidable (s.Allowed event)
  | .key scanCode =>
    inferInstanceAs (Decidable (Ordinary scanCode → s.pressed.length < s.returned.length + 255))
  | .getchar => inferInstanceAs (Decidable (s.returned.length < s.pressed.length))

/-- Every call has returned, and what has been pressed has been returned or is pending, in this
order. -/
structure Conserved (s : KeySession) : Prop where
  returned : s.returned.length = s.calls
  pressed : s.returned ++ s.keyboard.pending = s.pressed

theorem conserved_initial : initial.Conserved :=
  ⟨rfl, rfl⟩

/-- The keys are read or still in the queue. -/
theorem Conserved.length_eq {s : KeySession} (h : s.Conserved) :
    s.returned.length + s.keyboard.keyBuffEnd.toNat = s.pressed.length := by
  rw [← h.pressed, List.length_append, length_pending]

/-- A key goes to the end of the queue. -/
theorem Conserved.key {s : KeySession} (h : s.Conserved) {scanCode : Byte}
    (hallowed : s.Allowed (.key scanCode)) : (keyStep s (.key scanCode)).Conserved := by
  have hlength := h.length_eq
  refine ⟨h.returned, ?_⟩
  show s.returned ++ (keyboardHandler s.keyboard scanCode).pending =
    if Ordinary scanCode then _ else _
  by_cases hordinary : Ordinary scanCode
  · have hroom : s.keyboard.keyBuffEnd ≠ 255 := by
      have hlt := hallowed hordinary
      bv_omega
    rw [if_pos hordinary, keyboardHandler_of_ordinary hordinary, pending_put hroom,
      ← List.append_assoc, h.pressed]
  · rw [if_neg hordinary, pending_of_not_ordinary hordinary, h.pressed]

theorem Conserved.getchar {s : KeySession} (h : s.Conserved) (hallowed : s.Allowed .getchar) :
    (keyStep s .getchar).Conserved := by
  have hlength := h.length_eq
  have hpending : s.keyboard.keyBuffEnd ≠ 0 := by
    have hlt : s.returned.length < s.pressed.length := hallowed
    bv_omega
  obtain ⟨c, k', hget, hcons⟩ := getcharInt_of_pending hpending
  rw [keyStep, hget]
  constructor
  · show (s.returned ++ [c]).length = s.calls + 1
    rw [List.length_append, h.returned, List.length_singleton]
  · show (s.returned ++ [c]) ++ k'.pending = s.pressed
    rw [List.append_assoc, List.singleton_append, ← hcons, h.pressed]

theorem Conserved.step {s : KeySession} (h : s.Conserved) {event : KeyEvent}
    (hallowed : s.Allowed event) : (keyStep s event).Conserved := by
  cases event with
  | key scanCode => exact h.key hallowed
  | getchar => exact h.getchar hallowed

end KeySession

/-- In every run with at most 255 keys pending every call of `getchar_int` has returned, and
the characters returned are those of the keys in the order they were pressed, and the others
are pending. -/
theorem getchar_returns_pressed {events : List KeyEvent}
    (h : Meets keyStep KeySession.Allowed .initial events) :
    (run keyStep .initial events).Conserved :=
  h.invariant (fun _ _ hs hallowed => hs.step hallowed) KeySession.conserved_initial

/-- Two keys, the second with the shift key down, and two calls. -/
theorem getchar_returns_pressed_two :
    (run keyStep .initial
      [.key 0x1E, .key 0x2A, .key 0x30, .getchar, .key 0xAA, .getchar]).Conserved :=
  getchar_returns_pressed (by decide)

/-! ## A full buffer -/

namespace KeySession

/-- A key leaves the queue as it is, or goes to its end. -/
def KeepsQueue (s : KeySession) : KeyEvent → Prop
  | .key scanCode =>
    (keyStep s (.key scanCode)).keyboard.pending = s.keyboard.pending ∨
      (keyStep s (.key scanCode)).keyboard.pending =
        s.keyboard.pending ++ [s.keyboard.translate scanCode]
  | .getchar => True

/-- There is room for a key that is pressed. -/
def Room (s : KeySession) : KeyEvent → Prop
  | .key scanCode => Ordinary scanCode → s.keyboard.keyBuffEnd ≠ 255
  | .getchar => True

/-- Only a key that is pressed when the buffer is full does not keep the queue. -/
theorem keepsQueue_iff (s : KeySession) (event : KeyEvent) : s.KeepsQueue event ↔ s.Room event := by
  cases event with
  | getchar => exact Iff.rfl
  | key scanCode =>
    unfold KeepsQueue Room keyStep
    dsimp only
    constructor
    · intro hkeeps hordinary hfull
      rw [keyboardHandler_of_ordinary hordinary, pending_put_full hfull] at hkeeps
      have hlength : s.keyboard.pending.length = 255 := by
        rw [length_pending, hfull]
        rfl
      rcases hkeeps with hkeeps | hkeeps
      · rw [← hkeeps] at hlength
        exact absurd hlength (by decide)
      · exact List.append_ne_nil_of_right_ne_nil _ (List.cons_ne_nil _ _) hkeeps.symm
    · intro hroom
      by_cases hordinary : Ordinary scanCode
      · rw [keyboardHandler_of_ordinary hordinary]
        exact Or.inr (pending_put (hroom hordinary) _)
      · exact Or.inl (pending_of_not_ordinary hordinary _)

end KeySession

/-- In every run, a key that is pressed never loses or changes a key of the queue, just when
there is always room for it. -/
theorem keepsQueue_iff_room (events : List KeyEvent) :
    Meets keyStep KeySession.KeepsQueue .initial events ↔
      Meets keyStep KeySession.Room .initial events :=
  meets_congr KeySession.keepsQueue_iff _ _

/-- After `n` keys without a call the end of the buffer is `n`, modulo `256`. -/
theorem keyBuffEnd_run_replicate {scanCode : Byte} (h : Ordinary scanCode) (s : KeySession)
    (n : ℕ) :
    (run keyStep s (List.replicate n (.key scanCode))).keyboard.keyBuffEnd =
      s.keyboard.keyBuffEnd + BitVec.ofNat 8 n := by
  induction n generalizing s with
  | zero => simp
  | succ n ih =>
    have hstep : (keyStep s (.key scanCode)).keyboard.keyBuffEnd = s.keyboard.keyBuffEnd + 1 := by
      rw [keyStep, keyboardHandler_of_ordinary h]
      rfl
    rw [List.replicate_succ, run_cons, ih, hstep]
    bv_omega

/-- After 255 keys the next one loses them all. -/
theorem not_keepsQueue_replicate :
    ¬(run keyStep .initial (List.replicate 255 (.key 0x1E))).KeepsQueue (.key 0x1E) := by
  rw [KeySession.keepsQueue_iff]
  intro hroom
  refine hroom (by decide) ?_
  rw [keyBuffEnd_run_replicate (by decide)]
  rfl

end Scorch
