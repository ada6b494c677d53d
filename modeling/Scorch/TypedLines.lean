import Scorch.Gets
import Scorch.KeyQueue

/-!
# Lines that are typed

The shell reads one line after another with `gets`, which takes a key at a time from the queue
of the keyboard, while interrupts put new keys behind. What the calls store is what a line editor
(`typeKeys`) makes of the keys in the order they were pressed, however the interrupts and the
rounds of the loop follow each other (`results_typed`) : a line is not lost, mixed with the next
one or read twice, also when it was typed before the call for it.

The queue has room for 255 keys (`getchar_returns_pressed`), and `gets` writes in front of its
buffer when there is nothing to erase (`gets_storesLine_iff`), so a run stays within the first
and does not do the second (`ReadSession.Allowed`).
-/

open ByteMemory GuardedRun

namespace Scorch

/-! ## A line editor -/

/-- The lines that are finished and the one that is typed, after one more key. -/
def typeKey (lines : List (List Byte) × List Byte) (k : Byte) : List (List Byte) × List Byte :=
  if k = 0x0a then (lines.1 ++ [lines.2], [])
  else if k = 0x08 then (lines.1, lines.2.dropLast)
  else (lines.1, lines.2 ++ [k])

/-- The lines that the keys make. -/
def typeKeys (keys : List Byte) : List (List Byte) × List Byte :=
  keys.foldl typeKey ([], [])

theorem typeKeys_append (keys : List Byte) (k : Byte) :
    typeKeys (keys ++ [k]) = typeKey (typeKeys keys) k :=
  List.foldl_append

/-- A line that is finished stays. -/
theorem finished_prefix_foldl (keys : List Byte) (lines : List (List Byte) × List Byte) :
    lines.1 <+: (keys.foldl typeKey lines).1 := by
  induction keys generalizing lines with
  | nil => exact List.prefix_rfl
  | cons k keys ih =>
    have hk : lines.1 <+: (typeKey lines k).1 := by
      unfold typeKey
      split_ifs
      · exact List.prefix_append _ _
      · exact List.prefix_rfl
      · exact List.prefix_rfl
    exact hk.trans (ih (typeKey lines k))

/-- Lines that are finished stay finished. -/
theorem finished_prefix (keys more : List Byte) :
    (typeKeys keys).1 <+: (typeKeys (keys ++ more)).1 := by
  rw [typeKeys, typeKeys, List.foldl_append]
  exact finished_prefix_foldl more _

/-- A key has a character, and erases only what there is. -/
def Editable (keys : List Byte) (k : Byte) : Prop :=
  k ≠ 0 ∧ (k = 0x08 → (typeKeys keys).2 ≠ [])

instance (keys : List Byte) (k : Byte) : Decidable (Editable keys k) :=
  inferInstanceAs (Decidable (_ ∧ _))

/-! ## Calls of `gets` beside the interrupts -/

/-- One round of the loop of `gets`, when `getchar` has returned `k` : the call returns, or goes
on at another place. -/
def getsRound (k : Byte) (i : ℤ) (b : LineBuffer) :
    (Option ℤ × LineBuffer) ⊕ (ℤ × LineBuffer) :=
  if k = 0 then .inl (none, b)
  else if k = 0x0a then .inl (some 0, b.store i 0)
  else if k = 0x08 then .inr (i - 1 - 1 + 1, b.store (i - 1) 0)
  else .inr (i + 1, b.store i k)

/-- The loop is made of its rounds. -/
theorem getsFrom_cons (k : Byte) (keys : List Byte) (i : ℤ) (b : LineBuffer) :
    getsFrom (k :: keys) i b =
      (getsRound k i b).elim some fun next => getsFrom keys next.1 next.2 := by
  rw [getsFrom, getsRound]
  split_ifs <;> rfl

/-- The keyboard, the call of `gets` that is under way and the results of those before it. -/
structure ReadSession where
  keys : KeySession
  place : ℤ
  buffer : LineBuffer
  results : List (Option ℤ × LineBuffer)

/-- The first call. The buffer of the call `n` holds `buffers n` before it. -/
def ReadSession.initial (buffers : ℕ → ℤ → Byte) : ReadSession where
  keys := .initial
  place := 0
  buffer := ⟨buffers 0, []⟩
  results := []

/-- A key, or a round of `gets` for the key that `getchar_int` returns. When a call returns, the
next one begins. -/
def lineStep (buffers : ℕ → ℤ → Byte) (s : ReadSession) (event : KeyEvent) : ReadSession :=
  let keys := keyStep s.keys event
  match event with
  | .key _ => { s with keys := keys }
  | .getchar =>
    match getcharInt s.keys.keyboard with
    | none => { s with keys := keys }
    | some (c, _) =>
      match getsRound c s.place s.buffer with
      | .inl result =>
        { keys := keys
          place := 0
          buffer := ⟨buffers (s.results.length + 1), []⟩
          results := s.results ++ [result] }
      | .inr (i, b) => { s with keys := keys, place := i, buffer := b }

namespace ReadSession

/-- There is room for a key that is pressed, and it can be edited. A round is due when a key is
pending. -/
def Allowed (s : ReadSession) : KeyEvent → Prop
  | .key scanCode =>
    s.keys.Allowed (.key scanCode) ∧
      (Ordinary scanCode → Editable s.keys.pressed (s.keys.keyboard.translate scanCode))
  | .getchar => s.keys.Allowed .getchar

instance (s : ReadSession) : ∀ event, Decidable (s.Allowed event)
  | .key scanCode =>
    inferInstanceAs (Decidable (s.keys.Allowed (.key scanCode) ∧
      (Ordinary scanCode → Editable s.keys.pressed (s.keys.keyboard.translate scanCode))))
  | .getchar => inferInstanceAs (Decidable (s.keys.Allowed .getchar))

/-- The calls that have returned have stored the lines that the keys returned make, and the
buffer of the one under way holds the rest of them. -/
structure InStep (s : ReadSession) : Prop where
  conserved : s.keys.Conserved
  editable : ∀ keys k, keys ++ [k] <+: s.keys.pressed → Editable keys k
  results : List.Forall₂ (fun r line => StoresLine (some r) line) s.results
    (typeKeys s.keys.returned).1
  place : s.place = (typeKeys s.keys.returned).2.length
  buffer : s.buffer.Holds (typeKeys s.keys.returned).2

variable {s : ReadSession} {buffers : ℕ → ℤ → Byte}

/-- An empty line needs nothing of the buffer. -/
theorem holds_nil (m : ℤ → Byte) : LineBuffer.Holds ⟨m, []⟩ [] :=
  ⟨fun i hi => absurd hi (Nat.not_lt_zero i), fun _ hi => absurd hi List.not_mem_nil⟩

/-- At the start nothing is typed and nothing is queued. -/
theorem inStep_initial (buffers : ℕ → ℤ → Byte) : (initial buffers).InStep where
  conserved := KeySession.conserved_initial
  editable keys k h := absurd (List.prefix_nil.1 h) (by simp)
  results := List.Forall₂.nil
  place := rfl
  buffer := holds_nil _

/-- A key that is pressed. -/
theorem InStep.key (h : s.InStep) {scanCode : Byte} (hallowed : s.Allowed (.key scanCode)) :
    (lineStep buffers s (.key scanCode)).InStep where
  conserved := h.conserved.key hallowed.1
  editable keys k hprefix := by
    have hpressed : (lineStep buffers s (.key scanCode)).keys.pressed =
        if Ordinary scanCode then s.keys.pressed ++ [s.keys.keyboard.translate scanCode]
        else s.keys.pressed := rfl
    rw [hpressed] at hprefix
    by_cases hordinary : Ordinary scanCode
    · rw [if_pos hordinary, List.prefix_concat_iff] at hprefix
      rcases hprefix with heq | hprefix
      · obtain ⟨rfl, hk⟩ := List.append_inj' heq rfl
        rw [List.singleton_inj.1 hk]
        exact hallowed.2 hordinary
      · exact h.editable keys k hprefix
    · rw [if_neg hordinary] at hprefix
      exact h.editable keys k hprefix
  results := h.results
  place := h.place
  buffer := h.buffer

/-- A round of the loop. -/
theorem InStep.getchar (h : s.InStep) (hallowed : s.Allowed .getchar) :
    (lineStep buffers s .getchar).InStep := by
  have hconserved := h.conserved.getchar hallowed
  have hlength := h.conserved.length_eq
  have hpending : s.keys.keyboard.keyBuffEnd ≠ 0 := by
    have hlt : s.keys.returned.length < s.keys.pressed.length := hallowed
    bv_omega
  -- The code that is read is the next one that was typed.
  obtain ⟨c, k', hget, hcons⟩ := getcharInt_of_pending hpending
  have hkeys : keyStep s.keys .getchar = { s.keys with
      keyboard := k', calls := s.keys.calls + 1, returned := s.keys.returned ++ [c] } := by
    rw [keyStep, hget]
  have hprefix : s.keys.returned ++ [c] <+: s.keys.pressed := by
    rw [← h.conserved.pressed, hcons]
    exact ⟨k'.pending, by rw [List.append_assoc, List.singleton_append]⟩
  obtain ⟨hzero, hback⟩ := h.editable _ _ hprefix
  have htyped := typeKeys_append s.keys.returned c
  rw [hkeys] at hconserved
  rw [lineStep, hkeys, hget]
  dsimp only
  unfold typeKey at htyped
  unfold getsRound
  rw [if_neg hzero]
  -- A newline finishes the line, and the next call starts with an empty one.
  by_cases hnewline : c = 0x0a
  · rw [if_pos hnewline] at htyped ⊢
    refine ⟨hconserved, h.editable, ?_, ?_, ?_⟩ <;> dsimp only <;> rw [htyped]
    · refine List.rel_append h.results (List.Forall₂.cons ?_ List.Forall₂.nil)
      rw [h.place]
      exact h.buffer.storesLine
    · rfl
    · exact holds_nil _
  · rw [if_neg hnewline] at htyped ⊢
    -- A backspace takes the last character, and any other code is added.
    by_cases hc : c = 0x08
    · rw [if_pos hc] at htyped ⊢
      have hpos : 1 ≤ (typeKeys s.keys.returned).2.length :=
        List.length_pos_iff.2 (hback hc)
      refine ⟨hconserved, h.editable, ?_, ?_, ?_⟩ <;> dsimp only <;> rw [htyped]
      · exact h.results
      · rw [h.place, List.length_dropLast]
        omega
      · rw [h.place]
        exact h.buffer.pop hpos
    · rw [if_neg hc] at htyped ⊢
      refine ⟨hconserved, h.editable, ?_, ?_, ?_⟩ <;> dsimp only <;> rw [htyped]
      · exact h.results
      · rw [h.place, List.length_append]
        rfl
      · rw [h.place]
        exact h.buffer.push c

/-- Every event keeps the reader and the line editor in step. -/
theorem InStep.step (h : s.InStep) {event : KeyEvent} (hallowed : s.Allowed event) :
    (lineStep buffers s event).InStep := by
  cases event with
  | key scanCode => exact h.key hallowed
  | getchar => exact h.getchar hallowed

/-- What has returned is what calls of `gets` return, and the one under way is such a call. -/
structure Calls (buffers : ℕ → ℤ → Byte) (s : ReadSession) : Prop where
  results : ∀ n r, s.results[n]? = some r → ∃ keys, gets keys (buffers n) = some r
  current : ∃ keys, ∀ rest,
    gets (keys ++ rest) (buffers s.results.length) = getsFrom rest s.place s.buffer

/-- At the start `gets` has not been called. -/
theorem calls_initial (buffers : ℕ → ℤ → Byte) : (initial buffers).Calls buffers where
  results _ _ h := absurd h (by simp [initial])
  current := ⟨[], fun _ => rfl⟩

/-- An event makes at most one call return, and the next one starts with its own buffer. -/
theorem Calls.step (h : s.Calls buffers) (event : KeyEvent) :
    (lineStep buffers s event).Calls buffers := by
  cases event with
  | key scanCode => exact ⟨h.results, h.current⟩
  | getchar =>
    cases hget : getcharInt s.keys.keyboard with
    | none =>
      rw [lineStep, hget]
      exact ⟨h.results, h.current⟩
    | some next =>
      obtain ⟨c, k'⟩ := next
      obtain ⟨keys, hkeys⟩ := h.current
      -- The call that is under way reads one code more.
      have hround : ∀ rest, gets (keys ++ [c] ++ rest) (buffers s.results.length) =
          (getsRound c s.place s.buffer).elim some fun next => getsFrom rest next.1 next.2 := by
        intro rest
        rw [List.append_assoc, List.singleton_append, hkeys, getsFrom_cons]
      rw [lineStep, hget]
      dsimp only
      cases hr : getsRound c s.place s.buffer with
      | inr next =>
        rw [hr] at hround
        exact ⟨h.results, keys ++ [c], hround⟩
      -- It returns with this code. What had returned before stays.
      | inl result =>
        rw [hr] at hround
        refine ⟨fun n r hn => ?_, [], fun rest => ?_⟩
        · dsimp only at hn
          rcases Nat.lt_or_ge n s.results.length with hlt | hge
          · rw [List.getElem?_append_left hlt] at hn
            exact h.results n r hn
          · rw [List.getElem?_append_right hge, List.getElem?_singleton] at hn
            have hzero : n - s.results.length = 0 := by
              by_contra hne
              rw [if_neg hne] at hn
              cases hn
            rw [if_pos hzero] at hn
            have hlast : n = s.results.length := by omega
            refine ⟨keys ++ [c], ?_⟩
            rw [hlast, ← hn, ← List.append_nil (keys ++ [c]), hround]
            rfl
        · rw [List.length_append]
          rfl

end ReadSession

/-- However the keys and the rounds of `gets` follow each other : what has returned are calls of
`gets`, they have stored the first lines of what has been typed, and all of them when no key is
pending. -/
theorem results_typed (buffers : ℕ → ℤ → Byte) {events : List KeyEvent}
    (h : Meets (lineStep buffers) ReadSession.Allowed (.initial buffers) events)
    {s : ReadSession} (hs : run (lineStep buffers) (.initial buffers) events = s) :
    (∀ n r, s.results[n]? = some r → ∃ keys, gets keys (buffers n) = some r) ∧
      List.Forall₂ (fun r line => StoresLine (some r) line) s.results
        ((typeKeys s.keys.pressed).1.take s.results.length) ∧
      (s.keys.keyboard.pending = [] → s.results.length = (typeKeys s.keys.pressed).1.length) := by
  have hstep : s.InStep := hs ▸ h.invariant (fun _ _ hs hallowed => hs.step hallowed)
    (ReadSession.inStep_initial buffers)
  have hcalls : s.Calls buffers := hs ▸ h.invariant (fun _ event hs _ => hs.step event)
    (ReadSession.calls_initial buffers)
  have hlength := hstep.results.length_eq
  have hpressed := hstep.conserved.pressed
  refine ⟨hcalls.results, ?_, ?_⟩
  · have hprefix := finished_prefix s.keys.returned s.keys.keyboard.pending
    rw [hpressed] at hprefix
    rw [hlength, ← List.prefix_iff_eq_take.1 hprefix]
    exact hstep.results
  · intro hnone
    rw [hnone, List.append_nil] at hpressed
    rw [hlength, hpressed]

/-- The line `a`, and the line `b` with a key that is erased, typed while the first is read. -/
def twoLines : List KeyEvent :=
  [.key 0x1E, .getchar, .key 0x1C, .key 0x30, .getchar, .key 0x30, .key 0x0E, .getchar, .key 0x1C,
    .getchar, .getchar, .getchar]

/-- Two lines typed while they are read. -/
theorem results_typed_two :
    Meets (lineStep fun _ _ => 0x78) ReadSession.Allowed (.initial fun _ _ => 0x78) twoLines ∧
      let s := run (lineStep fun _ _ => 0x78) (.initial fun _ _ => 0x78) twoLines
      (∀ (n : ℕ) r, s.results[n]? = some r → ∃ keys, gets keys (fun _ => 0x78) = some r) ∧
        List.Forall₂ (fun r line => StoresLine (some r) line) s.results
          ((typeKeys s.keys.pressed).1.take s.results.length) ∧
        (s.keys.keyboard.pending = [] → s.results.length = (typeKeys s.keys.pressed).1.length) := by
  have hmeets : Meets (lineStep fun _ _ => 0x78) ReadSession.Allowed
      (.initial fun _ _ => 0x78) twoLines := by
    decide
  exact ⟨hmeets, results_typed (fun _ _ => 0x78) hmeets rfl⟩

end Scorch
