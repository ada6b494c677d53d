import Mathlib.Logic.Function.Basic
import Mathlib.Tactic.SplitIfs
import Scorch.Lib.ByteMemory
import Scorch.Lib.ShiftQueue

/-!
# The keyboard

`keyboard_handler` of `kb.c` takes a scan code, lets `kb_special` deal with the keys that only
set a flag, and puts the character of any other key that goes down into `keyBuff`.
`getchar_int` takes a character out again.

The state is the variables of the driver. A flag that is `0` or `1` is a `Bool`. The
characters that are echoed and the bytes that are sent to port `0x60` are logged. A call of
`getchar_int` with no key in the buffer waits, and has no result.
-/

open ByteMemory ShiftQueue

namespace Scorch

/-! ## Constants and variables -/

/-- `ScrollLock`. -/
def scrollLock : Byte := 0x01

/-- `NumLock`. -/
def numLock : Byte := 0x02

/-- `CapsLock`. -/
def capsLock : Byte := 0x04

/-- `kbScanCodes`, in the lines of the source. -/
def kbScanCodes : List Byte :=
  [
    -- Normal
    0, 27, 49, 50, 51, 52, 53, 54, 55, 56, 57, 48, 45, 61, 8,
    9, 113, 119, 101, 114, 116, 121, 117, 105, 111, 112, 91, 93, 10, 0,
    97, 115, 100, 102, 103, 104, 106, 107, 108, 59, 39, 96, 0,
    92, 122, 120, 99, 118, 98, 110, 109, 44, 46, 47, 0,
    42, 0, 32, 0, 0, 0, 0, 0, 0, 0, 0, 0, 0,
    0, 0, 0, 0, 0, 0, 45, 0, 0, 0, 43, 0,
    0, 0, 0, 0, 0, 0, 0, 0, 0, 0, 0, 0,
    0, 0, 0, 0, 0, 0, 0, 0, 0, 0, 0, 0,
    0, 0, 0, 0, 0, 0, 0, 0, 0, 0, 0, 0,
    0, 0, 0, 0, 0, 0, 0, 0, 0, 0, 0, 0,
    -- Shifted
    0, 27, 33, 64, 35, 36, 37, 94, 38, 42, 40, 41, 95, 43, 8,
    9, 81, 87, 69, 82, 84, 89, 85, 73, 79, 80, 123, 125, 10, 0,
    65, 83, 68, 70, 71, 72, 74, 75, 76, 58, 39, 126, 0,
    124, 90, 88, 67, 86, 66, 78, 77, 60, 62, 63, 0,
    42, 0, 32, 0, 0, 0, 0, 0, 0, 0, 0, 0,
    0, 0, 0, 0, 55, 56, 57, 0, 52, 53, 54, 0,
    49, 50, 51, 48, 0, 0, 0, 0, 0, 0, 0, 0,
    0, 0, 0, 0, 0, 0, 0, 0, 0, 0, 0, 0, 0,
    0, 0, 0, 0, 0, 0, 0, 0, 0, 0, 0, 0,
    0, 0, 0, 0, 0, 0, 0, 0, 0, 0, 0, 0,
    -- Caps, Normal
    0, 27, 49, 50, 51, 52, 53, 54, 55, 56, 57, 48, 45, 61, 8,
    9, 81, 87, 69, 82, 84, 89, 85, 73, 79, 80, 123, 125, 10, 0,
    65, 83, 68, 70, 71, 72, 74, 75, 76, 58, 39, 126, 0,
    124, 90, 88, 67, 86, 66, 78, 77, 60, 62, 63, 0,
    42, 0, 32, 0, 0, 0, 0, 0, 0, 0, 0, 0, 0,
    0, 0, 0, 0, 0, 0, 45, 0, 0, 0, 43, 0,
    0, 0, 0, 0, 0, 0, 0, 0, 0, 0, 0, 0,
    0, 0, 0, 0, 0, 0, 0, 0, 0, 0, 0, 0,
    0, 0, 0, 0, 0, 0, 0, 0, 0, 0, 0, 0,
    0, 0, 0, 0, 0, 0, 0, 0, 0, 0, 0, 0,
    -- Caps, Shifted
    0, 27, 33, 64, 35, 36, 37, 94, 38, 42, 40, 41, 95, 43, 8,
    9, 113, 119, 101, 114, 116, 121, 117, 105, 111, 112, 91, 93, 10, 0,
    97, 115, 100, 102, 103, 104, 106, 107, 108, 59, 39, 96, 0,
    92, 122, 120, 99, 118, 98, 110, 109, 44, 46, 47, 0,
    42, 0, 32, 0, 0, 0, 0, 0, 0, 0, 0, 0, 0,
    0, 0, 0, 0, 0, 0, 45, 0, 0, 0, 43, 0,
    0, 0, 0, 0, 0, 0, 0, 0, 0, 0, 0, 0,
    0, 0, 0, 0, 0, 0, 0, 0, 0, 0, 0, 0,
    0, 0, 0, 0, 0, 0, 0, 0, 0, 0, 0, 0,
    0, 0, 0, 0, 0, 0, 0, 0, 0, 0, 0, 0]

/-- The variables of `kb.c`, with what goes to the screen and to port `0x60`. -/
structure Keyboard where
  shift : Bool
  ctrl : Bool
  alt : Bool
  caps : Bool
  num : Bool
  keyBuff : ℕ → Byte
  keyBuffEnd : Byte
  leds : Byte
  echoON : Bool
  specKeyUp : Bool
  echoed : List Byte
  sent : List Byte

/-- The driver before the first interrupt. -/
def Keyboard.initial : Keyboard where
  shift := false
  ctrl := false
  alt := false
  caps := false
  num := false
  keyBuff := fun _ => 0
  keyBuffEnd := 0
  leds := 0
  echoON := true
  specKeyUp := true
  echoed := []
  sent := []

/-! ## Special keys -/

/-- What `UpdateLeds` makes of `leds`. -/
def toggleLeds (leds led : Byte) : Byte :=
  if led = 0 then 0
  else if leds = leds ||| led then leds ^^^ led
  else leds ||| led

/-- `UpdateLeds` -/
def updateLeds (led : Byte) (k : Keyboard) : Keyboard :=
  let leds := toggleLeds k.leds led
  { k with leds := leds, sent := k.sent ++ [0xED, leds] }

/-- The cases of the `switch` of `kb_special`. -/
inductive SpecialKey where
  | shiftDown
  | shiftUp
  | ctrlDown
  | ctrlUp
  | altDown
  | altUp
  | capsDown
  | numDown
  | scrollDown
  | lockUp
  | extended
deriving DecidableEq

/-- The case of a scan code. -/
def specialKey (key : Byte) : Option SpecialKey :=
  if key = 0x36 ∨ key = 0x2A then some .shiftDown
  else if key = 0xB6 ∨ key = 0xAA then some .shiftUp
  else if key = 0x1D then some .ctrlDown
  else if key = 0x9D then some .ctrlUp
  else if key = 0x38 then some .altDown
  else if key = 0xB8 then some .altUp
  else if key = 0x3A then some .capsDown
  else if key = 0x45 then some .numDown
  else if key = 0x46 then some .scrollDown
  else if key = 0xBA ∨ key = 0xC5 ∨ key = 0xC6 then some .lockUp
  else if key = 0xE0 then some .extended
  else none

/-- What is done in a case. -/
def Keyboard.special (k : Keyboard) : SpecialKey → Keyboard
  | .shiftDown => { k with shift := true }
  | .shiftUp => { k with shift := false }
  | .ctrlDown => { k with ctrl := true }
  | .ctrlUp => { k with ctrl := false }
  | .altDown => { k with alt := true }
  | .altUp => { k with alt := false }
  | .capsDown =>
    if k.specKeyUp then
      { updateLeds capsLock { k with caps := !k.caps } with specKeyUp := false }
    else k
  | .numDown =>
    if k.specKeyUp then
      { updateLeds numLock { k with num := !k.num } with specKeyUp := false }
    else k
  | .scrollDown =>
    if k.specKeyUp then
      { updateLeds scrollLock { k with num := !k.num } with specKeyUp := false }
    else k
  | .lockUp => { k with specKeyUp := true }
  | .extended => k

/-- `kb_special`, with its result. -/
def kbSpecial (key : Byte) (k : Keyboard) : Bool × Keyboard :=
  match specialKey key with
  | none => (false, k)
  | some special => (true, k.special special)

/-- No special key touches the buffer. -/
@[simp] theorem Keyboard.keyBuff_special (k : Keyboard) (special : SpecialKey) :
    (k.special special).keyBuff = k.keyBuff := by
  cases special <;> simp only [Keyboard.special, updateLeds] <;> split_ifs <;> rfl

@[simp] theorem Keyboard.keyBuffEnd_special (k : Keyboard) (special : SpecialKey) :
    (k.special special).keyBuffEnd = k.keyBuffEnd := by
  cases special <;> simp only [Keyboard.special, updateLeds] <;> split_ifs <;> rfl

/-! ## Characters -/

/-- The character of a scan code, from the table that the flags choose. -/
def Keyboard.translate (k : Keyboard) (scanCode : Byte) : Byte :=
  let offset :=
    if k.shift then
      if !k.caps then 128 else 384
    else
      if !k.caps then 0 else 256
  kbScanCodes.getD (scanCode.toNat + offset) 0

/-- A character goes to the end of the buffer, and to the screen. -/
def Keyboard.put (k : Keyboard) (asciiCode : Byte) : Keyboard :=
  let keyBuffEnd := k.keyBuffEnd + 1
  let keyBuff := Function.update k.keyBuff keyBuffEnd.toNat asciiCode
  { k with
    keyBuffEnd := keyBuffEnd
    keyBuff := keyBuff
    echoed := if k.echoON then k.echoed ++ [keyBuff keyBuffEnd.toNat] else k.echoed }

/-- `keyboard_handler` -/
def keyboardHandler (k : Keyboard) (scanCode : Byte) : Keyboard :=
  let (special, k) := kbSpecial scanCode k
  if !(special || decide (0x80 ≤ scanCode)) then k.put (k.translate scanCode) else k

/-- A code that is not special and goes down. -/
def Ordinary (scanCode : Byte) : Prop :=
  (specialKey scanCode).isNone ∧ scanCode < 0x80

instance (scanCode : Byte) : Decidable (Ordinary scanCode) :=
  inferInstanceAs (Decidable (_ ∧ _))

/-- The characters of the keys go to the buffer. -/
theorem keyboardHandler_of_ordinary {scanCode : Byte} (h : Ordinary scanCode) (k : Keyboard) :
    keyboardHandler k scanCode = k.put (k.translate scanCode) := by
  have hdown : ¬(0x80 : Byte) ≤ scanCode := BitVec.not_le.2 h.2
  have hspecial : kbSpecial scanCode k = (false, k) := by
    rw [kbSpecial, Option.isNone_iff_eq_none.1 h.1]
  rw [keyboardHandler, hspecial]
  dsimp only
  rw [decide_eq_false hdown]
  rfl

/-- A special code is left to `kb_special`. -/
theorem keyboardHandler_of_special {scanCode : Byte} {special : SpecialKey}
    (h : specialKey scanCode = some special) (k : Keyboard) :
    keyboardHandler k scanCode = k.special special := by
  rw [keyboardHandler, kbSpecial, h]
  rfl

/-- A code that is not special, of a key that goes up, does nothing. -/
theorem keyboardHandler_of_up {scanCode : Byte} (h : specialKey scanCode = none)
    (hup : 0x80 ≤ scanCode) (k : Keyboard) : keyboardHandler k scanCode = k := by
  rw [keyboardHandler, kbSpecial, h]
  dsimp only
  rw [decide_eq_true hup]
  rfl

/-- What the handler does, by the scan code. -/
theorem keyboardHandler_cases (k : Keyboard) (scanCode : Byte) :
    (Ordinary scanCode ∧ keyboardHandler k scanCode = k.put (k.translate scanCode)) ∨
      ¬Ordinary scanCode ∧
        ((∃ special, specialKey scanCode = some special ∧
            keyboardHandler k scanCode = k.special special) ∨
          specialKey scanCode = none ∧ keyboardHandler k scanCode = k) := by
  by_cases h : Ordinary scanCode
  · exact Or.inl ⟨h, keyboardHandler_of_ordinary h k⟩
  refine Or.inr ⟨h, ?_⟩
  cases hspecial : specialKey scanCode with
  | none =>
    have hup : 0x80 ≤ scanCode :=
      BitVec.not_lt.1 fun hdown => h ⟨Option.isNone_iff_eq_none.2 hspecial, hdown⟩
    exact Or.inr ⟨rfl, keyboardHandler_of_up hspecial hup k⟩
  | some special => exact Or.inl ⟨special, rfl, keyboardHandler_of_special hspecial k⟩

/-- `getchar_int` -/
def getcharInt (k : Keyboard) : Option (Byte × Keyboard) :=
  if k.keyBuffEnd = 0 then none
  else
    let keyBuff := ShiftQueue.shift k.keyBuff k.keyBuffEnd.toNat
    some (keyBuff 0, { k with keyBuff := keyBuff, keyBuffEnd := k.keyBuffEnd - 1 })

end Scorch
