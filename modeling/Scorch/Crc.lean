import Mathlib.Algebra.CharP.Two
import Mathlib.Algebra.Field.ZMod
import Mathlib.Tactic.ComputeDegree
import Mathlib.Tactic.LinearCombination
import Scorch.Lib.ByteMemory
import Scorch.Lib.ShiftRegister

/-!
# The checksum of a token

`MakeCRC5` of `usb.c` runs the bits of a string through a register of five bits. What it returns
is the remainder of the bits, five places further up, by `X ^ 5 + X ^ 2 + 1` over the field of two
elements (`message_makeCRC5`). So bits with their checksum behind them have the checksum zero
(`makeCRC5_checked`), a burst of at most five wrong bits changes the checksum (`makeCRC5_burst`),
and so it is seen in what has been sent (`burst_detected`).

The register is read as a polynomial of degree below five, and a round of the loop multiplies it
by `X`, adds the bit and reduces. This is the step of a general shift register, so the whole loop
is the remainder by the induction that is done there once.
-/

open Polynomial ByteMemory ShiftRegister

namespace Scorch

/-! ## The function -/

/-- The array `CRC`. -/
structure Crc where
  crc0 : Byte
  crc1 : Byte
  crc2 : Byte
  crc3 : Byte
  crc4 : Byte

/-- A round of the loop. -/
def Crc.round (crc : Crc) (bit : Byte) : Crc :=
  let doInvert := (if bit = 0x31 then 1 else 0) ^^^ crc.crc4
  { crc4 := crc.crc3
    crc3 := crc.crc2
    crc2 := crc.crc1 ^^^ doInvert
    crc1 := crc.crc0
    crc0 := doInvert }

/-- `CRC[i] ? '1' : '0'` -/
def crcDigit (b : Byte) : Byte :=
  if b ≠ 0 then 0x31 else 0x30

/-- `Res`, in front of its terminator. -/
def Crc.res (crc : Crc) : List Byte :=
  [crcDigit crc.crc4, crcDigit crc.crc3, crcDigit crc.crc2, crcDigit crc.crc1, crcDigit crc.crc0]

/-- `MakeCRC5`, on the bytes of `BitString` in front of its terminator. -/
def makeCRC5 (bitString : List Byte) : List Byte :=
  (bitString.foldl Crc.round ⟨0, 0, 0, 0, 0⟩).res

/-! ## The register -/

/-- The bit that a character stands for. -/
def bitValue (c : Byte) : ZMod 2 :=
  if c = 0x31 then 1 else 0

/-- The last bit of a byte. -/
def lowBit (b : Byte) : ZMod 2 :=
  if b.getLsbD 0 then 1 else 0

/-- The low bit of a bit is its value modulo two, and exclusive or adds. -/
theorem lowBit_xor (a b : Byte) : lowBit (a ^^^ b) = lowBit a + lowBit b := by
  unfold lowBit
  rw [BitVec.getLsbD_xor]
  cases a.getLsbD 0 <;> cases b.getLsbD 0 <;> decide

/-- The divisor. -/
noncomputable def crcGenerator : (ZMod 2)[X] :=
  X ^ 5 + X ^ 2 + 1

noncomputable def Crc.poly (crc : Crc) : (ZMod 2)[X] :=
  message [lowBit crc.crc4, lowBit crc.crc3, lowBit crc.crc2, lowBit crc.crc1, lowBit crc.crc0]

theorem monic_crcGenerator : crcGenerator.Monic := by
  unfold crcGenerator
  monicity!

theorem natDegree_crcGenerator : crcGenerator.natDegree = 5 := by
  unfold crcGenerator
  compute_degree!

/-- The generator has a constant term. -/
theorem isCoprime_crcGenerator : IsCoprime crcGenerator X :=
  ⟨1, -(X ^ 4 + X), by
    unfold crcGenerator
    ring⟩

/-- A round multiplies by `X`, takes the next bit in above and subtracts the divisor when the
highest bit is set. -/
theorem dvd_round (crc : Crc) (bit : Byte) :
    crcGenerator ∣ (crc.round bit).poly - (X * crc.poly + C (bitValue bit) * X ^ 5) := by
  have hbit : lowBit (if bit = 0x31 then 1 else 0) = bitValue bit := by
    unfold bitValue
    split_ifs <;> decide
  have htwo : (2 : (ZMod 2)[X]) = 0 := CharTwo.two_eq_zero
  refine ⟨C (bitValue bit + lowBit crc.crc4), ?_⟩
  simp only [Crc.poly, Crc.round, crcGenerator, message, List.foldl_cons, List.foldl_nil,
    lowBit_xor, hbit, C_add]
  linear_combination (-(C (bitValue bit) + C (lowBit crc.crc4)) * X ^ 5) * htwo

/-! ## Bits as characters -/

/-- Every element of the array is a bit. -/
def Crc.Binary (crc : Crc) : Prop :=
  ∀ b ∈ [crc.crc4, crc.crc3, crc.crc2, crc.crc1, crc.crc0], b = 0 ∨ b = 1

/-- A round leaves zeros and ones in the register. -/
theorem Crc.Binary.round {crc : Crc} (h : crc.Binary) (bit : Byte) : (crc.round bit).Binary := by
  have hxor : ∀ {a b : Byte}, a = 0 ∨ a = 1 → b = 0 ∨ b = 1 → a ^^^ b = 0 ∨ a ^^^ b = 1 := by
    rintro a b (rfl | rfl) (rfl | rfl) <;> decide
  have hbit : (if bit = 0x31 then (1 : Byte) else 0) = 0 ∨
      (if bit = 0x31 then (1 : Byte) else 0) = 1 := by
    split_ifs
    · exact Or.inr rfl
    · exact Or.inl rfl
  simp only [Crc.Binary, List.forall_mem_cons] at h ⊢
  obtain ⟨h4, h3, h2, h1, h0, hnil⟩ := h
  exact ⟨h3, h2, hxor h1 (hxor hbit h4), h0, hxor hbit h4, hnil⟩

theorem binary_foldl (bitString : List Byte) :
    (bitString.foldl Crc.round ⟨0, 0, 0, 0, 0⟩).Binary := by
  induction bitString using List.reverseRecOn with
  | nil => simp [Crc.Binary]
  | append_singleton bs b ih =>
    rw [List.foldl_append]
    exact ih.round b

/-- The result is the register, from the highest bit down. -/
theorem Crc.Binary.map_res {crc : Crc} (h : crc.Binary) :
    crc.res.map bitValue = [lowBit crc.crc4, lowBit crc.crc3, lowBit crc.crc2, lowBit crc.crc1,
      lowBit crc.crc0] := by
  have hdigit : ∀ b : Byte, b = 0 ∨ b = 1 → bitValue (crcDigit b) = lowBit b := by
    rintro b (rfl | rfl) <;> decide
  simp only [Crc.Binary, List.forall_mem_cons] at h
  obtain ⟨h4, h3, h2, h1, h0, -⟩ := h
  simp only [Crc.res, List.map_cons, List.map_nil, hdigit _ h4, hdigit _ h3, hdigit _ h2,
    hdigit _ h1, hdigit _ h0]

/-! ## The checksum -/

/-- The bits of the checksum, as a polynomial. -/
theorem message_res (bitString : List Byte) : message ((makeCRC5 bitString).map bitValue) =
    (bitString.foldl Crc.round ⟨0, 0, 0, 0, 0⟩).poly :=
  congrArg message (binary_foldl bitString).map_res

/-- The checksum differs from the message moved up by a multiple of the generator. -/
theorem dvd_makeCRC5 (bitString : List Byte) :
    crcGenerator ∣ message ((makeCRC5 bitString).map bitValue) -
      X ^ 5 * message (bitString.map bitValue) := by
  have hempty : Crc.poly ⟨0, 0, 0, 0, 0⟩ = 0 := by
    simp [Crc.poly, message, lowBit]
  rw [message_res]
  exact dvd_foldl dvd_round hempty bitString

/-- The checksum is shorter than the divisor. -/
theorem degree_makeCRC5_lt (bitString : List Byte) :
    (message ((makeCRC5 bitString).map bitValue)).degree < crcGenerator.degree := by
  rw [degree_eq_natDegree monic_crcGenerator.ne_zero, natDegree_crcGenerator]
  exact degree_message_lt _

/-- The checksum is the remainder of the bits, five places further up. -/
theorem message_makeCRC5 (bitString : List Byte) :
    message ((makeCRC5 bitString).map bitValue) =
      (X ^ 5 * message (bitString.map bitValue)) %ₘ crcGenerator :=
  eq_modByMonic monic_crcGenerator (degree_makeCRC5_lt bitString) (dvd_makeCRC5 bitString)

/-! ## Errors -/

theorem length_makeCRC5 (bitString : List Byte) : (makeCRC5 bitString).length = 5 :=
  rfl

/-- The checksum zero. -/
theorem makeCRC5_eq_of_dvd {bitString : List Byte}
    (h : crcGenerator ∣ message ((makeCRC5 bitString).map bitValue)) :
    makeCRC5 bitString = List.replicate 5 0x30 := by
  have hzero : message ((makeCRC5 bitString).map bitValue) =
      message (List.replicate 5 (0 : ZMod 2)) := by
    rw [eq_zero_of_dvd_of_degree_lt h (degree_makeCRC5_lt bitString)]
    simp [message]
  have hbits := message_injective (by rw [List.length_map, List.length_replicate]; rfl) hzero
  have hdigit : ∀ c ∈ makeCRC5 bitString, c = 0x30 := by
    intro c hc
    have hvalue : bitValue c = 0 := by
      have hmem := List.mem_map_of_mem (f := bitValue) hc
      rw [hbits] at hmem
      exact List.eq_of_mem_replicate hmem
    obtain ⟨b, rfl⟩ : ∃ b, c = crcDigit b := by
      simp only [makeCRC5, Crc.res, List.mem_cons, List.not_mem_nil, or_false] at hc
      rcases hc with h | h | h | h | h <;> exact ⟨_, h⟩
    by_contra hone
    have hb : b ≠ 0 := fun hb => hone (if_neg (not_not_intro hb))
    rw [crcDigit, if_pos hb] at hvalue
    exact absurd hvalue (by decide)
  exact List.eq_replicate_iff.2 ⟨rfl, hdigit⟩

/-- Bits with their checksum behind them have the checksum zero. -/
theorem makeCRC5_checked (bitString : List Byte) :
    makeCRC5 (bitString ++ makeCRC5 bitString) = List.replicate 5 0x30 := by
  have htwo : (2 : (ZMod 2)[X]) = 0 := CharTwo.two_eq_zero
  have hall := dvd_makeCRC5 (bitString ++ makeCRC5 bitString)
  have hcrc := (dvd_makeCRC5 bitString).mul_left (X ^ 5)
  rw [List.map_append, message_append, List.length_map, length_makeCRC5] at hall
  refine makeCRC5_eq_of_dvd ((congrArg (crcGenerator ∣ ·) ?_).mp (hall.add hcrc))
  linear_combination (-(X ^ 10 * message (bitString.map bitValue))) * htwo

/-- A burst of at most five wrong bits changes the checksum. -/
theorem makeCRC5_burst {pre as bs post : List Byte} (hlen : as.length = bs.length)
    (hshort : as.length ≤ 5) (hne : as.map bitValue ≠ bs.map bitValue) :
    makeCRC5 (pre ++ as ++ post) ≠ makeCRC5 (pre ++ bs ++ post) := by
  intro heq
  have hsub := (dvd_makeCRC5 (pre ++ bs ++ post)).sub (dvd_makeCRC5 (pre ++ as ++ post))
  rw [heq, sub_sub_sub_cancel_left] at hsub
  simp only [List.map_append] at hsub
  refine hne (burst_eq_of_dvd monic_crcGenerator isCoprime_crcGenerator ?_ ?_ hsub)
  · rw [List.length_map, List.length_map, hlen]
  · rw [List.length_map, natDegree_crcGenerator]
    exact hshort

/-- Bits that are sent with their checksum do not have the checksum zero any more after a burst
of at most five wrong bits, in the bits or in the checksum. -/
theorem burst_detected {bitString pre as bs post : List Byte}
    (hsent : bitString ++ makeCRC5 bitString = pre ++ as ++ post) (hlen : as.length = bs.length)
    (hshort : as.length ≤ 5) (hne : as.map bitValue ≠ bs.map bitValue) :
    makeCRC5 (pre ++ bs ++ post) ≠ List.replicate 5 0x30 := by
  have hchecked := makeCRC5_checked bitString
  rw [hsent] at hchecked
  rw [← hchecked]
  exact (makeCRC5_burst hlen hshort hne).symm

/-- The bits `1011` with their checksum, of which the last bit and the first of the checksum come
wrong. -/
theorem burst_detected_1011 :
    ([0x31, 0x30, 0x31, 0x31] ++ makeCRC5 [0x31, 0x30, 0x31, 0x31] = [0x31, 0x30, 0x31] ++
        [0x31, 0x30] ++ [0x30, 0x30, 0x31, 0x30] ∧
      ([0x31, 0x30] : List Byte).map bitValue ≠ [0x30, 0x31].map bitValue) ∧
      makeCRC5 ([0x31, 0x30, 0x31] ++ [0x30, 0x31] ++ [0x30, 0x30, 0x31, 0x30]) ≠
        List.replicate 5 0x30 := by
  have hsent : ([0x31, 0x30, 0x31, 0x31] : List Byte) ++ makeCRC5 [0x31, 0x30, 0x31, 0x31] =
      [0x31, 0x30, 0x31] ++ [0x31, 0x30] ++ [0x30, 0x30, 0x31, 0x30] := by
    decide
  have hne : ([0x31, 0x30] : List Byte).map bitValue ≠ [0x30, 0x31].map bitValue := by
    decide
  exact ⟨⟨hsent, hne⟩, burst_detected hsent rfl (by decide) hne⟩

end Scorch
