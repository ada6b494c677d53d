import Mathlib.Logic.Function.Basic
import Mathlib.Tactic.SplitIfs
import Scorch.Lib.ByteMemory

/-!
# Setting up a transfer

The functions of `dma.c` and `dma_initialize_floppy` of `flpydsk.c`, by the bytes they write to
ports, and the controller that takes them. An address or count register is written by two
bytes, the low one first when the flip-flop is clear, and a page register holds the bits 23
to 16 of an address.

`dma_initialize_floppy` writes the highest byte of the address to the page register, which is
zero for every buffer it accepts, and not the third one. Its resets of the flip-flop write
nothing, and what clears it is the write of `dma_reset` to the register for a master clear.
`dmaInitializeFloppy_right_iff` says when channel 2 holds the buffer and the length.
-/

open ByteMemory

namespace Scorch

/-! ## Writes to ports -/

/-- A port and the byte that is written to it. -/
abbrev PortWrite := BitVec 16 × Byte

/-- `FDC_DMA_CHANNEL`. -/
def fdcDmaChannel : Byte := 2

/-- The ports of the address registers of the channels. -/
def dmaAddrRegs : List (BitVec 16) :=
  [0, 2, 4, 6, 0xc0, 0xc4, 0xc8, 0xcc]

/-- The ports of the count registers. -/
def dmaCountRegs : List (BitVec 16) :=
  [1, 3, 5, 7, 0xc2, 0xc6, 0xca, 0xce]

/-- `dma_mask_channel` -/
def dmaMaskChannel (channel : Byte) : List PortWrite :=
  if channel ≤ 4 then [(0x0a, (1 : Byte) <<< (channel - 1).toNat)]
  else [(0xd4, (1 : Byte) <<< (channel - 5).toNat)]

/-- `dma_unmask_all` -/
def dmaUnmaskAll (_dma : ℤ) : List PortWrite :=
  [(0xdc, 0xff)]

/-- `dma_reset` -/
def dmaReset (_dma : ℤ) : List PortWrite :=
  [(0x0d, 0xff)]

/-- `dma_reset_flipflop` -/
def dmaResetFlipflop (dma : ℤ) : List PortWrite :=
  if dma < 2 then [] else [(if dma = 0 then 0x0c else 0xd8, 0xff)]

/-- Two bytes for a register of a channel, which is port 0 for channel 8. -/
def dmaSetPair (regs : List (BitVec 16)) (channel low high : Byte) : List PortWrite :=
  if channel > 8 then []
  else [(regs.getD channel.toNat 0, low), (regs.getD channel.toNat 0, high)]

/-- `dma_set_address` -/
def dmaSetAddress (channel low high : Byte) : List PortWrite :=
  dmaSetPair dmaAddrRegs channel low high

/-- `dma_set_count` -/
def dmaSetCount (channel low high : Byte) : List PortWrite :=
  dmaSetPair dmaCountRegs channel low high

/-- `dma_set_mode` -/
def dmaSetMode (channel mode : Byte) : List PortWrite :=
  let dma : ℤ := if channel < 4 then 0 else 1
  let chan := if dma = 0 then channel else channel - 4
  dmaMaskChannel channel ++ [(if channel < 4 then 0x0b else 0xd6, chan ||| mode)] ++
    dmaUnmaskAll dma

/-- `dma_set_read` -/
def dmaSetRead (channel : Byte) : List PortWrite :=
  dmaSetMode channel (4 ||| 0x40)

/-- The ports of the page registers, for the registers that are given one. -/
def dmaPageRegs : List (BitVec 16) :=
  [0, 0x83, 0x81, 0x82, 0, 0x89, 0x87, 0x88]

/-- `dma_set_external_page_register` -/
def dmaSetExternalPageRegister (reg val : Byte) : List PortWrite :=
  if reg > 14 then [] else if reg = 4 then [] else [(dmaPageRegs.getD reg.toNat 0, val)]

/-- Byte `k` of a number. -/
def byteAt (l : Word) (k : ℕ) : Byte :=
  (l >>> (8 * k)).setWidth 8

/-- The test of `dma_initialize_floppy` for buffer issues, passed. -/
def DmaAccepts (buffer length : Word) : Prop :=
  buffer >>> 24 = 0 ∧ (length - 1) >>> 16 = 0 ∧ ((buffer &&& 0xffff) + (length - 1)) >>> 16 = 0

instance (buffer length : Word) : Decidable (DmaAccepts buffer length) :=
  inferInstanceAs (Decidable (_ ∧ _ ∧ _))

/-- `dma_initialize_floppy` : what it returns, and what it writes. -/
def dmaInitializeFloppy (buffer length : Word) : Bool × List PortWrite :=
  let a := buffer
  let c := length - 1
  if DmaAccepts buffer length then
    (true,
      dmaReset 1 ++ dmaMaskChannel fdcDmaChannel ++ dmaResetFlipflop 1 ++
        dmaSetAddress fdcDmaChannel (byteAt a 0) (byteAt a 1) ++
        dmaSetExternalPageRegister fdcDmaChannel (byteAt a 3) ++ dmaResetFlipflop 1 ++
        dmaSetCount fdcDmaChannel (byteAt c 0) (byteAt c 1) ++ dmaSetRead fdcDmaChannel ++
        dmaUnmaskAll 1)
  else (false, [])

/-! ## The controller -/

/-- The registers of the first controller that hold where a channel transfers, and the page
registers. -/
structure DmaController where
  /-- The next byte for an address or a count is the high one. -/
  flipflop : Bool
  address : ℕ → BitVec 16
  count : ℕ → BitVec 16
  page : BitVec 16 → Byte

namespace DmaController

/-- A register with one of its bytes written. -/
def putByte (high : Bool) (x : BitVec 16) (val : Byte) : BitVec 16 :=
  if high then val ++ (x.setWidth 8 : Byte) else ((x >>> 8).setWidth 8 : Byte) ++ val

/-- The controller takes a byte. `resets` is whether a master clear clears the flip-flop. The
ports of the other controller, of masks and of modes change none of these registers. -/
def take (resets : Bool) (s : DmaController) (w : PortWrite) : DmaController :=
  let channel := w.1.toNat / 2
  if w.1 < 8 then
    if w.1.toNat % 2 = 0 then
      { s with
        flipflop := !s.flipflop
        address := Function.update s.address channel (putByte s.flipflop (s.address channel) w.2) }
    else
      { s with
        flipflop := !s.flipflop
        count := Function.update s.count channel (putByte s.flipflop (s.count channel) w.2) }
  else if w.1 = 0x0c then { s with flipflop := false }
  else if w.1 = 0x0d then { s with flipflop := s.flipflop && !resets }
  else if 0x80 ≤ w.1 ∧ w.1 ≤ 0x8f then { s with page := Function.update s.page w.1 w.2 }
  else s

/-- What the controller is after a list of writes. -/
def run (s : DmaController) (resets : Bool) (ws : List PortWrite) : DmaController :=
  ws.foldl (take resets) s

/-- Channel 2 is set to a buffer and a length. -/
def Holds (s : DmaController) (buffer length : Word) : Prop :=
  (s.page 0x81 ++ s.address 2).toNat = buffer.toNat ∧ (s.count 2).toNat + 1 = length.toNat

end DmaController

/-- The buffer lies below 16 MiB and in one page of 64 KiB. -/
def InOnePage (buffer length : Word) : Prop :=
  ∀ x, buffer.toNat ≤ x → x < buffer.toNat + length.toNat →
    x < 2 ^ 24 ∧ x / 2 ^ 16 = buffer.toNat / 2 ^ 16

/-- The two low bytes of a number are the same. -/
def BytesEqual (l : Word) : Prop :=
  byteAt l 0 = byteAt l 1

/-! ## What it sets up -/

section SetUp

variable {buffer length : Word}

/-- A shift to zero bounds the number. -/
theorem ushiftRight_eq_zero_iff (x : Word) (k : ℕ) : x >>> k = 0 ↔ x.toNat < 2 ^ k := by
  rw [← BitVec.toNat_inj, BitVec.toNat_ushiftRight, Nat.shiftRight_eq_div_pow]
  exact Nat.div_eq_zero_iff_lt (Nat.two_pow_pos k)

/-- The test of `dma_initialize_floppy` as bounds : below 16 MiB, at most 64 KiB, within one
page. -/
theorem dmaAccepts_iff : DmaAccepts buffer length ↔ buffer.toNat < 2 ^ 24 ∧
    (length - 1).toNat < 2 ^ 16 ∧ buffer.toNat % 2 ^ 16 + (length - 1).toNat < 2 ^ 16 := by
  have hlow : (buffer &&& 0xffff).toNat = buffer.toNat % 2 ^ 16 := toNat_and_low buffer rfl
  rw [DmaAccepts, ushiftRight_eq_zero_iff, ushiftRight_eq_zero_iff, ushiftRight_eq_zero_iff,
    BitVec.toNat_add, hlow]
  omega

/-- The length does not wrap for what is accepted. -/
theorem toNat_length (h : DmaAccepts buffer length) :
    length.toNat = (length - 1).toNat + 1 := by
  have hlength := (dmaAccepts_iff.1 h).2.1
  bv_omega

/-- What is accepted lies within a page of 64 KiB. -/
theorem inOnePage_of_accepts (h : DmaAccepts buffer length) : InOnePage buffer length := by
  obtain ⟨hbuffer, hlength, hpage⟩ := dmaAccepts_iff.1 h
  have hlen := toNat_length h
  intro x hlo hhi
  omega

/-- The code returns true for nothing else. -/
theorem accepts_of_fst (h : (dmaInitializeFloppy buffer length).1 = true) :
    DmaAccepts buffer length := by
  by_contra hrefuses
  rw [dmaInitializeFloppy, if_neg hrefuses] at h
  exact Bool.false_ne_true h

/-- The writes of a call that is not refused. -/
theorem dmaInitializeFloppy_of_accepts (h : DmaAccepts buffer length) :
    dmaInitializeFloppy buffer length =
      (true, [(0x0d, 0xff), (0x0a, 2), (4, byteAt buffer 0), (4, byteAt buffer 1),
        (0x81, byteAt buffer 3), (5, byteAt (length - 1) 0), (5, byteAt (length - 1) 1), (0x0a, 2),
        (0x0b, 0x46), (0xdc, 0xff), (0xdc, 0xff)]) :=
  if_pos h

namespace DmaController

variable {resets : Bool} {s : DmaController}

/-- Two bytes for a register. -/
def putPair (flipflop : Bool) (low high : Byte) : BitVec 16 :=
  if flipflop then low ++ high else high ++ low

/-- Two bytes sent one after another make a pair, in the order that the flip-flop says. -/
theorem putByte_putByte (flipflop : Bool) (x : BitVec 16) (low high : Byte) :
    putByte (!flipflop) (putByte flipflop x low) high = putPair flipflop low high := by
  have hlow : ∀ y : Byte, ((y ++ low : BitVec 16).setWidth 8 : Byte) = low := fun y => by
    rw [BitVec.setWidth_append, dif_pos le_rfl, BitVec.setWidth_eq]
  have hhigh : ∀ y : Byte, (((low ++ y : BitVec 16) >>> 8).setWidth 8 : Byte) = low := fun y => by
    rw [BitVec.setWidth_ushiftRight_eq_extractLsb, BitVec.extractLsb'_append_eq_left]
  cases flipflop
  · exact congrArg (high ++ ·) (hlow _)
  · exact congrArg (· ++ high) (hhigh _)

theorem toNat_putPair (flipflop : Bool) (low high : Byte) : (putPair flipflop low high).toNat =
    if flipflop then low.toNat * 256 + high.toNat else high.toNat * 256 + low.toNat := by
  cases flipflop
  · exact toNat_append_byte high low
  · exact toNat_append_byte low high

/-- The registers of channel 2 behind a call. The flip-flop is what the master clear has left
of it, for both registers. -/
theorem run_dmaInitializeFloppy (resets : Bool) (s : DmaController)
    (h : DmaAccepts buffer length) :
    (s.run resets (dmaInitializeFloppy buffer length).2).page 0x81 = byteAt buffer 3 ∧
      (s.run resets (dmaInitializeFloppy buffer length).2).address 2 =
        putPair (s.flipflop && !resets) (byteAt buffer 0) (byteAt buffer 1) ∧
      (s.run resets (dmaInitializeFloppy buffer length).2).count 2 =
        putPair (s.flipflop && !resets) (byteAt (length - 1) 0) (byteAt (length - 1) 1) := by
  rw [dmaInitializeFloppy_of_accepts h, ← putByte_putByte _ (s.address 2),
    ← putByte_putByte _ (s.count 2)]
  refine ⟨?_, ?_, ?_⟩
  · simp [run, take]
  · simp [run, take]
  · simp [run, take]

end DmaController

theorem toNat_byteAt (l : Word) (k : ℕ) : (byteAt l k).toNat = l.toNat / 2 ^ (8 * k) % 2 ^ 8 := by
  rw [byteAt, BitVec.toNat_setWidth, BitVec.toNat_ushiftRight, Nat.shiftRight_eq_div_pow]

theorem bytesEqual_iff (l : Word) : BytesEqual l ↔ l.toNat % 2 ^ 8 = l.toNat / 2 ^ 8 % 2 ^ 8 := by
  rw [BytesEqual, ← BitVec.toNat_inj, toNat_byteAt, toNat_byteAt, Nat.mul_zero, pow_zero,
    Nat.div_one, Nat.mul_one]

/-- A register has its number when its bytes have arrived in order or are the same. -/
theorem putPair_byteAt_iff {l : Word} (hl : l.toNat < 2 ^ 16) (flipflop : Bool) :
    (DmaController.putPair flipflop (byteAt l 0) (byteAt l 1)).toNat = l.toNat ↔
      flipflop = false ∨ BytesEqual l := by
  rw [DmaController.toNat_putPair, toNat_byteAt, toNat_byteAt, bytesEqual_iff, Nat.mul_zero,
    pow_zero, Nat.div_one, Nat.mul_one]
  cases flipflop
  · rw [if_neg Bool.false_ne_true]
    exact iff_of_true (by omega) (Or.inl rfl)
  · rw [if_pos rfl, or_iff_right (by decide)]
    omega

/-- A call that is not refused has a buffer in one page, and sets the channel to it when the
buffer lies in the first page and the bytes arrive in order, or the same in both orders. -/
theorem dmaInitializeFloppy_right_iff (h : (dmaInitializeFloppy buffer length).1 = true)
    (resets : Bool) (s : DmaController) :
    InOnePage buffer length ∧
        (s.run resets (dmaInitializeFloppy buffer length).2).Holds buffer length ↔
      buffer.toNat < 2 ^ 16 ∧
        ((resets = true ∨ s.flipflop = false) ∨ BytesEqual buffer ∧ BytesEqual (length - 1)) := by
  have haccepts := accepts_of_fst h
  obtain ⟨hbuffer, hlength, -⟩ := dmaAccepts_iff.1 haccepts
  obtain ⟨hpage, haddress, hcount⟩ := s.run_dmaInitializeFloppy resets haccepts
  have hlen := toNat_length haccepts
  have hflip : (s.flipflop && !resets) = false ↔ resets = true ∨ s.flipflop = false := by
    cases s.flipflop <;> cases resets <;> decide
  have hzero : (byteAt buffer 3).toNat = 0 := by
    rw [toNat_byteAt]
    omega
  rw [and_iff_right (inOnePage_of_accepts haccepts), DmaController.Holds, hpage, haddress, hcount,
    BitVec.toNat_append, hzero, Nat.zero_shiftLeft, Nat.zero_or, hlen, Nat.add_right_cancel_iff,
    putPair_byteAt_iff hlength, hflip]
  constructor
  · rintro ⟨hhold, hbytes⟩
    have hlow : buffer.toNat < 2 ^ 16 := hhold ▸ BitVec.isLt _
    rw [putPair_byteAt_iff hlow, hflip] at hhold
    exact ⟨hlow, or_and_left.2 ⟨hhold, hbytes⟩⟩
  · rintro ⟨hlow, hbytes⟩
    rw [putPair_byteAt_iff hlow, hflip]
    exact or_and_left.1 hbytes

end SetUp

/-- A sector for the buffer of the driver, with the flip-flop set before. -/
theorem dmaInitializeFloppy_right_driver :
    InOnePage 0x1000 512 ∧
      (DmaController.run ⟨true, fun _ => 0, fun _ => 0, fun _ => 0⟩ true
        (dmaInitializeFloppy 0x1000 512).2).Holds 0x1000 512 :=
  (dmaInitializeFloppy_right_iff (by decide) true ⟨true, fun _ => 0, fun _ => 0, fun _ => 0⟩).2
    ⟨by decide, Or.inl (Or.inl rfl)⟩

/-- A sector for the second page of memory is transferred to the first page, also when the
flip-flop is clear. -/
theorem not_holds_secondPage :
    ¬ ∀ (buffer length : Word), (dmaInitializeFloppy buffer length).1 = true →
      ∀ s : DmaController, InOnePage buffer length ∧
        (s.run true (dmaInitializeFloppy buffer length).2).Holds buffer length := by
  intro h
  have hholds := (h 0x10000 512 (by decide) ⟨false, fun _ => 0, fun _ => 0, fun _ => 0⟩).2.1
  exact absurd hholds (by decide)

end Scorch
