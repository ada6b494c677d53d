import Scorch.Strings

/-!
# The floppy disk driver

The part of `flpydsk.c` that reads a sector. What `inportb` returns is a sequence of bytes
given with the state, a status before every byte of data, and the bytes sent to the data
register are logged. The interrupt that `flpydsk_wait_irq` waits for is taken to come. The
motor and the DMA controller are only written to, and are left out : what a transfer leaves
in the buffer is given with the state too.

`flpydsk_lba_to_chs` is inverted by the formula for sector numbers, and the three casts to
bytes in `flpydsk_read_sector` lose nothing exactly for the first 256 tracks
(`lbaToChs_narrowed_iff`).
-/

open ByteMemory

namespace Scorch

/-- The variables of the driver, and what the ports and the transfers give. -/
structure Flpydsk where
  /-- `_CurrentDrive`. -/
  currentDrive : Byte
  /-- What the next calls of `inportb` return. -/
  responses : ℕ → Byte
  /-- The bytes written to the data register. -/
  sent : List Byte
  /-- The bytes from `DMA_BUFFER` on. -/
  dmaBuffer : Bytes
  /-- What the next transfers leave there. -/
  transfers : ℕ → Bytes
  /-- The bytes from address `0` on. -/
  lowMemory : Bytes

/-- `DMA_BUFFER`. -/
def dmaBufferAddr : Word := 0x1000

/-- `FLPY_SECTORS_PER_TRACK`. -/
def flpySectorsPerTrack : ℤ := 18

namespace Flpydsk

/-- Read a port. -/
def inportb (s : Flpydsk) : Byte × Flpydsk :=
  (s.responses 0, { s with responses := fun k => s.responses (k + 1) })

/-- The loops that wait for `FLPYDSK_MSR_MASK_DATAREG`, with `n` rounds left. -/
def waitReady : ℕ → Flpydsk → Bool × Flpydsk
  | 0, s => (false, s)
  | n + 1, s => if s.inportb.1 &&& 0x80 ≠ 0 then (true, s.inportb.2) else waitReady n s.inportb.2

end Flpydsk

open Flpydsk

/-- A command is dropped when the controller does not get ready. -/
def flpydskSendCommand (s : Flpydsk) (cmd : Byte) : Flpydsk :=
  let ready := waitReady 500 s
  if ready.1 then { ready.2 with sent := ready.2.sent ++ [cmd] } else ready.2

/-- `flpydsk_read_data` : the next answer of the controller. -/
def flpydskReadData (s : Flpydsk) : Byte × Flpydsk :=
  let ready := waitReady 500 s
  if ready.1 then ready.2.inportb else (0, ready.2)

/-- Returns `st0` and `cyl`. -/
def flpydskCheckInt (s : Flpydsk) : Byte × Byte × Flpydsk :=
  let s := flpydskSendCommand s 0x08
  let st0 := flpydskReadData s
  let cyl := flpydskReadData st0.2
  (st0.1, cyl.1, cyl.2)

/-- The loop of `flpydsk_seek`, with `n` rounds left. -/
def seekLoop (cyl head : Byte) : ℕ → Flpydsk → ℤ × Flpydsk
  | 0, s => (-1, s)
  | n + 1, s =>
    let s := flpydskSendCommand s 0x0f
    let s := flpydskSendCommand s (head <<< 2 ||| s.currentDrive)
    let s := flpydskSendCommand s cyl
    let int := flpydskCheckInt s
    if int.2.1 = cyl then (0, int.2.2) else seekLoop cyl head n int.2.2

/-- `flpydsk_seek`, which tries ten times. -/
def flpydskSeek (s : Flpydsk) (cyl head : Byte) : ℤ × Flpydsk :=
  if 4 ≤ s.currentDrive then (-1, s) else seekLoop cyl head 10 s

/-- The local variable `error` of `flpydsk_read_sector_imp`, from the result bytes. -/
def resultError (st0 st1 st2 bps : Byte) : ℤ :=
  let error := if st0 &&& 0xC0 ≠ 0 then 1 else 0
  let error := if st1 &&& 0x80 ≠ 0 then 1 else error
  let error := if st0 &&& 0x08 ≠ 0 then 1 else error
  let error := if st1 &&& 0x20 ≠ 0 then 1 else error
  let error := if st1 &&& 0x10 ≠ 0 then 1 else error
  let error := if st1 &&& 0x04 ≠ 0 then 1 else error
  let error := if (st1 ||| st2) &&& 0x01 ≠ 0 then 1 else error
  let error := if st2 &&& 0x40 ≠ 0 then 1 else error
  let error := if st2 &&& 0x20 ≠ 0 then 1 else error
  let error := if st2 &&& 0x10 ≠ 0 then 1 else error
  let error := if st2 &&& 0x04 ≠ 0 then 1 else error
  let error := if st2 &&& 0x02 ≠ 0 then 1 else error
  let error := if bps ≠ 0x2 then 1 else error
  if st1 &&& 0x02 ≠ 0 then 2 else error

/-- The nine bytes of the command that reads a sector. -/
def readCommand (drive head track sector : Byte) : List Byte :=
  let last := if (sector.toNat : ℤ) + 1 ≥ flpySectorsPerTrack then 18 else sector + 1
  [0xE6, head <<< 2 ||| drive, track, head, sector, 2, last, 27, 0xff]

/-- The data of the sector come by DMA, before the result bytes. -/
def Flpydsk.transfer (s : Flpydsk) : Flpydsk :=
  { s with dmaBuffer := s.transfers 0, transfers := fun k => s.transfers (k + 1) }

/-- The function returns nothing. The number given here is what its variable `error` holds in
the end. -/
def flpydskReadSectorImp (s : Flpydsk) (head track sector : Byte) : ℤ × Flpydsk :=
  let s := (readCommand s.currentDrive head track sector).foldl flpydskSendCommand s
  let s := s.transfer
  let st0 := flpydskReadData s
  let st1 := flpydskReadData st0.2
  let st2 := flpydskReadData st1.2
  let rcy := flpydskReadData st2.2
  let rhe := flpydskReadData rcy.2
  let rse := flpydskReadData rhe.2
  let bps := flpydskReadData rse.2
  let int := flpydskCheckInt bps.2
  (resultError st0.1 st1.1 st2.1 bps.1, int.2.2)

/-! ## Sector numbers -/

/-- Cylinder, head and sector. -/
@[ext]
structure Chs where
  head : ℤ
  track : ℤ
  sector : ℤ
deriving DecidableEq

/-- The division of `int` rounds to zero. -/
def flpydskLbaToChs (lba : ℤ) : Chs where
  head := (lba.tmod (flpySectorsPerTrack * 2)).tdiv flpySectorsPerTrack
  track := lba.tdiv (flpySectorsPerTrack * 2)
  sector := lba.tmod flpySectorsPerTrack + 1

/-- The cast to `uint8_t`. -/
def uint8 (n : ℤ) : Byte :=
  BitVec.ofInt 8 n

/-- Returns the address of the data. -/
def flpydskReadSector (s : Flpydsk) (sectorLba : ℤ) : Word × Flpydsk :=
  if 4 ≤ s.currentDrive then (0, s)
  else
    let chs := flpydskLbaToChs sectorLba
    let seek := flpydskSeek s (uint8 chs.track) (uint8 chs.head)
    if seek.1 ≠ 0 then (0, seek.2)
    else
      let imp := flpydskReadSectorImp seek.2 (uint8 chs.head) (uint8 chs.track) (uint8 chs.sector)
      (dmaBufferAddr, imp.2)

namespace Chs

/-- The triple names a sector of the disk, with its number. -/
structure Denotes (c : Chs) (lba : ℤ) : Prop where
  head : c.head = 0 ∨ c.head = 1
  track : 0 ≤ c.track
  sector : 1 ≤ c.sector ∧ c.sector ≤ 18
  number : lba = (c.track * 2 + c.head) * 18 + (c.sector - 1)

/-- The triple that the controller gets. -/
def narrowed (c : Chs) : Chs where
  head := (uint8 c.head).toNat
  track := (uint8 c.track).toNat
  sector := (uint8 c.sector).toNat

end Chs

/-- The cast keeps the lowest eight bits. -/
theorem toNat_uint8 (n : ℤ) : ((uint8 n).toNat : ℤ) = n % 256 := by
  rw [uint8, BitVec.toNat_ofInt]
  omega

/-- On sector numbers the rounding does not matter. -/
theorem flpydskLbaToChs_of_nonneg {lba : ℤ} (h : 0 ≤ lba) :
    flpydskLbaToChs lba = ⟨lba % 36 / 18, lba / 36, lba % 18 + 1⟩ := by
  have h36 : flpySectorsPerTrack * 2 = 36 := rfl
  have h18 : flpySectorsPerTrack = 18 := rfl
  have hmod : 0 ≤ lba % 36 := Int.emod_nonneg _ (by norm_num)
  rw [flpydskLbaToChs, h36, h18, Int.tmod_eq_emod_of_nonneg h, Int.tmod_eq_emod_of_nonneg h,
    Int.tdiv_eq_ediv_of_nonneg h, Int.tdiv_eq_ediv_of_nonneg hmod]

/-- The three numbers denote the sector. -/
theorem denotes_flpydskLbaToChs {lba : ℤ} (h : 0 ≤ lba) : (flpydskLbaToChs lba).Denotes lba := by
  rw [flpydskLbaToChs_of_nonneg h]
  constructor <;> dsimp only <;> omega

/-- A triple has one number. -/
theorem Chs.Denotes.unique {c : Chs} {lba lba' : ℤ} (h : c.Denotes lba) (h' : c.Denotes lba') :
    lba = lba' :=
  h.number.trans h'.number.symm

/-- No negative sector has such numbers. -/
theorem Chs.Denotes.nonneg {c : Chs} {lba : ℤ} (h : c.Denotes lba) : 0 ≤ lba := by
  obtain ⟨hhead, htrack, hsector, hnumber⟩ := h
  omega

/-- The bytes denote the number exactly for the sectors of the first 256 tracks. -/
theorem denotes_narrowed_iff (lba : ℤ) :
    (flpydskLbaToChs lba).narrowed.Denotes lba ↔ 0 ≤ lba ∧ lba < 9216 := by
  constructor
  · intro hd
    have h := hd.nonneg
    obtain ⟨hhead, -, hsector, hnumber⟩ := hd
    rw [flpydskLbaToChs_of_nonneg h] at hhead hsector hnumber
    simp only [Chs.narrowed, toNat_uint8] at hhead hsector hnumber
    omega
  · rintro ⟨h, hlt⟩
    rw [flpydskLbaToChs_of_nonneg h]
    constructor <;> simp only [Chs.narrowed, toNat_uint8] <;> omega

/-- Every sector number has a triple of its own, and the bytes of the triple still denote it
exactly for the first 256 tracks. -/
theorem lbaToChs_narrowed_iff (lba : ℤ) :
    (0 ≤ lba → (flpydskLbaToChs lba).Denotes lba) ∧
      (0 ≤ lba → ∀ lba', 0 ≤ lba' → flpydskLbaToChs lba = flpydskLbaToChs lba' → lba = lba') ∧
      ((flpydskLbaToChs lba).narrowed.Denotes lba ↔ 0 ≤ lba ∧ lba < 9216) := by
  refine ⟨denotes_flpydskLbaToChs, fun h lba' h' heq => ?_, denotes_narrowed_iff lba⟩
  have hd := denotes_flpydskLbaToChs h'
  rw [← heq] at hd
  exact (denotes_flpydskLbaToChs h).unique hd

/-- Sector `9216` is read as sector `0`. -/
theorem not_denotes_narrowed :
    ¬∀ lba : ℤ, 0 ≤ lba → lba < 2 ^ 31 → (flpydskLbaToChs lba).narrowed.Denotes lba := by
  intro h
  have hwrap : (flpydskLbaToChs 9216).narrowed = ⟨0, 0, 1⟩ := by decide
  have hd := (h 9216 (by norm_num) (by norm_num)).number
  rw [hwrap] at hd
  exact absurd hd (by decide)

end Scorch
