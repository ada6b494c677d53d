import Mathlib.Logic.Function.Iterate
import Mathlib.Tactic.SplitIfs
import Scorch.Lib.ByteMemory

/-!
# The disk controller

What `ahci.c` does with the registers of a port, and the command that its `read` issues. A
command is a header in the command list of the port, and the command table that the header
points to : a frame with the registers of the disk, and the entries of the descriptor table,
each a piece of memory that the disk may fill.

The registers are what the driver reads from them. `tfd` is read again and again while the
driver waits, and is given for every read.
-/

open ByteMemory

namespace Scorch

/-! ## Constants -/

/-- `ATA_DEV_BUSY`. -/
def ataDevBusy : Word := 0x80

/-- `ATA_DEV_DRQ`. -/
def ataDevDrq : Word := 0x08

/-- `ATA_CMD_READ_DMA_EXT`. -/
def ataCmdReadDmaExt : Byte := 0x25

/-- `FIS_TYPE_REG_H2D`. -/
def fisTypeRegH2d : Byte := 0x27

/-- `HBA_PORT_DET_PRESENT`. -/
def hbaPortDetPresent : Byte := 3

/-- `HBA_PORT_IPM_ACTIVE`. -/
def hbaPortIpmActive : Byte := 1

/-- `SATA_SIG_ATAPI`. -/
def sataSigAtapi : Word := 0xEB140101

/-- `SATA_SIG_SEMB`. -/
def sataSigSemb : Word := 0xC33C0101

/-- `SATA_SIG_PM`. -/
def sataSigPm : Word := 0x96690101

/-! ## Ports -/

/-- What the driver reads from the registers of a port. -/
structure HbaPort where
  ssts : Word
  sig : Word
  sact : Word
  ci : Word
  tfd : ℕ → Word

/-- The devices that `check_type` tells apart. -/
inductive AhciDev where
  | null
  | sata
  | semb
  | pm
  | satapi
deriving DecidableEq

/-- `check_type` -/
def checkType (port : HbaPort) : AhciDev :=
  let ipm : Byte := ((port.ssts >>> 8) &&& 0x0F).setWidth 8
  let det : Byte := (port.ssts &&& 0x0F).setWidth 8
  if det ≠ hbaPortDetPresent then .null
  else if ipm ≠ hbaPortIpmActive then .null
  else if port.sig = sataSigAtapi then .satapi
  else if port.sig = sataSigSemb then .semb
  else if port.sig = sataSigPm then .pm
  else .sata

/-- The loop of `find_cmdslot`, with `n` slots left to look at. -/
def findCmdslotFrom : ℕ → ℕ → Word → Option ℕ
  | 0, _, _ => none
  | n + 1, i, slots => if slots &&& 1 = 0 then some i else findCmdslotFrom n (i + 1) (slots >>> 1)

/-- `find_cmdslot`, which has no result where the source returns `-1`. -/
def findCmdslot (cap : Word) (port : HbaPort) : Option ℕ :=
  let numOfSlots := (cap &&& 0x0f00) >>> 8
  findCmdslotFrom numOfSlots.toNat 0 (port.sact ||| port.ci)

/-- The loop that waits for the port, with `n` rounds left. -/
def spinFrom (tfd : ℕ → Word) : ℕ → ℕ → ℕ
  | 0, spin => spin
  | n + 1, spin =>
    if tfd spin &&& (ataDevBusy ||| ataDevDrq) ≠ 0 then spinFrom tfd n (spin + 1) else spin

/-- `spin == 1000000` behind the loop. -/
def PortHung (port : HbaPort) : Prop :=
  spinFrom port.tfd 1000000 0 = 1000000

instance (port : HbaPort) : Decidable (PortHung port) :=
  inferInstanceAs (Decidable (spinFrom port.tfd 1000000 0 = 1000000))

/-- The slot that is found is one of those looked at. -/
theorem findCmdslotFrom_lt {n i slot : ℕ} {slots : Word}
    (h : findCmdslotFrom n i slots = some slot) : slot < i + n := by
  induction n generalizing i slots with
  | zero => cases h
  | succ n ih =>
    unfold findCmdslotFrom at h
    split_ifs at h
    · cases h
      omega
    · have hlt := ih h
      omega

/-- The driver looks at fifteen slots at most. -/
theorem findCmdslot_lt {cap : Word} {port : HbaPort} {slot : ℕ}
    (h : findCmdslot cap port = some slot) : slot < 16 := by
  have hlt := findCmdslotFrom_lt h
  have hslots : ((cap &&& 0x0f00) >>> 8).toNat < 16 := by
    rw [BitVec.toNat_ushiftRight, BitVec.toNat_and, Nat.shiftRight_eq_div_pow]
    have hle : cap.toNat &&& (0x0f00 : Word).toNat ≤ 0x0f00 := Nat.and_le_right
    omega
  omega

/-- A port that is ready at the first look is not hung. -/
theorem not_portHung {port : HbaPort}
    (h : port.tfd 0 &&& (ataDevBusy ||| ataDevDrq) = 0) : ¬PortHung port := by
  have hspin : ∀ n, spinFrom port.tfd n 0 = 0 := by
    intro n
    cases n with
    | zero => rfl
    | succ n => rw [spinFrom, if_neg (not_not.2 h)]
  unfold PortHung
  rw [hspin]
  decide

/-! ## Commands -/

/-- The fields of a command header that the driver sets. -/
structure HbaCmdHeader where
  cfl : BitVec 5
  w : BitVec 1
  prdtl : BitVec 16

/-- An entry of the descriptor table. -/
structure HbaPrdtEntry where
  dba : Word
  dbau : Word
  dbc : BitVec 22
  i : BitVec 1

/-- The frame that takes a command to the disk. -/
structure FisRegH2d where
  fisType : Byte
  pmport : BitVec 4
  c : BitVec 1
  command : Byte
  featurel : Byte
  lba0 : Byte
  lba1 : Byte
  lba2 : Byte
  device : Byte
  lba3 : Byte
  lba4 : Byte
  lba5 : Byte
  featureh : Byte
  countl : Byte
  counth : Byte
  icc : Byte
  control : Byte

/-- A command table. -/
structure HbaCmdTbl where
  cfis : FisRegH2d
  prdtEntry : ℕ → HbaPrdtEntry

/-- An entry of zeros. -/
def HbaPrdtEntry.zero : HbaPrdtEntry :=
  ⟨0, 0, 0, 0⟩

/-- A frame of zeros. -/
def FisRegH2d.zero : FisRegH2d :=
  ⟨0, 0, 0, 0, 0, 0, 0, 0, 0, 0, 0, 0, 0, 0, 0, 0, 0⟩

namespace HbaCmdTbl

/-- The `memset` over the frame and the first `prdtl` entries. -/
def clear (tbl : HbaCmdTbl) (prdtl : ℕ) : HbaCmdTbl where
  cfis := .zero
  prdtEntry j := if j < prdtl then .zero else tbl.prdtEntry j

/-- Set `dba`, `dbc` and `i` of an entry. -/
def setEntry (tbl : HbaCmdTbl) (i : ℕ) (dba : Word) (dbc : BitVec 22) : HbaCmdTbl :=
  { tbl with
    prdtEntry := Function.update tbl.prdtEntry i
      { tbl.prdtEntry i with dba := dba, dbc := dbc, i := 1 } }

/-- The entries that the `memset` clears. -/
theorem prdtEntry_clear (tbl : HbaCmdTbl) {prdtl j : ℕ} (h : j < prdtl) :
    (tbl.clear prdtl).prdtEntry j = .zero :=
  if_pos h

@[simp] theorem cfis_setEntry (tbl : HbaCmdTbl) (i : ℕ) (dba : Word) (dbc : BitVec 22) :
    (tbl.setEntry i dba dbc).cfis = tbl.cfis :=
  rfl

end HbaCmdTbl

/-- A command that has been issued : its slot, its header and its table. -/
structure Command where
  slot : ℕ
  header : HbaCmdHeader
  table : HbaCmdTbl

/-- The variables of the loop of `read`. -/
structure ReadLoop where
  i : ℕ
  tbl : HbaCmdTbl
  buf : Word
  count : Word

/-- One round : an entry of 8K bytes. -/
def ReadLoop.next (s : ReadLoop) : ReadLoop where
  i := s.i + 1
  tbl := s.tbl.setEntry s.i s.buf (8 * 1024)
  buf := s.buf + 2 * (4 * 1024)
  count := s.count - 16

/-- The frame of `read`. -/
def readFis (fis : FisRegH2d) (startl starth count : Word) : FisRegH2d :=
  { fis with
    fisType := fisTypeRegH2d
    c := 1
    command := ataCmdReadDmaExt
    lba0 := startl.setWidth 8
    lba1 := (startl >>> 8).setWidth 8
    lba2 := (startl >>> 16).setWidth 8
    device := (1 : Byte) <<< 6
    lba3 := (startl >>> 24).setWidth 8
    lba4 := starth.setWidth 8
    lba5 := (starth >>> 8).setWidth 8
    countl := (count &&& 0xff).setWidth 8
    counth := ((count >>> 8) &&& 0xff).setWidth 8 }

/-- The header of `read`. -/
def readHeader (header : HbaCmdHeader) (count : Word) : HbaCmdHeader :=
  { header with
    cfl := 5
    w := 0
    prdtl := ((count - 1) >>> 4).setWidth 16 + 1 }

/-- The table that `read` fills, for a header with `prdtl` entries. -/
def readTable (tbl : HbaCmdTbl) (prdtl : ℕ) (startl starth count buf : Word) : HbaCmdTbl :=
  let s := ReadLoop.next^[prdtl - 1] ⟨0, tbl.clear prdtl, buf, count⟩
  let tbl := s.tbl.setEntry s.i s.buf ((s.count <<< 9).setWidth 22)
  { tbl with cfis := readFis tbl.cfis startl starth s.count }

/-- `read`, up to the write to `ci`. There is no result when it does not issue a command. The
lists are the headers of the port and the tables they point to. -/
def ahciRead (cap : Word) (port : HbaPort) (cmdheader : ℕ → HbaCmdHeader)
    (cmdtbl : ℕ → HbaCmdTbl) (startl starth count buf : Word) : Option Command :=
  (findCmdslot cap port).bind fun slot =>
    let header := readHeader (cmdheader slot) count
    let table := readTable (cmdtbl slot) header.prdtl.toNat startl starth count buf
    if PortHung port then none else some ⟨slot, header, table⟩

end Scorch
