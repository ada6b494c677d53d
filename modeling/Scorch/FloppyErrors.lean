import Scorch.ClusterChain
import Scorch.Flpydsk

/-!
# Errors of the floppy drive

What becomes of an error on its way from the controller to `fsysFatRead`.
`flpydsk_read_sector_imp` finds it in the result bytes, prints it and drops it. A seek that
fails makes `flpydsk_read_sector` return a null pointer, which `fsysFatRead` copies from
like from any other.

So no error stops a read : it changes the caller's buffer whatever went wrong
(`reportsErrors_iff`).
-/

open ByteMemory

namespace Scorch

/-! ## One sector -/

namespace Flpydsk

/-- The seek for a sector. -/
def seekFor (s : Flpydsk) (lba : ℤ) : ℤ × Flpydsk :=
  flpydskSeek s (uint8 (flpydskLbaToChs lba).track) (uint8 (flpydskLbaToChs lba).head)

/-- The command that reads it, after the seek. -/
def readFor (s : Flpydsk) (lba : ℤ) : ℤ × Flpydsk :=
  flpydskReadSectorImp (s.seekFor lba).2 (uint8 (flpydskLbaToChs lba).head)
    (uint8 (flpydskLbaToChs lba).track) (uint8 (flpydskLbaToChs lba).sector)

/-- The seek fails, or an error is found in the result bytes. -/
def Fails (s : Flpydsk) (lba : ℤ) : Prop :=
  (s.seekFor lba).1 ≠ 0 ∨ (s.readFor lba).1 ≠ 0

instance (s : Flpydsk) (lba : ℤ) : Decidable (s.Fails lba) :=
  inferInstanceAs (Decidable (_ ∨ _))

/-- Without a drive the seek fails at once. -/
theorem seekFor_of_no_drive {s : Flpydsk} (h : 4 ≤ s.currentDrive) (lba : ℤ) :
    s.seekFor lba = (-1, s) :=
  if_pos h

/-- After a seek the sector is read, whatever comes of it. -/
theorem readSector_of_seek {s : Flpydsk} {lba : ℤ} (h : (s.seekFor lba).1 = 0) :
    flpydskReadSector s lba = (dmaBufferAddr, (s.readFor lba).2) := by
  have hdrive : ¬4 ≤ s.currentDrive := fun hd => by
    rw [seekFor_of_no_drive hd] at h
    contradiction
  rw [flpydskReadSector, if_neg hdrive]
  exact if_neg (not_not.2 h)

/-- When the seek fails, the null pointer comes back. -/
theorem readSector_of_seek_fails {s : Flpydsk} {lba : ℤ} (h : (s.seekFor lba).1 ≠ 0) :
    flpydskReadSector s lba = (0, (s.seekFor lba).2) := by
  by_cases hd : 4 ≤ s.currentDrive
  · rw [flpydskReadSector, if_pos hd, seekFor_of_no_drive hd]
  · rw [flpydskReadSector, if_neg hd]
    exact if_pos h

/-- The driver returns null for a failed seek, and for nothing else. -/
theorem readSector_eq_zero_iff (s : Flpydsk) (lba : ℤ) :
    (flpydskReadSector s lba).1 = 0 ↔ (s.seekFor lba).1 ≠ 0 := by
  by_cases h : (s.seekFor lba).1 = 0
  · rw [readSector_of_seek h]
    have hbuffer : dmaBufferAddr ≠ 0 := by decide
    exact iff_of_false hbuffer (not_not.2 h)
  · rw [readSector_of_seek_fails h]
    exact iff_of_true rfl h

/-- A sector that is read with an error is reported only when the seek failed. -/
theorem reports_iff (s : Flpydsk) (lba : ℤ) :
    (s.Fails lba → (flpydskReadSector s lba).1 = 0) ↔
      ((s.seekFor lba).1 = 0 → (s.readFor lba).1 = 0) := by
  rw [readSector_eq_zero_iff, Fails]
  tauto

/-- The bytes from an address the driver returned on. -/
def bytesAt (s : Flpydsk) (p : Word) : Bytes :=
  if p = 0 then s.lowMemory else s.dmaBuffer

end Flpydsk

/-! ## A call of fsysFatRead -/

/-- `FAT_Sector`. -/
def fatSector (file : File) : Word :=
  1 + fatOffset file.currentCluster / sectorSize

/-- `fsysFatRead`, given the bytes from the three addresses on that it copies from. -/
def fsysFatReadFrom (data first second : Bytes) (r : Reading) : Reading :=
  let buffer := memcpy r.buffer 0 data 512
  let entryOffset := fatOffset r.file.currentCluster % sectorSize
  let fat := memcpy r.state.fat 0 first 512
  let fat := memcpy fat 512 second 512
  let state := { fat := fat,
                 reads := r.state.reads ++
                   [physSector r.file, fatSector r.file, fatSector r.file + 1] }
  let next := nextCluster fat r.file.currentCluster entryOffset
  if 0xff8 ≤ next then { state := state, file := { r.file with eof := 1 }, buffer := buffer }
  else if next = 0 then { state := state, file := { r.file with eof := 1 }, buffer := buffer }
  else
    { state := state
      file := { r.file with currentCluster := next.setWidth 32 }
      buffer := buffer }

/-- On a disk without errors the bytes are those of the three sectors. -/
theorem fsysFatRead_eq_readFrom (disk : Disk) (r : Reading) (length : Word) :
    fsysFatRead disk r length =
      fsysFatReadFrom (disk (physSector r.file)) (disk (fatSector r.file))
        (disk (fatSector r.file + 1)) r :=
  rfl

namespace Flpydsk

/-- The state of the driver before it reads the first of the two sectors of the FAT. -/
def beforeFirst (s : Flpydsk) (file : File) : Flpydsk :=
  (flpydskReadSector s (physSector file).toInt).2

/-- The state before the second. -/
def beforeSecond (s : Flpydsk) (file : File) : Flpydsk :=
  (flpydskReadSector (s.beforeFirst file) (fatSector file).toInt).2

/-- The call on the drive. Each read is copied before the next. -/
def fsysFatReadFloppy (s : Flpydsk) (r : Reading) : Reading × Flpydsk :=
  let data := flpydskReadSector s (physSector r.file).toInt
  let first := flpydskReadSector data.2 (fatSector r.file).toInt
  let second := flpydskReadSector first.2 (fatSector r.file + 1).toInt
  (fsysFatReadFrom (data.2.bytesAt data.1) (first.2.bytesAt first.1)
    (second.2.bytesAt second.1) r, second.2)

/-- The sectors of a call with the state of the driver before each of them. -/
def sectorReads (s : Flpydsk) (file : File) : List (Flpydsk × ℤ) :=
  [(s, (physSector file).toInt), (s.beforeFirst file, (fatSector file).toInt),
    (s.beforeSecond file, (fatSector file + 1).toInt)]

/-- A sector that fails is reported with a null pointer, and the call that meets it leaves the
buffer and the cluster alone. -/
structure ReportsErrors (s : Flpydsk) (r : Reading) : Prop where
  pointer : ∀ p ∈ s.sectorReads r.file, p.1.Fails p.2 → (flpydskReadSector p.1 p.2).1 = 0
  caller : (∃ p ∈ s.sectorReads r.file, p.1.Fails p.2) →
    (s.fsysFatReadFloppy r).1.buffer = r.buffer ∧
      (s.fsysFatReadFloppy r).1.file.currentCluster = r.file.currentCluster

/-- Whatever the pointer is, 512 bytes from there on are copied to the buffer. -/
theorem buffer_fsysFatReadFloppy (s : Flpydsk) (r : Reading) {k : ℕ} (hk : k < 512) :
    (s.fsysFatReadFloppy r).1.buffer k =
      (flpydskReadSector s (physSector r.file).toInt).2.bytesAt
        (flpydskReadSector s (physSector r.file).toInt).1 k := by
  simp only [fsysFatReadFloppy, fsysFatReadFrom, apply_ite Reading.buffer, ite_self]
  rw [memcpy_apply, if_pos (by omega), Nat.sub_zero]

/-- An error in a sector is reported exactly when it is not in the result bytes, and a call
reports its errors exactly when there is none. -/
theorem reportsErrors_iff (s : Flpydsk) :
    (∀ lba, (s.Fails lba → (flpydskReadSector s lba).1 = 0) ↔
        ((s.seekFor lba).1 = 0 → (s.readFor lba).1 = 0)) ∧
      ∀ file, (∀ r, r.file = file → s.ReportsErrors r) ↔
        ∀ p ∈ s.sectorReads file, ¬p.1.Fails p.2 := by
  refine ⟨s.reports_iff, fun file => ⟨fun h p hp hfails => ?_, ?_⟩⟩
  · -- A buffer that differs from what is copied in its first byte.
    set data := flpydskReadSector s (physSector file).toInt
    have hcaller := (h ⟨⟨fun _ => 0, []⟩, file, fun k => data.2.bytesAt data.1 k + 1⟩ rfl).caller
      ⟨p, hp, hfails⟩
    have hbyte := congrFun hcaller.1 0
    rw [buffer_fsysFatReadFloppy _ _ (by norm_num)] at hbyte
    have hne : ∀ b : Byte, b ≠ b + 1 := by decide
    exact hne _ hbyte
  · rintro h r rfl
    exact ⟨fun p hp hfails => absurd hfails (h p hp), fun ⟨p, hp, hfails⟩ => absurd hfails (h p hp)⟩

/-- A controller that answers `0x80` to everything : the register is always ready, the cylinder
is always 128, and the result bytes say that the command failed. -/
def badDrive : Flpydsk where
  currentDrive := 0
  responses _ := 0x80
  sent := []
  dmaBuffer _ := 0
  transfers _ _ := 0
  lowMemory _ := 0

/-- A file with its data on cylinder 128. -/
def farFile : File where
  flags := fsFile
  fileLength := 0
  id := 0
  eof := 0
  currentCluster := 4577
  deviceId := 0

set_option maxRecDepth 4000 in
/-- The error is dropped, and the address of the buffer returned. -/
theorem badDrive_not_reported :
    badDrive.Fails (physSector farFile).toInt ∧
      (flpydskReadSector badDrive (physSector farFile).toInt).1 = 0x1000 := by
  decide

/-- A controller that answers with an error is taken at its word. -/
theorem not_reportsErrors : ¬∀ (s : Flpydsk) (r : Reading), s.ReportsErrors r := by
  intro h
  have hpointer := (h badDrive ⟨⟨fun _ => 0, []⟩, farFile, fun _ => 0⟩).pointer _
    List.mem_cons_self badDrive_not_reported.1
  rw [badDrive_not_reported.2] at hpointer
  exact absurd hpointer (by decide)

end Flpydsk

end Scorch
