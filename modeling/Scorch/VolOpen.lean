import Scorch.ClusterChain
import Scorch.Fsys

/-!
# Opening a file by device

`volOpenFile` of `fsys.c`. It looks for the colon behind the device letter at the third
byte of the name, without a look at the first two, and uses the letter as it is. The bytes
of the name and the entries of `_FileSystems` that it looks at are logged.

They are those of the name and of the array exactly when the name has two characters and a
device letter, if there is one, is a small one (`volOpenFile_safe_iff`).

The two reads of the name and the index of the array are compared with the bounds one by one.
-/

open ByteMemory

namespace Scorch

/-- The file that `volOpenFile` returns, and where it looks. -/
structure VolOpening where
  result : File
  /-- The entries of `_FileSystems`. -/
  indices : List ℤ
  /-- The bytes of `fname`. -/
  reads : List ℕ

/-- `fileSystems` is what memory holds at every index of `_FileSystems`, in the array or not,
`openFile` the function `Open` of the filesystem at an address, and `file` what the local
record holds at first. -/
def volOpenFile (fileSystems : ℤ → Word) (openFile : Word → Bytes → File) (file : File) :
    Option CString → VolOpening
  | none => ⟨file.invalid, [], []⟩
  | some fname =>
    let named := fname.bytes 2 = 0x3a
    let device := if named then fname.bytes 0 else 0x61
    let filename := if named then fun k => fname.bytes (k + 3) else fname.bytes
    let reads := if named then [2, 0] else [2]
    let index : ℤ := device.toNat - 0x61
    if fileSystems index ≠ 0 then
      ⟨{ openFile (fileSystems index) filename with deviceId := device.setWidth 32 },
        [index, index], reads⟩
    else ⟨file.invalid, [index], reads⟩

/-- Only entries of the array and bytes of the string are looked at. -/
structure VolOpening.Safe (o : VolOpening) (fname : CString) : Prop where
  indices : ∀ i ∈ o.indices, 0 ≤ i ∧ i < deviceMax
  reads : ∀ k ∈ o.reads, k ≤ strlen fname

section Open

variable (fileSystems : ℤ → Word) (openFile : Word → Bytes → File) (file : File) (fname : CString)

/-- The one entry that is looked at is that of the device. -/
theorem mem_indices_volOpenFile (i : ℤ) :
    i ∈ (volOpenFile fileSystems openFile file (some fname)).indices ↔
      i = (if fname.bytes 2 = 0x3a then fname.bytes 0 else 0x61).toNat - 0x61 := by
  rw [volOpenFile]
  dsimp only
  split_ifs <;> simp

/-- The third byte is read first, and the first only when that is a colon. -/
theorem reads_volOpenFile :
    (volOpenFile fileSystems openFile file (some fname)).reads =
      if fname.bytes 2 = 0x3a then [2, 0] else [2] := by
  rw [volOpenFile]
  dsimp only
  split_ifs <;> rfl

/-- A call keeps to the table and the name exactly when the name has two characters and the
letter before a colon is one of `a` to `z`. -/
theorem volOpenFile_safe_iff :
    (volOpenFile fileSystems openFile file (some fname)).Safe fname ↔
      2 ≤ strlen fname ∧
        (fname.bytes 2 = 0x3a → 0x61 ≤ fname.bytes 0 ∧ fname.bytes 0 ≤ 0x7a) := by
  have hmem := mem_indices_volOpenFile fileSystems openFile file fname
  have hreads := reads_volOpenFile fileSystems openFile file fname
  have hmax : (deviceMax : ℤ) = 26 := rfl
  have hlo : (0x61 : Byte).toNat = 0x61 := rfl
  have hhi : (0x7a : Byte).toNat = 0x7a := rfl
  constructor
  · rintro ⟨hindices, hbytes⟩
    rw [hreads] at hbytes
    refine ⟨hbytes 2 (by split_ifs <;> simp), fun hcolon => ?_⟩
    have hrange := hindices _ ((hmem _).2 rfl)
    rw [if_pos hcolon, hmax] at hrange
    rw [BitVec.le_def, BitVec.le_def, hlo, hhi]
    omega
  · rintro ⟨hlen, hletter⟩
    refine ⟨fun i hi => ?_, fun k hk => ?_⟩
    · rw [(hmem i).1 hi, hmax]
      split_ifs with hcolon
      · obtain ⟨h1, h2⟩ := hletter hcolon
        rw [BitVec.le_def, hlo] at h1
        rw [BitVec.le_def, hhi] at h2
        omega
      · rw [hlo]
        norm_num
    · have hk2 : k ≤ 2 := by
        rw [hreads] at hk
        split_ifs at hk <;> simp at hk <;> omega
      omega

end Open

/-- The empty name is read two bytes behind its terminator. -/
theorem not_volOpenFile_safe :
    ¬∀ (fileSystems : ℤ → Word) (openFile : Word → Bytes → File) (file : File) (fname : CString),
      (volOpenFile fileSystems openFile file (some fname)).Safe fname := by
  intro h
  have hsafe := h (fun _ => 0) (fun _ _ => (openedAt 0).file) (openedAt 0).file (.ofList [])
  have hlen : strlen (.ofList []) = 0 := by decide
  have hread := hsafe.reads 2 (by decide)
  rw [hlen] at hread
  exact absurd hread (by decide)

end Scorch
