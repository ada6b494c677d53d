import Scorch.EntrySearch

/-!
# The geometry of a volume

`fsysFatMount` reads the parameter block, `fsysFatDirectory` takes the first sector of the
root directory from it and the number of sectors from a constant, and `fsysFatRead` takes
nothing from it : the FAT starts at sector `1` and the data at sector `33`.

`AgreesOnGeometry` says that the three use the geometry of the parameter block, and
`agreesOnGeometry_iff` for which blocks they do : with one reserved sector, 224 root
entries and 18 FAT sectors.
-/

open ByteMemory

namespace Scorch

/-- Sectors of 512 bytes, one a cluster. -/
structure Bpb.OneSectorClusters (bpb : Bpb) : Prop where
  bytesPerSector : bpb.bytesPerSector = 512
  sectorsPerCluster : bpb.sectorsPerCluster = 1

/-- The first sector of the root directory. -/
def Bpb.rootSector (bpb : Bpb) : ℕ :=
  bpb.reservedSectors.toNat + bpb.numberOfFats.toNat * bpb.sectorsPerFat.toNat

/-- The places of `n` entries from sector `s` on. -/
def entryPlaces (s n : ℕ) : List (Word × ℕ) :=
  (List.range n).map fun j => (BitVec.ofNat 32 (s + j / 16), j % 16)

/-- The searches of the root directory look at its entries, and the reads at the FAT and the
data, where the parameter block puts them. -/
structure AgreesOnGeometry (disk : Disk) : Prop where
  directory : ∀ (layout : StackLayout) (file : File) (name : CString),
    (fsysFatDirectory layout disk (fsysFatMount disk) file name).looked =
      (scanPlaces disk name (entryPlaces (Bpb.ofBoot (disk 0)).rootSector
        (Bpb.ofBoot (disk 0)).numDirEntries.toNat)).looked
  read : ∀ (r : Reading) (length : Word),
    let data := (fsysFatMount disk).rootOffset + (fsysFatMount disk).rootSize +
      (r.file.currentCluster - 2)
    let fat := (Bpb.ofBoot (disk 0)).reservedSectors.setWidth 32 +
      fatOffset r.file.currentCluster / 512
    (fsysFatRead disk r length).state.reads = r.state.reads ++ [data, fat, fat + 1]

/-- A sector more is sixteen entries more. -/
theorem entryPlaces_succ (s n : ℕ) :
    entryPlaces s (16 * (n + 1)) =
      entryPlaces s (16 * n) ++ sectorPlaces (BitVec.ofNat 32 (s + n)) := by
  rw [entryPlaces, Nat.mul_succ, List.range_add, List.map_append, List.map_map, ← entryPlaces]
  congr 1
  refine List.map_congr_left fun i hi => ?_
  have hlt := List.mem_range.1 hi
  ext1
  · show BitVec.ofNat 32 (s + (16 * n + i) / 16) = BitVec.ofNat 32 (s + n)
    congr 2
    omega
  · show (16 * n + i) % 16 = i
    omega

theorem entryPlaces_eq_flatMap (s n : ℕ) :
    entryPlaces s (16 * n) =
      (List.range n).flatMap fun k => sectorPlaces (BitVec.ofNat 32 s + BitVec.ofNat 32 k) := by
  induction n with
  | zero => rfl
  | succ n ih =>
    rw [entryPlaces_succ, ih, List.range_succ, List.flatMap_append, List.flatMap_singleton,
      BitVec.ofNat_add]

theorem length_entryPlaces (s n : ℕ) : (entryPlaces s n).length = n := by
  simp [entryPlaces]

/-- The sectors that a read asks for. -/
theorem reads_fsysFatRead (disk : Disk) (r : Reading) (length : Word) :
    (fsysFatRead disk r length).state.reads = r.state.reads ++
      [physSector r.file, 1 + fatOffset r.file.currentCluster / 512,
        1 + fatOffset r.file.currentCluster / 512 + 1] := by
  simp only [fsysFatRead, apply_ite Reading.state, ite_self]
  rfl

/-- The root directory starts behind the tables, as `fsysFatMount` computes it. -/
theorem rootOffset_mount (disk : Disk) :
    (fsysFatMount disk).rootOffset =
      BitVec.ofNat 32 ((Bpb.ofBoot (disk 0)).numberOfFats.toNat *
        (Bpb.ofBoot (disk 0)).sectorsPerFat.toNat + 1) := by
  rw [BitVec.ofNat_add, BitVec.ofNat_mul, BitVec.ofNat_toNat, BitVec.ofNat_toNat]
  rfl

/-- The root directory of 224 entries has fourteen sectors. -/
theorem rootSize_mount {disk : Disk} (h512 : (Bpb.ofBoot (disk 0)).bytesPerSector = 512)
    (hentries : (Bpb.ofBoot (disk 0)).numDirEntries = 224) :
    (fsysFatMount disk).rootSize = 14 := by
  show ((Bpb.ofBoot (disk 0)).numDirEntries.setWidth 32 * 32).sdiv
    ((Bpb.ofBoot (disk 0)).bytesPerSector.setWidth 32) = 14
  rw [h512, hentries]
  decide

/-- The size of the tables does not wrap. -/
theorem fats_lt (bpb : Bpb) : bpb.numberOfFats.toNat * bpb.sectorsPerFat.toNat < 2 ^ 24 := by
  calc bpb.numberOfFats.toNat * bpb.sectorsPerFat.toNat
      < 2 ^ 8 * 2 ^ 16 := Nat.mul_lt_mul'' bpb.numberOfFats.isLt bpb.sectorsPerFat.isLt
    _ = 2 ^ 24 := by norm_num

/-- The reads are where the parameter block puts the FAT and the data exactly when the FAT
follows one reserved sector and the data sector `33`. -/
theorem reads_agree_iff (disk : Disk) :
    (∀ (r : Reading) (length : Word),
        let data := (fsysFatMount disk).rootOffset + (fsysFatMount disk).rootSize +
          (r.file.currentCluster - 2)
        let fat := (Bpb.ofBoot (disk 0)).reservedSectors.setWidth 32 +
          fatOffset r.file.currentCluster / 512
        (fsysFatRead disk r length).state.reads = r.state.reads ++ [data, fat, fat + 1]) ↔
      (Bpb.ofBoot (disk 0)).reservedSectors = 1 ∧
        (fsysFatMount disk).rootOffset + (fsysFatMount disk).rootSize = 33 := by
  simp only [reads_fsysFatRead, List.append_cancel_left_eq, List.cons.injEq, and_true, physSector]
  constructor
  · intro h
    obtain ⟨hdata, hfat, -⟩ := h (openedAt 2) 0
    constructor
    · have := (Bpb.ofBoot (disk 0)).reservedSectors.isLt
      bv_omega
    · have hcluster : (openedAt 2).file.currentCluster = 2 := rfl
      rw [hcluster] at hdata
      bv_omega
  · rintro ⟨hreserved, hstart⟩ r _
    have hone : (Bpb.ofBoot (disk 0)).reservedSectors.setWidth 32 = (1 : Word) := by
      rw [hreserved]
      rfl
    rw [hone]
    refine ⟨?_, rfl, rfl⟩
    bv_omega

/-- The search of the root directory scans the 224 entries from the sector of the mount. -/
theorem looked_fsysFatDirectory (layout : StackLayout) (disk : Disk) (file : File)
    (name : CString) :
    (fsysFatDirectory layout disk (fsysFatMount disk) file name).looked =
      (scanPlaces disk name (entryPlaces ((Bpb.ofBoot (disk 0)).numberOfFats.toNat *
        (Bpb.ofBoot (disk 0)).sectorsPerFat.toNat + 1) 224)).looked := by
  have hplaces := entryPlaces_eq_flatMap ((Bpb.ofBoot (disk 0)).numberOfFats.toNat *
    (Bpb.ofBoot (disk 0)).sectorsPerFat.toNat + 1) 14
  rw [fsysFatDirectory_scans layout disk (fsysFatMount disk) file name, rootOffset_mount,
    ← hplaces]

/-- The boot sector given, and zeros. -/
def bootDisk (boot : Bytes) : Disk :=
  fun s => if s = 0 then boot else fun _ => 0

/-- No entry of zeros has the name of eleven spaces. -/
theorem not_named_bootDisk (boot : Bytes) {s n : ℕ} (hs : 0 < s) (hend : s + n / 16 < 2 ^ 32) :
    ∀ place ∈ entryPlaces s n, ¬Named (.ofList [0x41]) (entryAt (bootDisk boot) place) := by
  intro place hplace
  obtain ⟨j, hj, rfl⟩ := List.mem_map.1 hplace
  have hlt := List.mem_range.1 hj
  have hsector : BitVec.ofNat 32 (s + j / 16) ≠ 0 := by
    have hdiv : j / 16 ≤ n / 16 := Nat.div_le_div_right hlt.le
    intro h0
    have := congrArg BitVec.toNat h0
    rw [BitVec.toNat_ofNat, Nat.mod_eq_of_lt (by omega)] at this
    exact absurd this (by show s + j / 16 ≠ 0; omega)
  have hentry : (entryAt (bootDisk boot) (BitVec.ofNat 32 (s + j / 16), j % 16)).name =
      (DirEntry.ofBuffer (fun _ => 0) 0).name := by
    rw [entryAt, bootDisk, if_neg hsector]
    rfl
  rw [Named, hentry]
  decide

/-- Mounting and using a volume agree on its geometry exactly when it has one reserved sector,
224 entries in the root directory and 18 sectors of FATs. -/
theorem agreesOnGeometry_iff (boot : Bytes) (h : (Bpb.ofBoot boot).OneSectorClusters) :
    (∀ disk, disk 0 = boot → AgreesOnGeometry disk) ↔
      (Bpb.ofBoot boot).reservedSectors = 1 ∧ (Bpb.ofBoot boot).numDirEntries = 224 ∧
        (Bpb.ofBoot boot).numberOfFats.toNat * (Bpb.ofBoot boot).sectorsPerFat.toNat = 18 := by
  constructor
  · intro hagree
    have hboot : bootDisk boot 0 = boot := if_pos rfl
    obtain ⟨hdirectory, hread⟩ := hagree (bootDisk boot) hboot
    obtain ⟨hreserved, hstart⟩ := (reads_agree_iff _).1 hread
    rw [hboot] at hreserved
    have hlt := fats_lt (Bpb.ofBoot boot)
    have hentries : (Bpb.ofBoot boot).numDirEntries = 224 := by
      have hlooked := hdirectory ⟨0, .unread⟩ (openedAt 0).file (.ofList [0x41])
      have hcount := (Bpb.ofBoot boot).numDirEntries.isLt
      have hroot : (Bpb.ofBoot boot).rootSector =
          1 + (Bpb.ofBoot boot).numberOfFats.toNat * (Bpb.ofBoot boot).sectorsPerFat.toNat := by
        rw [Bpb.rootSector, hreserved]
        rfl
      rw [looked_fsysFatDirectory, hboot, hroot,
        scanPlaces_of_none (not_named_bootDisk boot (by omega) (by omega)),
        scanPlaces_of_none (not_named_bootDisk boot (by omega) (by omega))] at hlooked
      have hlen := congrArg List.length hlooked
      rw [length_entryPlaces, length_entryPlaces] at hlen
      bv_omega
    have hsize := rootSize_mount (hboot ▸ h.bytesPerSector) (hboot ▸ hentries)
    rw [rootOffset_mount, hsize, hboot] at hstart
    refine ⟨hreserved, hentries, ?_⟩
    bv_omega
  · rintro ⟨hreserved, hentries, hfats⟩ disk rfl
    constructor
    · intro layout file name
      rw [looked_fsysFatDirectory, hentries, Bpb.rootSector, hreserved, hfats]
      rfl
    · refine (reads_agree_iff disk).2 ⟨hreserved, ?_⟩
      rw [rootOffset_mount, rootSize_mount h.bytesPerSector hentries, hfats]
      rfl

/-- The volume of a 1.44 MB floppy. -/
theorem agreesOnGeometry_floppy : AgreesOnGeometry (bootDisk floppyBoot) :=
  (agreesOnGeometry_iff floppyBoot ⟨by decide, by decide⟩).2 ⟨by decide, by decide, by decide⟩ _
    (if_pos rfl)

/-- The boot sector of a 1.2 MB floppy, which has FATs of seven sectors. -/
def highDensityBoot : Bytes := fun k =>
  [0x00, 0x02, 0x01, 0x01, 0x00, 0x02, 0xE0, 0x00, 0x60, 0x09, 0xF9, 0x07, 0x00].getD (k - 11) 0

/-- Its data start at sector `29`. -/
theorem not_agreesOnGeometry :
    ¬∀ boot, (Bpb.ofBoot boot).OneSectorClusters → ∀ disk, disk 0 = boot →
      AgreesOnGeometry disk := by
  intro h
  have hread := (h highDensityBoot ⟨by decide, by decide⟩ (bootDisk highDensityBoot)
    (if_pos rfl)).read
  exact absurd ((reads_agree_iff _).1 hread).2 (by decide)

end Scorch
