import Scorch.ClusterChain

/-!
# Reading a whole file

The length of a file stands in its directory entry, and the end is found through the FAT.
`fsysFatRead` stores 512 bytes whatever the length of the file and the length of the
caller's buffer, so a reader gets the bytes of the whole chain
(`readLoop_of_chain`). They are the bytes of the file, and fit the buffer, exactly when
the file fills its last cluster and the buffer has room for a sector
(`readLoop_delivers_file_iff`).

A file that `fsysFatOpen` finds is at its start (`atStart_openLoop`), at whatever depth it was
found, so its chain is read from the first cluster on.
-/

open ByteMemory GuardedRun

namespace Scorch

/-- The sector of data cluster `c`. -/
def clusterBytes (disk : Disk) (c : ℕ) : List Byte :=
  (List.range 512).map (disk (BitVec.ofNat 32 (31 + c)))

/-- The sectors of the clusters, one after another. -/
def chainBytes (disk : Disk) (cs : List ℕ) : List Byte :=
  cs.flatMap (clusterBytes disk)

theorem length_chainBytes (disk : Disk) (cs : List ℕ) :
    (chainBytes disk cs).length = 512 * cs.length := by
  induction cs with
  | nil => rfl
  | cons c cs ih =>
    rw [chainBytes, List.flatMap_cons, ← chainBytes, List.length_append, ih]
    simp [clusterBytes]
    omega

/-- The clusters of a file as its directory entry and the FAT of a valid disk give them : none
for an empty file, and otherwise a chain just long enough for the length. -/
inductive Allocated (disk : Disk) (file : File) : List ℕ → Prop where
  | empty (hlength : file.fileLength = 0) (hcluster : file.currentCluster = 0) :
      Allocated disk file []
  | clusters {c : BitVec 16} {cs : List ℕ} (hchain : Chain disk (c.toNat :: cs))
      (hcluster : file.currentCluster = c.setWidth 32)
      (hlo : 512 * cs.length < file.fileLength.toNat)
      (hhi : file.fileLength.toNat ≤ 512 * (cs.length + 1)) : Allocated disk file (c.toNat :: cs)

/-! ## Files that are found -/

/-- A file, if it is one, is at its beginning. -/
def AtStart (file : File) : Prop :=
  file.flags = fsFile → file.eof = 0

/-- A file that was found is at its start. -/
theorem atStart_ofEntry (file : File) (entry : DirEntry) : AtStart (file.ofEntry entry) :=
  fun _ => rfl

theorem atStart_invalid (file : File) : AtStart file.invalid :=
  fun h => absurd h (show fsInvalid ≠ fsFile by decide)

/-- Whatever the name leaves of the record, an entry fills in the rest. -/
theorem atStart_of_map_ofEntry {record : Option File} {entry : DirEntry} {file : File}
    (h : record.map (·.ofEntry entry) = some file) : AtStart file := by
  obtain ⟨record, -, rfl⟩ := Option.map_eq_some_iff.1 h
  exact atStart_ofEntry record entry

section Found

variable {layout : StackLayout} {disk : Disk} {mountInfo : MountInfo} {file : File} {n : ℕ}

/-- The search of the root directory returns nothing else. -/
theorem atStart_fsysFatDirectory {record : File} {name : CString}
    (h : (fsysFatDirectory layout disk mountInfo record name).result = some file) :
    AtStart file := by
  unfold fsysFatDirectory at h
  dsimp only at h
  split at h
  · exact atStart_of_map_ofEntry h
  · exact Option.some.inj h ▸ atStart_invalid record

theorem atStart_openSubDirLoop {kFile : File} {filename name : CString} {r : Reading}
    {s : Search (Option File)}
    (h : openSubDirLoop layout disk kFile filename n name r = some s)
    (hs : s.result = some file) : AtStart file := by
  induction n generalizing name r s with
  | zero => simp [openSubDirLoop] at h
  | succ n ih =>
    rw [openSubDirLoop] at h
    split_ifs at h with heof
    · dsimp only at h
      split at h
      · obtain rfl := Option.some.inj h
        exact nomatch hs
      · split at h
        · obtain rfl := Option.some.inj h
          exact atStart_of_map_ofEntry hs
        · obtain ⟨rest, hrest, rfl⟩ := Option.map_eq_some_iff.1 h
          exact ih hrest hs
    · obtain rfl := Option.some.inj h
      exact Option.some.inj hs ▸ atStart_invalid r.file

theorem atStart_fsysFatOpenSubDir {r : Reading} {kFile : File} {name : CString}
    {s : Search (Option File)} (h : fsysFatOpenSubDir layout disk n r kFile name = some s)
    (hs : s.result = some file) : AtStart file := by
  rw [fsysFatOpenSubDir] at h
  split_ifs at h with hflags
  · exact atStart_openSubDirLoop h hs
  · obtain rfl := Option.some.inj h
    exact Option.some.inj hs ▸ atStart_invalid r.file

theorem atStart_lookup {r : Reading} {rootDir : Bool} {curDirectory : File} {pathname : CString}
    (h : lookup layout disk mountInfo n r rootDir curDirectory pathname = some file) :
    AtStart file := by
  rw [lookup] at h
  split_ifs at h with hroot
  · exact atStart_fsysFatDirectory h
  · obtain ⟨s, hs, hfile⟩ := Option.bind_eq_some_iff.1 h
    exact atStart_fsysFatOpenSubDir hs hfile

theorem atStart_openLoop {ret : File} {locals : ℕ → Locals} {path : Bytes} {p : ℕ}
    {rootDir : Bool} {curDirectory : File}
    (h : openLoop layout disk mountInfo ret locals path n p rootDir curDirectory = some file) :
    AtStart file := by
  induction n generalizing p rootDir curDirectory with
  | zero => simp [openLoop] at h
  | succ n ih =>
    rw [openLoop] at h
    split at h
    case h_1 => contradiction
    case h_2 cur hfound =>
      split_ifs at h with hinvalid hfile
      · obtain rfl := Option.some.inj h
        exact atStart_invalid ret
      · obtain rfl := Option.some.inj h
        exact atStart_lookup hfound
      · split at h
        · contradiction
        · obtain rfl := Option.some.inj h
          exact atStart_invalid ret
        · exact ih h

/-- A file that is opened is at its beginning. -/
theorem atStart_fsysFatOpen {ret : File} {locals : ℕ → Locals} {fileName : CString}
    (h : fsysFatOpen layout disk mountInfo ret locals n fileName = some file) :
    AtStart file := by
  rw [fsysFatOpen] at h
  split at h
  · contradiction
  · split at h
    case h_1 => contradiction
    case h_2 cur hfound =>
      split_ifs at h with hfile
      · obtain rfl := Option.some.inj h
        exact atStart_fsysFatDirectory hfound
      · obtain rfl := Option.some.inj h
        exact atStart_invalid ret
  · exact atStart_openLoop h

end Found

/-! ## The bytes delivered -/

section Loop

variable {disk : Disk} {length : Word}

/-- Before the end of the file a round reads one cluster and goes on. -/
theorem readLoop_succ_of_ne (n : ℕ) {r : Reading} (h : r.file.eof ≠ 1) :
    readLoop disk length (n + 1) r = (readLoop disk length n (fsysFatRead disk r length)).map
      fun rest => (List.range 512).map (fsysFatRead disk r length).buffer ++ rest := by
  rw [readLoop, if_neg h]

/-- More tests than the loop takes change nothing. -/
theorem readLoop_add {n : ℕ} (k : ℕ) {r : Reading} {bytes : List Byte}
    (h : readLoop disk length n r = some bytes) : readLoop disk length (n + k) r = some bytes := by
  induction n generalizing r bytes with
  | zero => simp [readLoop] at h
  | succ n ih =>
    rw [Nat.add_right_comm, readLoop]
    rw [readLoop] at h
    split_ifs at h ⊢ with heof
    · exact h
    · obtain ⟨rest, hrest, rfl⟩ := Option.map_eq_some_iff.1 h
      dsimp only
      rw [ih hrest]
      rfl

/-- What is read does not depend on the number of rounds allowed. -/
theorem readLoop_unique {n k : ℕ} {r : Reading} {bytes bytes' : List Byte}
    (h : readLoop disk length n r = some bytes) (h' : readLoop disk length k r = some bytes') :
    bytes = bytes' := by
  have hn := readLoop_add k h
  have hk := readLoop_add n h'
  rw [Nat.add_comm, hn] at hk
  exact Option.some.inj hk

/-- A reader of an open file gets at least one sector. -/
theorem readLoop_ne_nil {n : ℕ} {r : Reading} (heof : r.file.eof ≠ 1) :
    readLoop disk length n r ≠ some [] := by
  intro h
  cases n with
  | zero => simp [readLoop] at h
  | succ n =>
    rw [readLoop_succ_of_ne n heof] at h
    obtain ⟨rest, -, hrest⟩ := Option.map_eq_some_iff.1 h
    have hlen := congrArg List.length hrest
    simp at hlen

/-- The buffer holds the cluster that was read. -/
theorem At.map_buffer {r : Reading} {c : ℕ} (h : At r c) :
    (List.range 512).map (fsysFatRead disk r length).buffer = clusterBytes disk c :=
  List.map_congr_left fun _ hj => h.buffer disk length (List.mem_range.1 hj)

/-- A reader of a chain gets the bytes of all its clusters. -/
theorem readLoop_of_chain {cs : List ℕ} (h : Chain disk cs) {r : Reading}
    (hat : ∀ c ∈ cs.head?, At r c) :
    readLoop disk length (cs.length + 1) r = some (chainBytes disk cs) := by
  induction h generalizing r with
  | @last c hlast =>
    have hc := hat c rfl
    have heof : (fsysFatRead disk r length).file.eof = 1 := by rw [hc.file_last hlast]
    rw [List.length_singleton, readLoop_succ_of_ne 1 (by rw [hc.eof]; decide), readLoop,
      if_pos heof, hc.map_buffer]
    simp [chainBytes]
  | @link c d cs hlink hlo hhi hrest ih =>
    have hc := hat c rfl
    have hd := hc.link hlink hlo hhi length
    have hih := ih (r := fsysFatRead disk r length) fun e he => Option.some.inj he ▸ hd
    rw [List.length_cons, readLoop_succ_of_ne _ (by rw [hc.eof]; decide), hih, hc.map_buffer]
    rfl

/-- No call stores behind the caller's buffer exactly when the buffer has room for a
sector. -/
theorem stores_within_iff (disk : Disk) (length : Word) :
    (∀ (r : Reading) (i : ℕ), length.toNat ≤ i →
        (fsysFatRead disk r length).buffer i = r.buffer i) ↔ 512 ≤ length.toNat := by
  constructor
  · intro h
    by_contra hlt
    have hi := h { openedAt 2 with buffer := fun k => disk (physSector (openedAt 2).file) k + 1 }
      length.toNat le_rfl
    rw [fsysFatRead_buffer, if_pos (by omega)] at hi
    have hne : ∀ b : Byte, b ≠ b + 1 := by decide
    exact hne _ hi
  · intro hle r i hi
    rw [fsysFatRead_buffer, if_neg (by omega)]

/-- A reader of an open file gets the bytes of the file exactly when the file fills its last
cluster. -/
theorem readLoop_eq_take_iff {r : Reading} {cs : List ℕ} (heof : r.file.eof = 0)
    (hvalid : Allocated disk r.file cs) :
    (∃ k, readLoop disk length k r = some ((chainBytes disk cs).take r.file.fileLength.toNat)) ↔
      r.file.fileLength ≠ 0 ∧ 512 ∣ r.file.fileLength.toNat := by
  cases hvalid with
  | empty hlength _ =>
    refine iff_of_false ?_ fun h => h.1 hlength
    rintro ⟨k, hk⟩
    rw [chainBytes, List.flatMap_nil, List.take_nil] at hk
    exact readLoop_ne_nil (by rw [heof]; decide) hk
  | @clusters c cs hchain hcluster hlo hhi =>
    have hat : At r c.toNat := ⟨pointsTo_of_setWidth hcluster, heof⟩
    have hall : readLoop disk length (cs.length + 2) r =
        some (chainBytes disk (c.toNat :: cs)) :=
      readLoop_of_chain hchain fun d hd => Option.some.inj hd ▸ hat
    have hlen := length_chainBytes disk (c.toNat :: cs)
    rw [List.length_cons] at hlen
    constructor
    · rintro ⟨k, hk⟩
      have htake := congrArg List.length (readLoop_unique hk hall)
      rw [List.length_take, hlen] at htake
      refine ⟨fun h0 => ?_, cs.length + 1, by omega⟩
      rw [h0] at hlo
      exact absurd hlo (Nat.not_lt_zero _)
    · rintro ⟨-, hdvd⟩
      refine ⟨_, hall.trans ?_⟩
      rw [List.take_of_length_le (by omega)]

end Loop

/-- A file that is opened on a valid disk is read byte by byte up to its length, and no call
stores more than `Length` bytes, exactly when the file is not empty, fills its last cluster
and is read into a buffer with room for a sector. -/
theorem readLoop_delivers_file_iff {layout : StackLayout} {disk : Disk} {mountInfo : MountInfo}
    {ret : File} {locals : ℕ → Locals} {n : ℕ} {fileName : CString} {file : File}
    (hopen : fsysFatOpen layout disk mountInfo ret locals n fileName = some file)
    (hfile : file.flags = fsFile) {cs : List ℕ} (hvalid : Allocated disk file cs) (length : Word)
    {r : Reading} (hr : r.file = file) :
    ((∃ k, readLoop disk length k r = some ((chainBytes disk cs).take file.fileLength.toNat)) ∧
        ∀ (r' : Reading) (i : ℕ), length.toNat ≤ i →
          (fsysFatRead disk r' length).buffer i = r'.buffer i) ↔
      file.fileLength ≠ 0 ∧ 512 ∣ file.fileLength.toNat ∧ 512 ≤ length.toNat := by
  have heof := atStart_fsysFatOpen hopen hfile
  subst hr
  rw [stores_within_iff, readLoop_eq_take_iff heof hvalid, and_assoc]

/-- A floppy with one file, `A.TXT`, of the given length in cluster `2`. -/
def oneFile (length : Word) : Disk := fun s k =>
  if s = 0 then floppyBoot k
  else if s = 1 then [0xF0, 0xFF, 0xFF, 0xFF, 0x0F].getD k 0
  else if s = 19 then
    [0x41, 0x20, 0x20, 0x20, 0x20, 0x20, 0x20, 0x20, 0x54, 0x58, 0x54, 0x20, 0, 0, 0, 0, 0, 0, 0,
      0, 0, 0, 0, 0, 0, 0, 0x02, 0, length.setWidth 8, (length >>> 8).setWidth 8,
      (length >>> 16).setWidth 8, (length >>> 24).setWidth 8].getD k 0
  else 0

/-- `A.TXT`. -/
def aTxt : CString :=
  .ofList [0x41, 0x2e, 0x54, 0x58, 0x54]

/-- The record of that file. -/
def aTxtFile (length : Word) : File :=
  { (openedAt 2).file with fileLength := length }

theorem open_oneFile (length : Word) (h : length = 5 ∨ length = 512) :
    fsysFatOpen ⟨0, .dosFileName⟩ (oneFile length) (fsysFatMount (oneFile length)) (openedAt 0).file
      (fun _ => ⟨openedAt 0, fun _ => 0⟩) 8 aTxt = some (aTxtFile length) := by
  rcases h with rfl | rfl <;> decide

theorem allocated_oneFile {length : Word} (h : length = 5 ∨ length = 512) :
    Allocated (oneFile length) (aTxtFile length) [2] := by
  have hchain : Chain (oneFile length) [2] := .last (by rcases h with rfl | rfl <;> decide)
  rcases h with rfl | rfl
  · exact .clusters (c := 2) hchain rfl (by decide) (by decide)
  · exact .clusters (c := 2) hchain rfl (by decide) (by decide)

/-- A reader of that file. -/
def readerOf (file : File) : Reading :=
  { openedAt 0 with file := file }

/-- A file of 512 bytes, read into a buffer of that size. -/
theorem readLoop_delivers_oneFile :
    (∃ k, readLoop (oneFile 512) 512 k (readerOf (aTxtFile 512)) =
        some ((chainBytes (oneFile 512) [2]).take (512 : Word).toNat)) ∧
      ∀ (r' : Reading) (i : ℕ), (512 : Word).toNat ≤ i →
        (fsysFatRead (oneFile 512) r' 512).buffer i = r'.buffer i :=
  (readLoop_delivers_file_iff (open_oneFile 512 (Or.inr rfl)) rfl
    (allocated_oneFile (Or.inr rfl)) 512 (r := readerOf (aTxtFile 512)) rfl).2
    ⟨by decide, by decide, by decide⟩

/-- A file of five bytes is delivered with the 507 bytes behind it. -/
theorem not_readLoop_delivers_file :
    ¬∀ (layout : StackLayout) (disk : Disk) (mountInfo : MountInfo) (ret : File)
      (locals : ℕ → Locals) (n : ℕ) (fileName : CString) (file : File) (cs : List ℕ)
      (length : Word) (r : Reading),
      fsysFatOpen layout disk mountInfo ret locals n fileName = some file → file.flags = fsFile →
      Allocated disk file cs → r.file = file →
      (∃ k, readLoop disk length k r = some ((chainBytes disk cs).take file.fileLength.toNat)) ∧
        ∀ (r' : Reading) (i : ℕ), length.toNat ≤ i →
          (fsysFatRead disk r' length).buffer i = r'.buffer i := by
  intro h
  have hread := (h _ _ _ _ _ _ _ _ _ 512 (readerOf (aTxtFile 5)) (open_oneFile 5 (Or.inl rfl)) rfl
    (allocated_oneFile (Or.inl rfl)) rfl).1
  have hdvd := (readLoop_eq_take_iff (r := readerOf (aTxtFile 5)) rfl
    (allocated_oneFile (Or.inl rfl))).1 hread
  exact absurd hdvd.2 (by decide)

end Scorch
