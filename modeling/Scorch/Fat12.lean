import Scorch.Strings

/-!
# The FAT12 file system

`fat12.c`. A disk gives, for every sector number, the bytes from the address on that
`flpydsk_read_sector` returns for it. The driver reads every sector into one buffer, and
every caller has copied what it needs, or is done with it, before it asks for the next.

Local variables that the code reads before it assigns them are parameters. So is the
number of rounds a loop may take that the code does not bound : there is no result when
it takes more.

Two local objects are written past their end. `strcpy` copies the name asked for, which may
have any length, into the 32 bytes of `file.name`, and goes on over the members of the record
and what lies behind it (`File.setName`). And `char name[11]` gets a terminator behind its
last byte (`BehindName`). A `StackLayout` says what lies there. A store that overwrites what is
read again, and that the model does not follow, leaves a search without a result.

The field `name` of a file is otherwise only written for the console, and `position` never,
so neither is kept. `fsysFatRead` logs the sectors it asks for, and the searches log the
directory entries they look at.
-/

open ByteMemory

namespace Scorch

/-- What `flpydsk_read_sector` reads. -/
abbrev Disk := Word → Bytes

/-- `SECTOR_SIZE`. -/
def sectorSize : Word := 512

/-! ## Records -/

/-- `FILE`. -/
structure File where
  flags : Word
  fileLength : Word
  id : Word
  eof : Word
  currentCluster : Word
  deviceId : Word
deriving DecidableEq

/-- What the byte behind `char name[11]` of `fsysFatOpenSubDir` belongs to. -/
inductive BehindName where
  /-- Nothing that is read again. -/
  | unread
  /-- `DosFileName` : it is its first byte. This is where gcc puts it. -/
  | dosFileName
  /-- Something else that is read again, a saved register or the record `file`. -/
  | other
deriving DecidableEq

/-- Where the compiler puts the local variables of the searches. -/
structure StackLayout where
  /-- The number of bytes behind the record `file` that are not read again. -/
  behindFile : ℕ
  behindName : BehindName

/-- `FS_FILE`. -/
def fsFile : Word := 0

/-- `FS_DIRECTORY`. -/
def fsDirectory : Word := 1

/-- `FS_INVALID`. -/
def fsInvalid : Word := 2

/-- The fields of `BIOSPARAMATERBLOCK` that `fsysFatMount` reads, and two that it does not :
`SectorsPerCluster` and `ReservedSectors`. -/
structure Bpb where
  bytesPerSector : BitVec 16
  sectorsPerCluster : Byte
  reservedSectors : BitVec 16
  numberOfFats : Byte
  numDirEntries : BitVec 16
  numSectors : BitVec 16
  sectorsPerFat : BitVec 16

/-- The parameter block of a boot sector. -/
def Bpb.ofBoot (boot : Bytes) : Bpb where
  bytesPerSector := load16 boot 11
  sectorsPerCluster := boot 13
  reservedSectors := load16 boot 14
  numberOfFats := boot 16
  numDirEntries := load16 boot 17
  numSectors := load16 boot 19
  sectorsPerFat := load16 boot 22

/-- `MOUNT_INFO`. -/
structure MountInfo where
  numSectors : Word
  fatOffset : Word
  numRootEntries : Word
  rootOffset : Word
  rootSize : Word
  fatSize : Word
  fatEntrySize : Word

/-- `DIRECTORY`, with `Filename` and `Ext` as one field. -/
@[ext]
structure DirEntry where
  filename : Fin 11 → Byte
  attrib : Byte
  firstCluster : BitVec 16
  fileSize : Word

/-- `directory`, after it was moved on `i` times from the start of the buffer. -/
def DirEntry.ofBuffer (buf : Bytes) (i : ℕ) : DirEntry where
  filename k := buf (32 * i + k.val)
  attrib := buf (32 * i + 11)
  firstCluster := load16 buf (32 * i + 26)
  fileSize := loadWord buf (32 * i + 28)

/-! ## Names -/

/-- The first loop of `ToDosFileName`, which runs to `limit` and has `n` rounds left. -/
def copyBase (filename : Bytes) (limit : ℕ) : ℕ → ℕ → Bytes → ℕ × Bytes
  | 0, i, fname => (i, fname)
  | n + 1, i, fname =>
    if i < limit then
      if filename i = 0x2e ∨ i = 8 then (i, fname)
      else copyBase filename limit n (i + 1) (Function.update fname i (toupper (filename i)))
    else (i, fname)

/-- The loop over the extension, with `n` rounds left. -/
def copyExt (filename : Bytes) : ℕ → ℕ → ℕ → Bytes → Bytes
  | 0, _, _, fname => fname
  | n + 1, k, i, fname =>
    let i := i + 1
    let fname := if filename i ≠ 0 then Function.update fname (8 + k) (filename i) else fname
    copyExt filename n (k + 1) i fname

/-- The last loop, with `n` rounds left. -/
def upperExt : ℕ → ℕ → Bytes → Bytes
  | 0, _, fname => fname
  | n + 1, i, fname => upperExt n (i + 1) (Function.update fname (8 + i) (toupper (fname (8 + i))))

/-- `ToDosFileName`. -/
def toDosFileName (filename : CString) (fname : Bytes) (fNameLength : Word) : Bytes :=
  if 11 < fNameLength then fname
  else
    let fname := fun k => if k < fNameLength.toNat then 0x20 else fname k
    let limit := (BitVec.ofNat 32 (strlen filename) - 1).toNat
    let (i, fname) := copyBase filename.bytes limit fNameLength.toNat 0 fname
    let fname := if filename.bytes i = 0x2e then copyExt filename.bytes 3 0 i fname else fname
    upperExt 3 0 fname

/-- `DosFileName` : every byte of the buffer is assigned. -/
def dosFileName (filename : CString) : CString where
  bytes := Function.update (toDosFileName filename (fun _ => 0) 11) 11 0
  bound := 11
  terminated := Function.update_self _ _ _

/-- `name` : eleven bytes of the entry and a terminator. -/
def DirEntry.name (entry : DirEntry) : CString where
  bytes :=
    let filename := fun k => if h : k < 11 then entry.filename ⟨k, h⟩ else 0
    Function.update (memcpy (fun _ => 0) 0 filename 11) 11 0
  bound := 11
  terminated := Function.update_self _ _ _

/-- `name[11] = 0` on an array of eleven bytes, and what it leaves of `DosFileName`. -/
def BehindName.terminate : BehindName → CString → Option CString
  | .unread, s => some s
  | .dosFileName, s => some ⟨Function.update s.bytes 0 0, 0, Function.update_self _ _ _⟩
  | .other, _ => none

/-- The number of bytes that `strcpy` copies of `s` : it looks for the terminator from the second
byte on, and does not copy it. There are `n` bytes left to look at from the `i`-th on. -/
def copiedLength (s : Bytes) : ℕ → ℕ → Option ℕ
  | 0, _ => none
  | n + 1, i => if s i ≠ 0 then copiedLength s n (i + 1) else some i

/-- The member at byte `offset` of a record, when the first `n` bytes of the record are
overwritten with those of `s`. -/
def overwritten (s : Bytes) (n offset : ℕ) (w : Word) : Word :=
  loadWord (fun i => if i < n then s i else (w >>> (8 * (i - offset))).setWidth 8) offset

/-- `strcpy (file.name, s)`. The record has 60 bytes, and `name` is its first member. -/
def File.setName (layout : StackLayout) (file : File) (s : CString) : Option File :=
  (copiedLength s.bytes (60 + layout.behindFile) 1).map fun n =>
    { flags := overwritten s.bytes n 32 file.flags
      fileLength := overwritten s.bytes n 36 file.fileLength
      id := overwritten s.bytes n 40 file.id
      eof := overwritten s.bytes n 44 file.eof
      currentCluster := overwritten s.bytes n 52 file.currentCluster
      deviceId := overwritten s.bytes n 56 file.deviceId }

/-! ## Reading -/

/-- What the calls share : the array `FAT`, and the sectors asked for. -/
structure FatState where
  fat : Bytes
  reads : List Word

/-- `*( uint16_t*) &FAT [entryOffset]`, and the twelve bits of it that belong to the
cluster. -/
def nextCluster (fat : Bytes) (cluster entryOffset : Word) : BitVec 16 :=
  if cluster &&& 1 ≠ 0 then load16 fat entryOffset.toNat >>> 4
  else load16 fat entryOffset.toNat &&& 0x0FFF

/-- The sector of the data of a file's current cluster. -/
def physSector (file : File) : Word :=
  32 + (file.currentCluster - 1)

/-- What a call of `fsysFatRead` works on. -/
structure Reading where
  state : FatState
  file : File
  buffer : Bytes

/-- The caller's `Length` is not looked at. -/
def fsysFatRead (disk : Disk) (r : Reading) (_length : Word) : Reading :=
  let buffer := memcpy r.buffer 0 (disk (physSector r.file)) 512
  let fatOffset := r.file.currentCluster + r.file.currentCluster / 2
  let fatSector := 1 + fatOffset / sectorSize
  let entryOffset := fatOffset % sectorSize
  let fat := memcpy r.state.fat 0 (disk fatSector) 512
  let fat := memcpy fat 512 (disk (fatSector + 1)) 512
  let state :=
    { fat := fat, reads := r.state.reads ++ [physSector r.file, fatSector, fatSector + 1] }
  let next := nextCluster fat r.file.currentCluster entryOffset
  if 0xff8 ≤ next then { state := state, file := { r.file with eof := 1 }, buffer := buffer }
  else if next = 0 then { state := state, file := { r.file with eof := 1 }, buffer := buffer }
  else
    { state := state
      file := { r.file with currentCluster := next.setWidth 32 }
      buffer := buffer }

/-- The loop of `cmd_read`, `while (file.eof != 1)`, with at most `n` tests. The result is
what the calls stored, 512 bytes each. -/
def readLoop (disk : Disk) (length : Word) : ℕ → Reading → Option (List Byte)
  | 0, _ => none
  | n + 1, r =>
    if r.file.eof = 1 then some []
    else
      let r := fsysFatRead disk r length
      (readLoop disk length n r).map fun rest => (List.range 512).map r.buffer ++ rest

/-! ## Searching -/

/-- The entries looked at, as sector and place, and what the search returns. -/
@[ext]
structure Search (α : Type) where
  looked : List (Word × ℕ)
  result : α

/-- The loop over the entries of the sector in `buf`, with `n` left from the `i`-th on. -/
def searchSector (buf : Bytes) (sector : Word) (found : CString → Bool) :
    ℕ → ℕ → Search (Option DirEntry)
  | 0, _ => ⟨[], none⟩
  | n + 1, i =>
    let entry := DirEntry.ofBuffer buf i
    if found entry.name then ⟨[(sector, i)], some entry⟩
    else
      let rest := searchSector buf sector found n (i + 1)
      ⟨(sector, i) :: rest.looked, rest.result⟩

/-- The file record for an entry, on top of what the record holds. -/
def File.ofEntry (file : File) (entry : DirEntry) : File :=
  { file with
    id := 0
    currentCluster := entry.firstCluster.setWidth 32
    fileLength := entry.fileSize
    eof := 0
    flags := if entry.attrib = 0x10 then fsDirectory else fsFile }

/-- The record that says that nothing was found. -/
def File.invalid (file : File) : File :=
  { file with flags := fsInvalid }

/-- The loop over the sectors of the root directory, with `n` left. -/
def directoryLoop (disk : Disk) (mountInfo : MountInfo) (dosFileName : CString) :
    ℕ → Word → Search (Option DirEntry)
  | 0, _ => ⟨[], none⟩
  | n + 1, sector =>
    let buf := disk (mountInfo.rootOffset + sector)
    let row := searchSector buf (mountInfo.rootOffset + sector)
      (fun name => strcmp dosFileName name == 0) 16 0
    match row.result with
    | some entry => ⟨row.looked, some entry⟩
    | none =>
      let rest := directoryLoop disk mountInfo dosFileName n (sector + 1)
      ⟨row.looked ++ rest.looked, rest.result⟩

/-- `file` is what the local record holds at first. There is no file when the copy of the name
goes over more than the record. -/
def fsysFatDirectory (layout : StackLayout) (disk : Disk) (mountInfo : MountInfo) (file : File)
    (directoryName : CString) : Search (Option File) :=
  let search := directoryLoop disk mountInfo (dosFileName directoryName) 14 0
  match search.result with
  | some entry => ⟨search.looked, (file.setName layout directoryName).map (·.ofEntry entry)⟩
  | none => ⟨search.looked, some file.invalid⟩

/-- The loop `while (! kFile.eof )` of `fsysFatOpenSubDir`, with at most `n` tests. The terminator
behind `name` is written before each comparison of the round. -/
def openSubDirLoop (layout : StackLayout) (disk : Disk) (kFile : File) (filename : CString) :
    ℕ → CString → Reading → Option (Search (Option File))
  | 0, _, _ => none
  | n + 1, dosFileName, r =>
    if kFile.eof = 0 then
      let sector := physSector r.file
      let r := fsysFatRead disk r 512
      match layout.behindName.terminate dosFileName with
      | none => some ⟨[], none⟩
      | some dosFileName =>
        let row := searchSector r.buffer sector (fun name => strcmp name dosFileName == 0) 16 0
        match row.result with
        | some entry => some ⟨row.looked, (r.file.setName layout filename).map (·.ofEntry entry)⟩
        | none =>
          (openSubDirLoop layout disk kFile filename n dosFileName r).map fun rest =>
            ⟨row.looked ++ rest.looked, rest.result⟩
    else some ⟨[], some r.file.invalid⟩

/-- `r` holds the local variables `file` and `buf` as they are at first. -/
def fsysFatOpenSubDir (layout : StackLayout) (disk : Disk) (n : ℕ) (r : Reading) (kFile : File)
    (filename : CString) : Option (Search (Option File)) :=
  if kFile.flags ≠ fsInvalid then
    openSubDirLoop layout disk kFile filename n (dosFileName filename) r
  else some ⟨[], some r.file.invalid⟩

/-! ## Opening -/

/-- What the local variables of one lookup hold at first. -/
structure Locals where
  reading : Reading
  pathname : Bytes

/-- The loop that copies a part of the path, with `n` characters left. -/
def partLength (p : Bytes) : ℕ → ℕ → ℕ
  | 0, i => i
  | n + 1, i => if p i = 0x5c ∨ p i = 0 then i else partLength p n (i + 1)

/-- `pathname`, of up to sixteen characters from `p` on and a terminator. -/
def pathPart (p : Bytes) (pathname : Bytes) : CString where
  bytes := Function.update (memcpy pathname 0 p (partLength p 16 0)) (partLength p 16 0) 0
  bound := partLength p 16 0
  terminated := Function.update_self _ _ _

/-- The branches on `rootDir`. -/
def lookup (layout : StackLayout) (disk : Disk) (mountInfo : MountInfo) (n : ℕ) (r : Reading)
    (rootDir : Bool) (curDirectory : File) (pathname : CString) : Option File :=
  if rootDir then (fsysFatDirectory layout disk mountInfo r.file pathname).result
  else (fsysFatOpenSubDir layout disk n r curDirectory pathname).bind Search.result

/-- The loop `while ( p )` of `fsysFatOpen`, with at most `n` tests. -/
def openLoop (layout : StackLayout) (disk : Disk) (mountInfo : MountInfo) (ret : File)
    (locals : ℕ → Locals) (path : Bytes) : ℕ → ℕ → Bool → File → Option File
  | 0, _, _, _ => none
  | n + 1, p, rootDir, curDirectory =>
    let pathname := pathPart (fun i => path (p + i)) (locals n).pathname
    match lookup layout disk mountInfo n (locals n).reading rootDir curDirectory pathname with
    | none => none
    | some curDirectory =>
      if curDirectory.flags = fsInvalid then some ret.invalid
      else if curDirectory.flags = fsFile then some curDirectory
      else
        match strchrFrom path 0x5c n (p + 1) with
        | none => none
        | some none => some ret.invalid
        | some (some q) =>
          openLoop layout disk mountInfo ret locals path n (q + 1) false curDirectory

/-- `ret` is what the record returned in the end holds at first. -/
def fsysFatOpen (layout : StackLayout) (disk : Disk) (mountInfo : MountInfo) (ret : File)
    (locals : ℕ → Locals) (n : ℕ) (fileName : CString) : Option File :=
  match strchrFrom fileName.bytes 0x5c n 0 with
  | none => none
  | some none =>
    match (fsysFatDirectory layout disk mountInfo (locals n).reading.file fileName).result with
    | none => none
    | some curDirectory =>
      if curDirectory.flags = fsFile then some curDirectory else some ret.invalid
  | some (some p) =>
    openLoop layout disk mountInfo ret locals fileName.bytes n (p + 1) true
      (locals n).reading.file

/-- A boot sector with `BytesPerSector` zero makes the division of the code trap, and gives
a `rootSize` of zero here. -/
def fsysFatMount (disk : Disk) : MountInfo :=
  let bpb := Bpb.ofBoot (disk 0)
  { numSectors := bpb.numSectors.setWidth 32
    fatOffset := 1
    fatSize := bpb.sectorsPerFat.setWidth 32
    fatEntrySize := 8
    numRootEntries := bpb.numDirEntries.setWidth 32
    rootOffset := bpb.numberOfFats.setWidth 32 * bpb.sectorsPerFat.setWidth 32 + 1
    rootSize := (bpb.numDirEntries.setWidth 32 * 32).sdiv (bpb.bytesPerSector.setWidth 32) }

/-- The boot sector of a 1.44 MB floppy, as far as the parameter block goes. -/
def floppyBoot : Bytes := fun k =>
  [0x00, 0x02, 0x01, 0x01, 0x00, 0x02, 0xE0, 0x00, 0x40, 0x0B, 0xF0, 0x09, 0x00].getD (k - 11) 0

end Scorch
