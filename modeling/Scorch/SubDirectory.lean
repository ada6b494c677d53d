import Scorch.EntrySearch
import Scorch.FileRead
import Scorch.ShortNames

/-!
# Searching a subdirectory

`fsysFatOpenSubDir` is given the directory `kFile` and builds its result in the local
record `file`. It tests `kFile` for the end of the file and reads through `file`, which
nothing has assigned before.

So it searches the clusters that the record points to by chance, and does not stop after
the last of them : `eof` is set in `file`. And for every entry it stores a terminator behind
its array `name`, in `DosFileName` for one compiler, which then is empty : the search finds
the first entry that is free.

It searches the directory as it should exactly when the record happens to hold the
directory's first cluster, the name is found and fits the record, and the terminator hits
nothing that matters (`openSubDir_scans_directory_iff`).
-/

open ByteMemory

namespace Scorch

/-- The places of the entries of a directory with the given clusters. -/
def chainPlaces (cs : List ℕ) : List (Word × ℕ) :=
  cs.flatMap fun c => sectorPlaces (BitVec.ofNat 32 (31 + c))

/-- A directory that is opened, with the clusters from `c` on. -/
structure OpenDirectory (disk : Disk) (kFile : File) (c : BitVec 16) (cs : List ℕ) : Prop where
  flags : kFile.flags = fsDirectory
  eof : kFile.eof = 0
  currentCluster : kFile.currentCluster = c.setWidth 32
  chain : Chain disk (c.toNat :: cs)

theorem exists_sectorPlaces_cons (sector : Word) :
    ∃ places, sectorPlaces sector = (sector, 0) :: places :=
  ⟨_, rfl⟩

/-- The first place is always looked at. -/
theorem head?_looked (disk : Disk) (name : CString) (sector : Word) (places : List (Word × ℕ)) :
    (scanPlaces disk name (sectorPlaces sector ++ places)).looked.head? = some (sector, 0) := by
  obtain ⟨rest, hrest⟩ := exists_sectorPlaces_cons sector
  rw [hrest, List.cons_append, scanPlaces]
  split_ifs <;> rfl

/-! ## The terminator behind the name -/

/-- The comparisons behind the store to `name[11]` are with the 8.3 form of `name`, in this and in
every later round. `d` is `DosFileName` in front of the store. -/
def LooksFor (layout : StackLayout) (d name : CString) : Prop :=
  ∃ d', layout.behindName.terminate d = some d' ∧ layout.behindName.terminate d' = some d' ∧
    d'.content = (dosFileName name).content

/-- The store to `name[11]` leaves the name that is looked for : it hits nothing that is read, or
the first byte of `DosFileName` when that is zero anyway. -/
def StackLayout.SparesName (layout : StackLayout) (name : CString) : Prop :=
  layout.behindName = .unread ∨ layout.behindName = .dosFileName ∧ strlen name = 0

section Terminator

variable {layout : StackLayout} {name : CString}

/-- A name that starts with the terminator is looked for as the empty name. -/
theorem looksFor_of_empty (h : layout.behindName = .dosFileName) (d : CString)
    (hname : strlen name = 0) : LooksFor layout d name := by
  have hzero : (Function.update d.bytes 0 0) 0 = 0 := Function.update_self _ _ _
  refine ⟨⟨Function.update d.bytes 0 0, 0, hzero⟩, by rw [h]; rfl, ?_, ?_⟩
  · rw [h]
    simp only [BehindName.terminate, Function.update_idem]
  · have hlen := strlen_eq_zero_of_bytes (s := ⟨Function.update d.bytes 0 0, 0, hzero⟩) hzero
    rw [content_dosFileName_of_empty hname, CString.content, hlen]
    rfl

/-- When the name is spared, it is looked for. -/
theorem StackLayout.SparesName.looksFor (h : layout.SparesName name) :
    LooksFor layout (dosFileName name) name := by
  rcases h with h | ⟨h, hname⟩
  · exact ⟨dosFileName name, by rw [h]; rfl, by rw [h]; rfl, rfl⟩
  · exact looksFor_of_empty h _ hname

end Terminator

/-! ## The loop -/

section Loop

variable {layout : StackLayout} {disk : Disk} {kFile : File} {filename name d : CString}

/-- A round searches the sector of the record's cluster. -/
theorem searchSector_round (hd : d.content = (dosFileName name).content) (r : Reading) :
    searchSector (fsysFatRead disk r 512).buffer (physSector r.file)
        (fun found => strcmp found d == 0) 16 0 =
      scanPlaces disk name (sectorPlaces (physSector r.file)) := by
  refine searchSector_sixteen (fun k hk => ?_) _ fun entry => ?_
  · rw [fsysFatRead_buffer, if_pos hk]
  · rw [beq_strcmp_eq, hd]
    rfl

/-- A round that finds the name ends the loop. -/
theorem openSubDirLoop_of_some (heof : kFile.eof = 0) (hd : LooksFor layout d name) (n : ℕ)
    {r : Reading} {entry : DirEntry}
    (h : (scanPlaces disk name (sectorPlaces (physSector r.file))).result = some entry) :
    openSubDirLoop layout disk kFile filename (n + 1) d r =
      some ⟨(scanPlaces disk name (sectorPlaces (physSector r.file))).looked,
        ((fsysFatRead disk r 512).file.setName layout filename).map (·.ofEntry entry)⟩ := by
  obtain ⟨d', hstore, -, hcontent⟩ := hd
  rw [openSubDirLoop, if_pos heof]
  dsimp only
  rw [hstore]
  dsimp only
  rw [searchSector_round hcontent, h]

/-- Another one leaves the rest to the next. -/
theorem openSubDirLoop_of_none (heof : kFile.eof = 0) (hd : LooksFor layout d name) {r : Reading}
    (h : (scanPlaces disk name (sectorPlaces (physSector r.file))).result = none) :
    ∃ d', LooksFor layout d' name ∧ ∀ n,
      openSubDirLoop layout disk kFile filename (n + 1) d r =
        (openSubDirLoop layout disk kFile filename n d' (fsysFatRead disk r 512)).map fun rest =>
          ⟨sectorPlaces (physSector r.file) ++ rest.looked, rest.result⟩ := by
  obtain ⟨d', hstore, hagain, hcontent⟩ := hd
  refine ⟨d', ⟨d', hagain, hagain, hcontent⟩, fun n => ?_⟩
  rw [openSubDirLoop, if_pos heof]
  dsimp only
  rw [hstore]
  dsimp only
  rw [searchSector_round hcontent, h, looked_of_none h]

/-- The entries of the first cluster, and those of the rest. -/
theorem chainPlaces_cons (c : ℕ) (cs : List ℕ) :
    chainPlaces (c :: cs) = sectorPlaces (BitVec.ofNat 32 (31 + c)) ++ chainPlaces cs :=
  List.flatMap_cons

/-- A record at a cluster with the name gives the search of the whole chain. -/
theorem openSubDirLoop_scans_of_some (heof : kFile.eof = 0) (hd : LooksFor layout d name)
    (hfits : NameFits layout filename) {r : Reading} {c : ℕ} (hr : PointsTo r c)
    {entry : DirEntry}
    (h : (scanPlaces disk name (sectorPlaces (physSector r.file))).result = some entry)
    (cs : List ℕ) :
    ∃ n s, openSubDirLoop layout disk kFile filename n d r = some s ∧
      s.Scans disk name (chainPlaces (c :: cs)) := by
  obtain ⟨record, hrecord⟩ := Option.isSome_iff_exists.1
    ((setName_isSome_iff layout (fsysFatRead disk r 512).file filename).2 hfits)
  refine ⟨1, _, openSubDirLoop_of_some heof hd 0 h, ?_, ?_⟩
  · rw [chainPlaces_cons, ← hr.physSector_eq, scanPlaces_append_of_some h]
  · rw [chainPlaces_cons, ← hr.physSector_eq, scanPlaces_append_of_some h, h, hrecord]
    exact ⟨_, rfl, rfl⟩

/-- A directory that has the name is searched up to it, from the record's cluster on. -/
theorem openSubDirLoop_scans (heof : kFile.eof = 0) (hd : LooksFor layout d name)
    (hfits : NameFits layout filename) {cs : List ℕ} (hchain : Chain disk cs) {r : Reading}
    (hr : ∀ c ∈ cs.head?, PointsTo r c)
    (hnamed : ∃ place ∈ chainPlaces cs, Named name (entryAt disk place)) :
    ∃ n s, openSubDirLoop layout disk kFile filename n d r = some s ∧
      s.Scans disk name (chainPlaces cs) := by
  induction hchain generalizing d r with
  | @last c hlast =>
    have hc := hr c rfl
    cases hscan : (scanPlaces disk name (sectorPlaces (physSector r.file))).result with
    | some entry => exact openSubDirLoop_scans_of_some heof hd hfits hc hscan []
    | none =>
      obtain ⟨place, hmem, hplace⟩ := hnamed
      rw [chainPlaces_cons, ← hc.physSector_eq, chainPlaces, List.flatMap_nil,
        List.append_nil] at hmem
      exact absurd hplace ((scanPlaces_eq_none_iff _).1 hscan place hmem)
  | @link c e cs hlink hlo hhi hrest ih =>
    have hc := hr c rfl
    cases hscan : (scanPlaces disk name (sectorPlaces (physSector r.file))).result with
    | some entry => exact openSubDirLoop_scans_of_some heof hd hfits hc hscan (e :: cs)
    | none =>
      have he := hc.link hlink hlo hhi 512
      obtain ⟨place, hmem, hplace⟩ := hnamed
      rw [chainPlaces_cons, ← hc.physSector_eq, List.mem_append] at hmem
      have hlater := hmem.resolve_left fun hfirst =>
        (scanPlaces_eq_none_iff _).1 hscan place hfirst hplace
      obtain ⟨d', hd', hround⟩ := openSubDirLoop_of_none heof hd hscan
      obtain ⟨n, s, hrun, hs⟩ := ih (r := fsysFatRead disk r 512) hd'
        (fun c' hc' => Option.some.inj hc' ▸ he) ⟨place, hlater, hplace⟩
      refine ⟨n + 1, _, (hround n).trans (congrArg _ hrun), ?_, ?_⟩
      · rw [chainPlaces_cons, ← hc.physSector_eq, scanPlaces_append_of_none hscan, ← hs.looked]
      · rw [chainPlaces_cons, ← hc.physSector_eq, scanPlaces_append_of_none hscan]
        exact hs.result

/-- A record stays at the last cluster : `eof` of the directory is never set. -/
theorem openSubDirLoop_of_last (heof : kFile.eof = 0) (hd : LooksFor layout d name) {c : ℕ}
    (hlast : 0xFF8 ≤ fatEntry disk c)
    (hnone : (scanPlaces disk name (sectorPlaces (BitVec.ofNat 32 (31 + c)))).result = none)
    (n : ℕ) {r : Reading} (hr : PointsTo r c) :
    openSubDirLoop layout disk kFile filename n d r = none := by
  induction n generalizing d r with
  | zero => rfl
  | succ n ih =>
    have hfile := hr.file_last hlast 512
    have hnext : PointsTo (fsysFatRead disk r 512) c :=
      ⟨by rw [hfile]; exact hr.currentCluster, hr.lt⟩
    obtain ⟨d', hd', hround⟩ :=
      openSubDirLoop_of_none heof hd (hr.physSector_eq.symm ▸ hnone)
    rw [hround, ih hd' hnext]
    rfl

/-- Without the name the loop does not end. -/
theorem openSubDirLoop_of_not_named (heof : kFile.eof = 0) (hd : LooksFor layout d name)
    {cs : List ℕ} (hchain : Chain disk cs) (n : ℕ) {r : Reading}
    (hr : ∀ c ∈ cs.head?, PointsTo r c)
    (hnone : (scanPlaces disk name (chainPlaces cs)).result = none) :
    openSubDirLoop layout disk kFile filename n d r = none := by
  induction hchain generalizing n d r with
  | @last c hlast =>
    rw [chainPlaces_cons, chainPlaces, List.flatMap_nil, List.append_nil] at hnone
    exact openSubDirLoop_of_last heof hd hlast hnone n (hr c rfl)
  | @link c e cs hlink hlo hhi hrest ih =>
    have hc := hr c rfl
    have he := hc.link hlink hlo hhi 512
    have hall := (scanPlaces_eq_none_iff _).1 hnone
    rw [chainPlaces_cons, ← hc.physSector_eq] at hall
    have hscan := (scanPlaces_eq_none_iff _).2 fun place hplace =>
      hall place (List.mem_append_left _ hplace)
    have hrest := (scanPlaces_eq_none_iff _).2 fun place hplace =>
      hall place (List.mem_append_right _ hplace)
    cases n with
    | zero => rfl
    | succ n =>
      obtain ⟨d', hd', hround⟩ := openSubDirLoop_of_none heof hd hscan
      rw [hround, ih hd' n (fun c' hc' => Option.some.inj hc' ▸ he) hrest]
      rfl

/-- What the loop looks at first is the sector of the record's cluster. -/
theorem head?_looked_openSubDirLoop (heof : kFile.eof = 0) (hd : LooksFor layout d name) {n : ℕ}
    {r : Reading} {s : Search (Option File)}
    (h : openSubDirLoop layout disk kFile filename n d r = some s) :
    s.looked.head? = some (physSector r.file, 0) := by
  cases n with
  | zero => exact nomatch h
  | succ n =>
    have hhead := head?_looked disk name (physSector r.file) []
    rw [List.append_nil] at hhead
    cases hscan : (scanPlaces disk name (sectorPlaces (physSector r.file))).result with
    | some entry =>
      rw [openSubDirLoop_of_some heof hd n hscan] at h
      exact Option.some.inj h ▸ hhead
    | none =>
      obtain ⟨d', -, hround⟩ := openSubDirLoop_of_none heof hd hscan
      rw [hround] at h
      obtain ⟨rest, -, rfl⟩ := Option.map_eq_some_iff.1 h
      rfl

/-- A loop that ends has found the name, and has a record for it when the name asked for fits. -/
theorem found_of_openSubDirLoop (heof : kFile.eof = 0) (hd : LooksFor layout d name) {n : ℕ}
    {r : Reading} {s : Search (Option File)}
    (h : openSubDirLoop layout disk kFile filename n d r = some s) :
    (∃ place, s.looked.getLast? = some place ∧ Named name (entryAt disk place)) ∧
      ∀ file, s.result = some file → NameFits layout filename ∧ file.flags ≠ fsInvalid := by
  induction n generalizing d r s with
  | zero => exact nomatch h
  | succ n ih =>
    cases hscan : (scanPlaces disk name (sectorPlaces (physSector r.file))).result with
    | some entry =>
      rw [openSubDirLoop_of_some heof hd n hscan] at h
      obtain rfl := Option.some.inj h
      refine ⟨getLast?_looked hscan, fun file hfile => ?_⟩
      obtain ⟨record, hrecord, rfl⟩ := Option.map_eq_some_iff.1 hfile
      exact ⟨(setName_isSome_iff layout _ filename).1 (Option.isSome_of_eq_some hrecord),
        ofEntry_flags_ne record entry⟩
    | none =>
      obtain ⟨d', hd', hround⟩ := openSubDirLoop_of_none heof hd hscan
      rw [hround] at h
      obtain ⟨rest, hrest, rfl⟩ := Option.map_eq_some_iff.1 h
      obtain ⟨⟨place, hplace, hnamed⟩, hresult⟩ := ih hd' hrest
      exact ⟨⟨place, by rw [List.getLast?_append, hplace, Option.some_or], hnamed⟩, hresult⟩

end Loop

/-! ## The search of a directory -/

section Directory

variable {layout : StackLayout} {disk : Disk} {kFile : File} {c0 : BitVec 16} {cs : List ℕ}
  {name : CString} {n : ℕ} {r : Reading} {s : Search (Option File)}

/-- The search of a directory is its loop, for the name that `ToDosFileName` makes. -/
theorem OpenDirectory.openSubDir_eq (h : OpenDirectory disk kFile c0 cs) (layout : StackLayout)
    (name : CString) (n : ℕ) (r : Reading) :
    fsysFatOpenSubDir layout disk n r kFile name =
      openSubDirLoop layout disk kFile name n (dosFileName name) r :=
  if_pos (by rw [h.flags]; decide)

/-- The searches that go over the places of a directory start at its first cluster. -/
theorem OpenDirectory.currentCluster_of_scans (h : OpenDirectory disk kFile c0 cs)
    (hspares : layout.SparesName name)
    (hrun : fsysFatOpenSubDir layout disk n r kFile name = some s)
    (hs : s.Scans disk name (chainPlaces (c0.toNat :: cs))) :
    r.file.currentCluster = kFile.currentCluster := by
  rw [h.openSubDir_eq] at hrun
  have hfirst := head?_looked_openSubDirLoop h.eof hspares.looksFor hrun
  rw [hs.looked, chainPlaces_cons, head?_looked, Option.some.injEq, Prod.mk.injEq] at hfirst
  have hsector := hfirst.1
  rw [physSector] at hsector
  rw [h.currentCluster, ← BitVec.ofNat_toNat]
  bv_omega

/-- A store that hits the name that is looked for, or anything else that is read, spoils the
search. -/
theorem OpenDirectory.spares_of_scans (h : OpenDirectory disk kFile c0 cs)
    (hrun : fsysFatOpenSubDir layout disk n r kFile name = some s)
    {places : List (Word × ℕ)} (hs : s.Scans disk name places) : layout.SparesName name := by
  rw [h.openSubDir_eq] at hrun
  obtain ⟨file, hfile, hdescribes⟩ := hs.result
  cases hbehind : layout.behindName with
  | unread => exact Or.inl hbehind
  | other =>
    -- The run has no result, not even one that finds nothing.
    cases n with
    | zero => cases hrun
    | succ n =>
      rw [openSubDirLoop, if_pos h.eof, hbehind] at hrun
      obtain rfl := Option.some.inj hrun
      cases hfile
  | dosFileName =>
    refine Or.inr ⟨hbehind, ?_⟩
    by_contra hne
    -- The code looks for the empty name, and what it finds has the name asked for as well.
    have hlooks : LooksFor layout (dosFileName name) (.ofList []) := looksFor_of_empty hbehind _ rfl
    obtain ⟨⟨place, hplace, hempty⟩, hresult⟩ := found_of_openSubDirLoop h.eof hlooks hrun
    cases hscan : (scanPlaces disk name places).result with
    | none =>
      rw [hscan] at hdescribes
      exact (hresult file hfile).2 hdescribes
    | some entry =>
      obtain ⟨last, hlast, hnamed⟩ := getLast?_looked hscan
      rw [hs.looked, hlast] at hplace
      obtain rfl := Option.some.inj hplace
      have hcontent : (dosFileName name).content = [] :=
        (hnamed.symm.trans hempty).trans (content_dosFileName_of_empty rfl)
      have hlen : strlen (dosFileName name) = 0 := CString.strlen_of_content hcontent
      have hzero := (dosFileName name).endsAt_strlen.2.1
      rw [hlen] at hzero
      exact dosFileName_ne_zero (Nat.pos_of_ne_zero hne) (by norm_num) hzero

end Directory

/-- A directory in cluster `2`, with one entry, `A.TXT`. -/
def oneDirectory : Disk := fun s k =>
  if s = 33 then [0x41, 0x20, 0x20, 0x20, 0x20, 0x20, 0x20, 0x20, 0x54, 0x58, 0x54].getD k 0
  else fatDisk [0xFF, 0x0F] s k

/-- The record of the directory that starts at a cluster. -/
def directoryAt (c : Word) : File :=
  { (openedAt c).file with flags := fsDirectory }

/-- The directory of the example is open. -/
theorem openDirectory_oneDirectory : OpenDirectory oneDirectory (directoryAt 2) 2 [] where
  flags := rfl
  eof := rfl
  currentCluster := rfl
  chain := .last (by decide)

end Scorch
