import Scorch.ClusterChain

/-!
# Searching directory entries

Both searches of `fat12.c` run over the sixteen entries of one sector after another and
return at the first entry with the name looked for. `scanPlaces` is the search through a
list of places, a sector and a number each. The search of the root directory is the scan of
fourteen sectors (`fsysFatDirectory_scans`), and the search of a sector in memory the scan of
its places (`searchSector_eq`).

What is found goes into a record after the name that was asked for. The copy of the name
stays in the record, or in what lies unread behind it, exactly when the name is short enough
(`setName_isSome_iff`).
-/

open ByteMemory

namespace Scorch

/-! ## The search through a list of places -/

/-- The entry at a place. -/
def entryAt (disk : Disk) (place : Word × ℕ) : DirEntry :=
  DirEntry.ofBuffer (disk place.1) place.2

/-- The entry has the name that the search is for. -/
def Named (name : CString) (entry : DirEntry) : Prop :=
  entry.name.content = (dosFileName name).content

instance (name : CString) (entry : DirEntry) : Decidable (Named name entry) :=
  inferInstanceAs (Decidable (_ = _))

/-- Look at the places in turn, up to the first entry with the name. -/
def scanPlaces (disk : Disk) (name : CString) : List (Word × ℕ) → Search (Option DirEntry)
  | [] => ⟨[], none⟩
  | place :: places =>
    if Named name (entryAt disk place) then ⟨[place], some (entryAt disk place)⟩
    else
      let rest := scanPlaces disk name places
      ⟨place :: rest.looked, rest.result⟩

section Scan

variable {disk : Disk} {name : CString}

/-- Nothing is found when no entry has the name. -/
theorem scanPlaces_eq_none_iff (places : List (Word × ℕ)) :
    (scanPlaces disk name places).result = none ↔
      ∀ place ∈ places, ¬Named name (entryAt disk place) := by
  induction places with
  | nil => simp [scanPlaces]
  | cons place places ih =>
    rw [scanPlaces]
    split_ifs with h
    · simp [h]
    · simp [h, ih]

/-- A search that finds nothing looks everywhere. -/
theorem looked_of_none {places : List (Word × ℕ)}
    (h : (scanPlaces disk name places).result = none) :
    (scanPlaces disk name places).looked = places := by
  induction places with
  | nil => rfl
  | cons place places ih =>
    rw [scanPlaces] at h ⊢
    split_ifs at h ⊢ with hnamed
    exact congrArg (place :: ·) (ih h)

theorem scanPlaces_of_none {places : List (Word × ℕ)}
    (h : ∀ place ∈ places, ¬Named name (entryAt disk place)) :
    scanPlaces disk name places = ⟨places, none⟩ := by
  have hnone := (scanPlaces_eq_none_iff places).2 h
  exact Search.ext (looked_of_none hnone) hnone

/-- The entry found is the one at the last place looked at. -/
theorem scanPlaces_append_of_some {places : List (Word × ℕ)} {entry : DirEntry}
    (h : (scanPlaces disk name places).result = some entry) (more : List (Word × ℕ)) :
    scanPlaces disk name (places ++ more) = scanPlaces disk name places := by
  induction places with
  | nil => simp [scanPlaces] at h
  | cons place places ih =>
    rw [scanPlaces] at h
    rw [List.cons_append, scanPlaces, scanPlaces]
    split_ifs at h ⊢ with hnamed
    · rfl
    · rw [ih h]

/-- A search that finds the name ends at an entry with it. -/
theorem getLast?_looked {places : List (Word × ℕ)} {entry : DirEntry}
    (h : (scanPlaces disk name places).result = some entry) :
    ∃ place, (scanPlaces disk name places).looked.getLast? = some place ∧
      Named name (entryAt disk place) := by
  induction places with
  | nil => exact nomatch h
  | cons place places ih =>
    rw [scanPlaces] at h ⊢
    split_ifs at h ⊢ with hnamed
    · exact ⟨place, rfl, hnamed⟩
    · obtain ⟨last, hlast, hname⟩ := ih h
      exact ⟨last, by rw [List.getLast?_cons, hlast]; rfl, hname⟩

theorem scanPlaces_append_of_none {places : List (Word × ℕ)}
    (h : (scanPlaces disk name places).result = none) (more : List (Word × ℕ)) :
    scanPlaces disk name (places ++ more) =
      ⟨places ++ (scanPlaces disk name more).looked, (scanPlaces disk name more).result⟩ := by
  induction places with
  | nil => rfl
  | cons place places ih =>
    rw [scanPlaces] at h
    rw [List.cons_append, scanPlaces]
    split_ifs at h ⊢ with hnamed
    rw [ih h]
    rfl

end Scan

/-! ## The loops of the code -/

/-- The sixteen places of a sector. -/
def sectorPlaces (sector : Word) : List (Word × ℕ) :=
  (List.range 16).map (sector, ·)

/-- An entry is thirty-two bytes of the buffer. -/
theorem ofBuffer_congr {buf buf' : Bytes} {i : ℕ}
    (h : ∀ k < 32, buf (32 * i + k) = buf' (32 * i + k)) :
    DirEntry.ofBuffer buf i = DirEntry.ofBuffer buf' i := by
  ext1
  · exact funext fun k => h k.val (by omega)
  · exact h 11 (by omega)
  · show buf (32 * i + 27) ++ buf (32 * i + 26) = buf' (32 * i + 27) ++ buf' (32 * i + 26)
    rw [h 27 (by omega), h 26 (by omega)]
  · show buf (32 * i + 31) ++ buf (32 * i + 30) ++ buf (32 * i + 29) ++ buf (32 * i + 28) =
      buf' (32 * i + 31) ++ buf' (32 * i + 30) ++ buf' (32 * i + 29) ++ buf' (32 * i + 28)
    rw [h 31 (by omega), h 30 (by omega), h 29 (by omega), h 28 (by omega)]

theorem beq_strcmp_eq (s t : CString) : (strcmp s t == 0) = decide (s.content = t.content) := by
  rw [Bool.eq_iff_iff]
  simp [strcmp_eq_zero_iff]

/-- The comparisons of both searches say whether an entry has the name. -/
theorem strcmp_dosFileName (name : CString) (entry : DirEntry) :
    (strcmp (dosFileName name) entry.name == 0) = decide (Named name entry) ∧
      (strcmp entry.name (dosFileName name) == 0) = decide (Named name entry) := by
  constructor
  · rw [beq_strcmp_eq]
    exact decide_eq_decide.2 eq_comm
  · rw [beq_strcmp_eq]
    rfl

/-- The loop over a sector is the scan of its places, when the buffer holds the sector. -/
theorem searchSector_eq {disk : Disk} {name : CString} {sector : Word} {buf : Bytes}
    (hbuf : ∀ k < 512, buf k = disk sector k) (found : CString → Bool)
    (hfound : ∀ entry : DirEntry, found entry.name = decide (Named name entry)) (n i : ℕ)
    (hi : i + n = 16) :
    searchSector buf sector found n i =
      scanPlaces disk name ((List.range' i n).map (sector, ·)) := by
  induction n generalizing i with
  | zero => rfl
  | succ n ih =>
    have hentry : DirEntry.ofBuffer buf i = entryAt disk (sector, i) :=
      ofBuffer_congr fun k hk => hbuf _ (by omega)
    rw [searchSector, List.range'_succ, List.map_cons, scanPlaces, ih (i + 1) (by omega), hentry,
      hfound]
    simp only [decide_eq_true_eq]

theorem searchSector_sixteen {disk : Disk} {name : CString} {sector : Word} {buf : Bytes}
    (hbuf : ∀ k < 512, buf k = disk sector k) (found : CString → Bool)
    (hfound : ∀ entry : DirEntry, found entry.name = decide (Named name entry)) :
    searchSector buf sector found 16 0 = scanPlaces disk name (sectorPlaces sector) := by
  rw [searchSector_eq hbuf found hfound 16 0 rfl, sectorPlaces, List.range_eq_range']

/-- The loop over the sectors of the root directory is the scan of their places. -/
theorem directoryLoop_eq (disk : Disk) (mountInfo : MountInfo) (name : CString) (n : ℕ)
    (sector : Word) :
    directoryLoop disk mountInfo (dosFileName name) n sector =
      scanPlaces disk name ((List.range n).flatMap fun k =>
        sectorPlaces (mountInfo.rootOffset + sector + BitVec.ofNat 32 k)) := by
  induction n generalizing sector with
  | zero => rfl
  | succ n ih =>
    have hplaces : ((List.range (n + 1)).flatMap fun k =>
        sectorPlaces (mountInfo.rootOffset + sector + BitVec.ofNat 32 k)) =
        sectorPlaces (mountInfo.rootOffset + sector) ++ (List.range n).flatMap fun k =>
          sectorPlaces (mountInfo.rootOffset + (sector + 1) + BitVec.ofNat 32 k) := by
      rw [List.range_succ_eq_map, List.flatMap_cons, List.flatMap_map]
      congr 1
      · congr 1
        bv_omega
      · refine List.flatMap_congr fun k _ => ?_
        congr 1
        rw [Nat.succ_eq_add_one, BitVec.ofNat_add]
        bv_omega
    have hrow := searchSector_sixteen (fun k _ => rfl (a := disk (mountInfo.rootOffset + sector) k))
      (fun found => strcmp (dosFileName name) found == 0)
      fun entry => (strcmp_dosFileName name entry).1
    rw [directoryLoop]
    dsimp only
    rw [hrow, hplaces, ih]
    cases hresult :
      (scanPlaces disk name (sectorPlaces (mountInfo.rootOffset + sector))).result with
    | none => rw [scanPlaces_append_of_none hresult, looked_of_none hresult]
    | some entry =>
      rw [scanPlaces_append_of_some hresult]
      exact Search.ext rfl hresult.symm

/-- The search of the root directory scans fourteen sectors. -/
theorem fsysFatDirectory_scans (layout : StackLayout) (disk : Disk) (mountInfo : MountInfo)
    (file : File) (name : CString) :
    (fsysFatDirectory layout disk mountInfo file name).looked =
      (scanPlaces disk name ((List.range 14).flatMap fun k =>
        sectorPlaces (mountInfo.rootOffset + BitVec.ofNat 32 k))).looked := by
  have hzero : mountInfo.rootOffset + 0 = mountInfo.rootOffset := by bv_omega
  rw [fsysFatDirectory, directoryLoop_eq, hzero]
  split <;> rfl

/-! ## The record for an entry -/

/-- The copy of the name overwrites nothing behind the record that is read again. -/
def NameFits (layout : StackLayout) (name : CString) : Prop :=
  ∃ k, 1 ≤ k ∧ k ≤ 60 + layout.behindFile ∧ name.bytes k = 0

section SetName

variable {layout : StackLayout} {s : Bytes}

/-- The copy does not end when there is no terminator behind its first byte. -/
theorem copiedLength_eq_none_iff (n i : ℕ) :
    copiedLength s n i = none ↔ ∀ k, i ≤ k → k < i + n → s k ≠ 0 := by
  induction n generalizing i with
  | zero => exact iff_of_true rfl fun k hi hk => by omega
  | succ n ih =>
    rw [copiedLength]
    by_cases hi : s i = 0
    · rw [if_neg (not_not.2 hi)]
      exact iff_of_false (Option.some_ne_none i) fun h => h i le_rfl (by omega) hi
    · rw [if_pos hi, ih]
      constructor
      · intro h k hk hlt
        rcases Nat.eq_or_lt_of_le hk with rfl | hk
        · exact hi
        · exact h k hk (by omega)
      · exact fun h k hk hlt => h k (by omega) (by omega)

/-- No more is copied than what lies in front of a zero. -/
theorem le_of_copiedLength {n i m : ℕ} (h : copiedLength s n i = some m) {k : ℕ} (hi : i ≤ k)
    (hk : s k = 0) : m ≤ k := by
  induction n generalizing i with
  | zero => exact nomatch h
  | succ n ih =>
    rw [copiedLength] at h
    split_ifs at h with hne
    · have hik : i ≠ k := fun heq => hne (heq ▸ hk)
      exact ih h (by omega)
    · exact Option.some.inj h ▸ hi

/-- There is a record exactly when the name fits. -/
theorem setName_isSome_iff (layout : StackLayout) (file : File) (name : CString) :
    (file.setName layout name).isSome ↔ NameFits layout name := by
  rw [File.setName, Option.isSome_map, Option.isSome_iff_ne_none, Ne, copiedLength_eq_none_iff,
    NameFits]
  push Not
  exact exists_congr fun k => and_congr_right fun _ => and_congr_left' (by omega)

/-- A member behind the bytes that are written keeps its value. -/
theorem overwritten_of_le {n offset : ℕ} (h : n ≤ offset) (w : Word) :
    overwritten s n offset w = w := by
  have hbyte : ∀ j, (if offset + j < n then s (offset + j)
      else (w >>> (8 * (offset + j - offset))).setWidth 8) = (w >>> (8 * j)).setWidth 8 := by
    intro j
    rw [if_neg (by omega), Nat.add_sub_cancel_left]
  exact loadWord_eq (hbyte 0) (hbyte 1) (hbyte 2) (hbyte 3)

/-- A name of up to 32 characters leaves the rest of the record as it is. -/
theorem setName_of_le (layout : StackLayout) (file : File) {name : CString} {k : ℕ} (hk : 1 ≤ k)
    (hle : k ≤ 32) (hzero : name.bytes k = 0) : file.setName layout name = some file := by
  cases hn : copiedLength name.bytes (60 + layout.behindFile) 1 with
  | none => exact absurd hzero ((copiedLength_eq_none_iff _ _).1 hn k hk (by omega))
  | some n =>
    have hle := le_of_copiedLength hn hk hzero
    rw [File.setName, hn, Option.map_some]
    simp only [overwritten_of_le (show n ≤ 32 by omega), overwritten_of_le (show n ≤ 36 by omega),
      overwritten_of_le (show n ≤ 40 by omega), overwritten_of_le (show n ≤ 44 by omega),
      overwritten_of_le (show n ≤ 52 by omega), overwritten_of_le (show n ≤ 56 by omega)]

end SetName

/-- The record of an entry is valid. -/
theorem ofEntry_flags_ne (file : File) (e : DirEntry) : (file.ofEntry e).flags ≠ fsInvalid := by
  rw [File.ofEntry]
  dsimp only
  split_ifs <;> decide

/-- The record describes the entry, or is marked invalid where there is none. -/
def File.Describes (file : File) : Option DirEntry → Prop
  | some entry => file.ofEntry entry = file
  | none => file.flags = fsInvalid

/-- A search through these places, with a record for what it found. -/
structure Search.Scans (search : Search (Option File)) (disk : Disk) (name : CString)
    (places : List (Word × ℕ)) : Prop where
  looked : search.looked = (scanPlaces disk name places).looked
  result : ∃ file, search.result = some file ∧
    file.Describes (scanPlaces disk name places).result

end Scorch
