import Scorch.EntrySearch
import Scorch.ShortNames

/-!
# The entry that a search should find

`fsysFatDirectory` compares names and nothing else, so it takes the first entry with the
name, be it deleted, a volume label or a part of a long name, and it takes an entry for a
directory only when its attribute byte is `0x10`. `File.Answers` says what a caller is to
get : the first live entry with the name, and a directory for every entry with bit `0x10`.

The two agree exactly when the first entry with the name is live and has no other attribute
beside the directory bit, or is by chance as good as the live one, and the name asked for,
which is copied to the record as it is, does not go over more than the record
(`fsysFatDirectory_answers_iff`).
-/

open ByteMemory

namespace Scorch

/-! ## Names as arrays -/

/-- The entry has the eleven characters of the name that `ToDosFileName` makes. -/
def HasName (name : CString) (entry : DirEntry) : Prop :=
  ∀ k : Fin 11, entry.filename k = (dosFileName name).bytes k

instance (name : CString) (entry : DirEntry) : Decidable (HasName name entry) :=
  inferInstanceAs (Decidable (∀ _, _))

section Name

variable {name : CString} {entry : DirEntry}

/-- The name of an entry is its field. -/
theorem bytes_name (entry : DirEntry) (k : Fin 11) : entry.name.bytes k = entry.filename k := by
  have hk := k.isLt
  rw [DirEntry.name]
  dsimp only
  rw [Function.update_of_ne (by omega), memcpy_apply, if_pos (by omega), Nat.sub_zero, dif_pos hk]

/-- On an entry that is in use the comparison of strings compares the arrays. -/
theorem named_iff_hasName (hused : entry.filename 0 ≠ 0) :
    Named name entry ↔ HasName name entry := by
  have hfirst : entry.name.bytes 0 ≠ 0 := by
    rw [show (0 : ℕ) = ((0 : Fin 11) : ℕ) from rfl, bytes_name]
    exact hused
  rw [Named, CString.content_eq_iff]
  rcases Nat.eq_zero_or_pos (strlen name) with hempty | hpos
  · have hzero := dosFileName_zero hempty
    refine iff_of_false (fun h => ?_) fun h => ?_
    · rw [strlen_eq_zero_of_bytes hzero] at h
      have hend := entry.name.endsAt_strlen.2.1
      rw [h.1] at hend
      exact hfirst hend
    · exact hused ((h 0).trans hzero)
  · have hlen : strlen (dosFileName name) = 11 :=
      CString.strlen_eq_of_ne_zero (dosFileName name).terminated fun k hk =>
        dosFileName_ne_zero hpos hk
    rw [hlen]
    constructor
    · rintro ⟨hlen', hbytes⟩ k
      rw [← bytes_name, hbytes k (by rw [hlen']; exact k.isLt)]
    · intro h
      have hbytes : ∀ k < 11, entry.name.bytes k = (dosFileName name).bytes k := fun k hk =>
        (bytes_name entry ⟨k, hk⟩).trans (h ⟨k, hk⟩)
      have hlen' : strlen entry.name = 11 :=
        CString.strlen_eq_of_ne_zero entry.name.terminated fun k hk => by
          rw [hbytes k hk]
          exact dosFileName_ne_zero hpos hk
      exact ⟨hlen', fun k hk => hbytes k (by omega)⟩

end Name

/-! ## The entry to be found -/

/-- In use, and not a volume label or a part of a long name. -/
def DirEntry.Live (entry : DirEntry) : Prop :=
  entry.filename 0 ≠ 0 ∧ entry.filename 0 ≠ 0xE5 ∧ entry.attrib &&& 0x08 = 0

instance (entry : DirEntry) : Decidable entry.Live :=
  inferInstanceAs (Decidable (_ ∧ _))

/-- The entries of the fourteen sectors. -/
def rootEntries (disk : Disk) (mountInfo : MountInfo) : List DirEntry :=
  ((List.range 14).flatMap fun k =>
    sectorPlaces (mountInfo.rootOffset + BitVec.ofNat 32 k)).map (entryAt disk)

/-- The first entry with the name. -/
def firstNamed (disk : Disk) (mountInfo : MountInfo) (name : CString) : Option DirEntry :=
  (rootEntries disk mountInfo).find? fun entry => Named name entry

/-- The first live entry with the name. -/
def firstLive (disk : Disk) (mountInfo : MountInfo) (name : CString) : Option DirEntry :=
  (rootEntries disk mountInfo).find? fun entry => entry.Live ∧ HasName name entry

/-- The record that a caller is to get for an entry, or for none. -/
def File.Answers (file : File) : Option DirEntry → Prop
  | some entry =>
    file.flags ≠ fsInvalid ∧ file.currentCluster = entry.firstCluster.setWidth 32 ∧
      file.fileLength = entry.fileSize ∧ (file.flags = fsDirectory ↔ entry.attrib &&& 0x10 ≠ 0)
  | none => file.flags = fsInvalid

/-- The record for the one entry is right for the other. -/
structure DirEntry.PassesFor (e e' : DirEntry) : Prop where
  firstCluster : e.firstCluster = e'.firstCluster
  fileSize : e.fileSize = e'.fileSize
  directory : e.attrib = 0x10 ↔ e'.attrib &&& 0x10 ≠ 0

/-- A scan returns the first entry with the name. -/
theorem scanPlaces_result (disk : Disk) (name : CString) (places : List (Word × ℕ)) :
    (scanPlaces disk name places).result =
      (places.map (entryAt disk)).find? fun entry => Named name entry := by
  induction places with
  | nil => rfl
  | cons place places ih =>
    rw [scanPlaces, List.map_cons, List.find?_cons]
    by_cases h : Named name (entryAt disk place)
    · rw [if_pos h, decide_eq_true h]
    · rw [if_neg h, decide_eq_false h, ← ih]

/-- The record of a directory says so. -/
theorem ofEntry_flags_eq_iff (file : File) (e : DirEntry) :
    (file.ofEntry e).flags = fsDirectory ↔ e.attrib = 0x10 := by
  rw [File.ofEntry]
  dsimp only
  split_ifs with h
  · exact iff_of_true rfl h
  · exact iff_of_false (by decide) h

/-- When the record of one entry is the right answer for another. -/
theorem ofEntry_answers_iff (file : File) (e e' : DirEntry) :
    (file.ofEntry e).Answers (some e') ↔ e.PassesFor e' := by
  have hcluster : (file.ofEntry e).currentCluster = e'.firstCluster.setWidth 32 ↔
      e.firstCluster = e'.firstCluster := by
    show e.firstCluster.setWidth 32 = _ ↔ _
    bv_omega
  rw [File.Answers, hcluster, ofEntry_flags_eq_iff]
  exact ⟨fun ⟨_, hfirst, hsize, hdir⟩ => ⟨hfirst, hsize, hdir⟩,
    fun ⟨hfirst, hsize, hdir⟩ => ⟨ofEntry_flags_ne file e, hfirst, hsize, hdir⟩⟩

/-- An entry has its own record when it is a directory by its bit and by its byte. -/
theorem passesFor_self_iff (e : DirEntry) :
    e.PassesFor e ↔ e.attrib = 0x10 ∨ e.attrib &&& 0x10 = 0 := by
  have hbits : ∀ a : Byte, (a = 0x10 ↔ a &&& 0x10 ≠ 0) ↔ a = 0x10 ∨ a &&& 0x10 = 0 := by decide
  rw [← hbits]
  exact ⟨fun h => h.directory, fun h => ⟨rfl, rfl, h⟩⟩

section First

variable {disk : Disk} {mountInfo : MountInfo} {name : CString}

/-- A live entry with the name is one that the code takes. -/
theorem named_of_live {e : DirEntry} (h : e.Live ∧ HasName name e) : Named name e :=
  (named_iff_hasName h.1.1).2 h.2

/-- When the code finds nothing, there is nothing to find. -/
theorem firstLive_of_none (h : firstNamed disk mountInfo name = none) :
    firstLive disk mountInfo name = none := by
  rw [firstNamed, List.find?_eq_none] at h
  rw [firstLive, List.find?_eq_none]
  intro e he hlive
  exact h e he (decide_eq_true (named_of_live (of_decide_eq_true hlive)))

/-- A live entry that comes first among those with the name is the first live one. -/
theorem firstLive_of_live {e : DirEntry} (h : firstNamed disk mountInfo name = some e)
    (hlive : e.Live) : firstLive disk mountInfo name = some e := by
  rw [firstNamed, List.find?_eq_some_iff_append] at h
  obtain ⟨hnamed, as, bs, hsplit, hbefore⟩ := h
  have hname := (named_iff_hasName hlive.1).1 (of_decide_eq_true hnamed)
  rw [firstLive, List.find?_eq_some_iff_append]
  refine ⟨decide_eq_true ⟨hlive, hname⟩, as, bs, hsplit, fun a ha => ?_⟩
  have hnot : ¬Named name a := by simpa using hbefore a ha
  rw [Bool.not_eq_true', decide_eq_false_iff_not]
  exact mt named_of_live hnot

/-- What the search of the root directory returns, by the first entry with the name. -/
theorem fsysFatDirectory_result (layout : StackLayout) (disk : Disk) (mountInfo : MountInfo)
    (file : File) (name : CString) :
    (fsysFatDirectory layout disk mountInfo file name).result =
      match firstNamed disk mountInfo name with
      | some entry => (file.setName layout name).map (·.ofEntry entry)
      | none => some file.invalid := by
  have hzero : mountInfo.rootOffset + 0 = mountInfo.rootOffset := by bv_omega
  have hsearch : (directoryLoop disk mountInfo (dosFileName name) 14 0).result =
      firstNamed disk mountInfo name := by
    rw [directoryLoop_eq, hzero, scanPlaces_result]
    rfl
  rw [fsysFatDirectory, hsearch]
  cases firstNamed disk mountInfo name <;> rfl

/-- The record for the first entry with the name is right exactly when the entry is live and a
directory only by its byte, or is not live and passes for the live one. -/
theorem ofEntry_answers_firstLive_iff {e : DirEntry}
    (hfirst : firstNamed disk mountInfo name = some e) (file : File) :
    (file.ofEntry e).Answers (firstLive disk mountInfo name) ↔
      (e.Live → e.attrib = 0x10 ∨ e.attrib &&& 0x10 = 0) ∧
        (¬e.Live → ∃ e', firstLive disk mountInfo name = some e' ∧ e.PassesFor e') := by
  by_cases hlive : e.Live
  · rw [firstLive_of_live hfirst hlive, ofEntry_answers_iff, passesFor_self_iff]
    exact ⟨fun h => ⟨fun _ => h, fun hnot => absurd hlive hnot⟩, fun h => h.1 hlive⟩
  · cases hother : firstLive disk mountInfo name with
    | none =>
      refine iff_of_false (ofEntry_flags_ne file e) fun h => ?_
      obtain ⟨e', he', -⟩ := h.2 hlive
      cases he'
    | some e' =>
      rw [ofEntry_answers_iff]
      constructor
      · exact fun h => ⟨fun hl => absurd hl hlive, fun _ => ⟨e', rfl, h⟩⟩
      · intro h
        obtain ⟨e'', he'', hpass⟩ := h.2 hlive
        obtain rfl := Option.some.inj he''
        exact hpass

end First

/-- A root directory whose first entry is `A.BC`, with the given attributes and cluster `2`. -/
def oneEntryDisk (attrib : Byte) : Disk := fun s k =>
  if s = 1 then
    [0x41, 0x20, 0x20, 0x20, 0x20, 0x20, 0x20, 0x20, 0x42, 0x43, 0x20, attrib, 0, 0, 0, 0, 0, 0,
      0, 0, 0, 0, 0, 0, 0, 0, 0x02].getD k 0
  else 0

/-- The root directory starts at sector `1`. -/
def rootAtOne : MountInfo where
  numSectors := 2880
  fatOffset := 1
  numRootEntries := 224
  rootOffset := 1
  rootSize := 14
  fatSize := 9
  fatEntrySize := 8

end Scorch
