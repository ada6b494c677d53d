import Scorch.Fat12
import Scorch.Lib.Separated

/-!
# Opening a file by its path

The loop of `fsysFatOpen`. A round copies the part of the path at `p` to `pathname`, looks it
up, and looks for the next separator from the second character of the part on. `openLog` is
the loop with the lookups as a parameter, and logs them, the bytes of the path that are
read and the places of `pathname` that are written. With the two searches of the driver it
is the loop of the model (`openLoop_eq_openLog`).

So the loop stays in step with the parts of the path as long as they are not empty, and in
the buffer as long as they are shorter than it. No path is opened as it should be with
another part on the way, and every path without one is (`opens_iff`).

`walk` does what the code does for outcomes of the lookups that are given, and
`fsysFatOpen_eq_openPath` says that the driver is the walk with its own lookups. In a round the
parts of the path that are left are those of `PathParts`, and the loop goes on exactly when the
outcome is a directory and there is another part (`walk_of_goes`, `walk_of_not_goes`).
-/

open ByteMemory Separated

namespace Scorch

/-! ## The loop with a log -/

/-- What a run of `fsysFatOpen` does. -/
structure OpenRun where
  /-- The directories, with none for the root, and the names that are looked up in them. -/
  lookups : List (Option File × List Byte)
  /-- The bytes of the path that are read. -/
  reads : List ℕ
  /-- The places of `pathname` that are written. -/
  writes : List ℕ
  result : File

/-- The bytes that are read to copy a part, with `n` characters left. -/
def partReads (path : Bytes) : ℕ → ℕ → List ℕ
  | 0, _ => []
  | n + 1, p => p :: if path p = 0x5c ∨ path p = 0 then [] else partReads path n (p + 1)

/-- The run that ends with a file. -/
def OpenRun.done (file : File) : OpenRun :=
  ⟨[], [], [], file⟩

/-- A round at `p` before the rest of a run, with what `strchr` reads in between. -/
def OpenRun.behind (path pathname : Bytes) (p : ℕ) (dir : Option File) (reads : List ℕ)
    (rest : OpenRun) : OpenRun where
  lookups := (dir, (pathPart (fun i => path (p + i)) pathname).content) :: rest.lookups
  reads := partReads path 16 p ++ reads ++ rest.reads
  writes := List.range (partLength (fun i => path (p + i)) 16 0 + 1) ++ rest.writes
  result := rest.result

/-- The loop `while ( p )`, from lookup `k` on, with `n` tests left. -/
def openLog (look : ℕ → Option File → CString → Option File) (ret : File) (pathname : ℕ → Bytes)
    (path : Bytes) : ℕ → ℕ → ℕ → Option File → Option OpenRun
  | 0, _, _, _ => none
  | n + 1, k, p, dir =>
    match look k dir (pathPart (fun i => path (p + i)) (pathname k)) with
    | none => none
    | some file =>
      if file.flags = fsInvalid then some (.behind path (pathname k) p dir [] (.done ret.invalid))
      else if file.flags = fsFile then some (.behind path (pathname k) p dir [] (.done file))
      else
        let reads := strchrReads path 0x5c n (p + 1)
        match strchrFrom path 0x5c n (p + 1) with
        | none => none
        | some none => some (.behind path (pathname k) p dir reads (.done ret.invalid))
        | some (some q) =>
          (openLog look ret pathname path n (k + 1) (q + 1) (some file)).map
            (.behind path (pathname k) p dir reads)

/-- The run of `fsysFatOpen` on a path, if there is a separator in it. -/
def openPath (look : ℕ → Option File → CString → Option File) (ret : File) (pathname : ℕ → Bytes)
    (n : ℕ) (fileName : CString) : Option OpenRun :=
  match strchrFrom fileName.bytes 0x5c n 0 with
  | some (some p) =>
    (openLog look ret pathname fileName.bytes n 0 (p + 1) none).map fun run =>
      { run with reads := strchrReads fileName.bytes 0x5c n 0 ++ run.reads }
  | _ => none

/-! ## The loop of the driver -/

section Driver

variable {layout : StackLayout} {disk : Disk} {mountInfo : MountInfo} {ret : File}
  {locals : ℕ → Locals} {path : Bytes}

/-- The lookups of a call with `n` tests, which numbers them from the last on. -/
def driverLook (layout : StackLayout) (disk : Disk) (mountInfo : MountInfo) (locals : ℕ → Locals)
    (n k : ℕ) (dir : Option File) (name : CString) : Option File :=
  let r := (locals (n - 1 - k)).reading
  lookup layout disk mountInfo (n - 1 - k) r dir.isNone (dir.getD r.file) name

/-- In the root directory the record of the current one is not looked at. -/
theorem lookup_getD (n : ℕ) (r : Reading) (dir : Option File) (file file' : File)
    (name : CString) :
    lookup layout disk mountInfo n r dir.isNone (dir.getD file) name =
      lookup layout disk mountInfo n r dir.isNone (dir.getD file') name := by
  cases dir <;> rfl

/-- The loop of the driver is the logged one with its searches. -/
theorem openLoop_eq_openLog {N : ℕ} (n k p : ℕ) (dir : Option File) (file : File)
    (hN : N = n + k) :
    openLoop layout disk mountInfo ret locals path n p dir.isNone (dir.getD file) =
      (openLog (driverLook layout disk mountInfo locals N) ret
        (fun k => (locals (N - 1 - k)).pathname) path n k p dir).map OpenRun.result := by
  induction n generalizing k p dir file with
  | zero => rfl
  | succ n ih =>
    have hindex : N - 1 - k = n := by omega
    rw [openLoop, openLog, driverLook]
    dsimp only
    rw [hindex, lookup_getD n _ dir file (locals n).reading.file]
    cases lookup layout disk mountInfo n (locals n).reading dir.isNone
      (dir.getD (locals n).reading.file)
      (pathPart (fun i => path (p + i)) (locals n).pathname) with
    | none => rfl
    | some next =>
      dsimp only
      split_ifs with hinvalid hfile
      · rfl
      · rfl
      · cases strchrFrom path 0x5c n (p + 1) with
        | none => rfl
        | some found =>
          cases found with
          | none => rfl
          | some q =>
            dsimp only
            rw [Option.map_map]
            exact ih (k + 1) (q + 1) (some next) next (by omega)

/-- A call on a path with a separator in it returns what the logged run returns. -/
theorem fsysFatOpen_eq_openPath (n : ℕ) {fileName : CString} {p : ℕ}
    (h : strchrFrom fileName.bytes 0x5c n 0 = some (some p)) :
    fsysFatOpen layout disk mountInfo ret locals n fileName =
      (openPath (driverLook layout disk mountInfo locals n) ret
        (fun k => (locals (n - 1 - k)).pathname) n fileName).map OpenRun.result := by
  rw [fsysFatOpen, openPath, h]
  dsimp only
  rw [Option.map_map]
  exact openLoop_eq_openLog n 0 (p + 1) none _ rfl

end Driver

/-! ## What is to be looked up -/

/-- The search goes on in a directory. -/
def File.Goes (file : File) : Prop :=
  file.flags ≠ fsInvalid ∧ file.flags ≠ fsFile

instance (file : File) : Decidable file.Goes :=
  inferInstanceAs (Decidable (_ ∧ _))

/-- The parts of a path behind its first separator. -/
def pathParts (fileName : CString) : List (List Byte) :=
  (fileName.content.splitOn 0x5c).tail

/-- The lookups of the given names from the `k`-th on, when the `k`-th has the outcome
`outcome k`. -/
def expectedLookups (outcome : ℕ → File) :
    ℕ → Option File → List (List Byte) → List (Option File × List Byte)
  | _, _, [] => []
  | k, dir, name :: names =>
    (dir, name) ::
      if (outcome k).Goes then expectedLookups outcome (k + 1) (some (outcome k)) names else []

/-- The run makes the given lookups, and keeps to the path up to `e` and to the buffer. -/
structure OpenRun.Keeps (run : OpenRun) (lookups : List (Option File × List Byte)) (e : ℕ) :
    Prop where
  lookups : run.lookups = lookups
  reads : ∀ k ∈ run.reads, k ≤ e
  writes : ∀ k ∈ run.writes, k < 16

/-- The names looked up are the parts that are not empty, and no byte behind the terminator is
read. -/
def OpenRun.Opens (run : OpenRun) (outcome : ℕ → File) (fileName : CString) : Prop :=
  run.Keeps (expectedLookups outcome 0 none ((pathParts fileName).filter (· ≠ [])))
    (strlen fileName)

/-- Every part that the search comes to is not empty and fits the buffer with its terminator. -/
def Fits (outcome : ℕ → File) : ℕ → List (List Byte) → Prop
  | _, [] => True
  | k, part :: parts =>
    part ≠ [] ∧ part.length < 16 ∧ ((outcome k).Goes → Fits outcome (k + 1) parts)

/-! ## One round -/

section Round

variable {path : Bytes} {p e n : ℕ} {part : List Byte} {parts : List (List Byte)}

theorem le_of_mem_partReads {k : ℕ} (n p : ℕ) (hp : p ≤ k) (hk : path k = 0x5c ∨ path k = 0)
    {j : ℕ} (hj : j ∈ partReads path n p) : j ≤ k := by
  induction n generalizing p with
  | zero => simp [partReads] at hj
  | succ n ih =>
    rw [partReads] at hj
    rcases List.mem_cons.1 hj with rfl | hj
    · exact hp
    · split_ifs at hj with hend
      · simp at hj
      · have hne : p ≠ k := fun h => hend (h ▸ hk)
        exact ih (p + 1) (by omega) hj

/-- The length of a part, as far as sixteen bytes go. -/
theorem partLength_eq {s : Bytes} {k : ℕ} (n i : ℕ) (hi : i ≤ k)
    (hbefore : ∀ j, i ≤ j → j < k → s j ≠ 0x5c ∧ s j ≠ 0) (hk : s k = 0x5c ∨ s k = 0) :
    partLength s n i = min k (i + n) := by
  induction n generalizing i with
  | zero =>
    rw [partLength]
    omega
  | succ n ih =>
    rw [partLength]
    rcases Nat.eq_or_lt_of_le hi with rfl | hlt
    · rw [if_pos hk]
      omega
    · rw [if_neg (not_or.2 (hbefore i le_rfl hlt)), ih (i + 1) hlt fun j hj => hbefore j (by omega)]
      omega

/-- The parts from `p` on, in a path. -/
abbrev PathParts (path : Bytes) : ℕ → ℕ → List (List Byte) → Prop :=
  Parts path 0x5c 0

/-- A part ends at a separator, or at the terminator when it is the last. -/
theorem ends_of_parts (h : PathParts path p e (part :: parts)) :
    PartAt path 0x5c 0 p part ∧ p + part.length ≤ e ∧
      path (p + part.length) = if parts = [] then 0 else 0x5c := by
  cases h with
  | last hpart hend => exact ⟨hpart, le_rfl, hend⟩
  | next hpart hsep hrest =>
    have hne : parts ≠ [] := fun h => not_parts_nil (h ▸ hrest)
    have hle := hrest.le
    exact ⟨hpart, by omega, by rw [if_neg hne, hsep]⟩

/-- The loop that copies a part stops at its end. -/
theorem sep_or_zero_of_parts (h : PathParts path p e (part :: parts)) :
    path (p + part.length) = 0x5c ∨ path (p + part.length) = 0 := by
  rw [(ends_of_parts h).2.2]
  split_ifs
  · exact Or.inr rfl
  · exact Or.inl rfl

theorem partLength_of_parts (h : PathParts path p e (part :: parts)) :
    partLength (fun i => path (p + i)) 16 0 = min part.length 16 := by
  have hpart := (ends_of_parts h).1
  rw [partLength_eq 16 0 (Nat.zero_le _) (fun j _ hj => hpart.inner j hj)
    (sep_or_zero_of_parts h), Nat.zero_add]

/-- A part that fits the buffer is copied to it. -/
theorem content_pathPart (h : PathParts path p e (part :: parts)) (hlt : part.length < 16)
    (pathname : Bytes) : (pathPart (fun i => path (p + i)) pathname).content = part := by
  have hpart := (ends_of_parts h).1
  have hlength : partLength (fun i => path (p + i)) 16 0 = part.length := by
    rw [partLength_of_parts h]
    omega
  have hbytes : ∀ i < part.length,
      (pathPart (fun i => path (p + i)) pathname).bytes i = path (p + i) := by
    intro i hi
    rw [pathPart]
    dsimp only
    rw [hlength, Function.update_of_ne (by omega), memcpy_apply, if_pos (by omega), Nat.sub_zero]
  have hend : (pathPart (fun i => path (p + i)) pathname).bytes part.length = 0 := by
    rw [pathPart]
    dsimp only
    rw [hlength, Function.update_self]
  have hlen : strlen (pathPart (fun i => path (p + i)) pathname) = part.length :=
    CString.strlen_eq_of_ne_zero hend fun i hi => by
      rw [hbytes i hi]
      exact (hpart.inner i hi).2
  rw [CString.content, hlen]
  exact (map_range_eq_iff rfl).2 fun i hi => by
    rw [hbytes i hi, hpart.holds i hi, List.getD_eq_getElem _ _ hi]

/-- From the second character of a part on `strchr` finds its end. -/
theorem strchrFrom_of_parts (h : PathParts path p e (part :: parts)) (hne : part ≠ []) (n : ℕ) :
    strchrFrom path 0x5c n (p + 1) =
      if p + part.length < p + 1 + n then
        some (if parts = [] then none else some (p + part.length))
      else none := by
  obtain ⟨hpart, -, hend⟩ := ends_of_parts h
  have hpos := List.length_pos_iff.2 hne
  have hinner : ∀ j, p + 1 ≤ j → j < p + part.length → path j ≠ 0x5c ∧ path j ≠ 0 := by
    intro j hlo hhi
    obtain ⟨i, rfl⟩ := Nat.exists_eq_add_of_le (show p ≤ j by omega)
    exact hpart.inner i (by omega)
  rw [strchrFrom_eq n (p + 1) (by omega) hinner (sep_or_zero_of_parts h), hend]
  by_cases hlast : parts = []
  · have hzero : ¬(0 : Byte) = 0x5c := by decide
    rw [if_pos hlast, if_pos hlast, if_neg hzero]
  · rw [if_neg hlast, if_neg hlast, if_pos rfl]

end Round

/-! ## Runs -/

/-- The loop with the `k`-th lookup given. -/
def walk (outcome : ℕ → File) (ret : File) (pathname : ℕ → Bytes) (path : Bytes) (n k p : ℕ)
    (dir : Option File) : Option OpenRun :=
  openLog (fun k _ _ => some (outcome k)) ret pathname path n k p dir

section Walk

variable {outcome : ℕ → File} {ret : File} {pathname : ℕ → Bytes} {path : Bytes}
  {n k p e : ℕ} {dir : Option File} {run : OpenRun}
  {part : List Byte} {parts names : List (List Byte)}

/-- A lookup that finds nothing, or a file, ends the walk. -/
theorem walk_of_not_goes (h : ¬(outcome k).Goes) :
    ∃ file, walk outcome ret pathname path (n + 1) k p dir =
      some (.behind path (pathname k) p dir [] (.done file)) := by
  rw [walk, openLog]
  dsimp only
  by_cases hinvalid : (outcome k).flags = fsInvalid
  · exact ⟨_, if_pos hinvalid⟩
  · have hfile : (outcome k).flags = fsFile := not_not.1 fun hfile => h ⟨hinvalid, hfile⟩
    exact ⟨_, by rw [if_neg hinvalid, if_pos hfile]⟩

/-- One that finds a directory goes on with the next part, if there is one. -/
theorem walk_of_goes (h : (outcome k).Goes) :
    walk outcome ret pathname path (n + 1) k p dir =
      match strchrFrom path 0x5c n (p + 1) with
      | none => none
      | some none =>
        some (.behind path (pathname k) p dir (strchrReads path 0x5c n (p + 1))
          (.done ret.invalid))
      | some (some q) =>
        (walk outcome ret pathname path n (k + 1) (q + 1) (some (outcome k))).map
          (.behind path (pathname k) p dir (strchrReads path 0x5c n (p + 1))) := by
  rw [walk, openLog]
  dsimp only
  rw [if_neg h.1, if_neg h.2]
  rfl

/-- Every run starts with a round, and one that goes on has another at the separator found. -/
theorem behind_of_walk (h : walk outcome ret pathname path (n + 1) k p dir = some run) :
    ∃ reads rest, run = .behind path (pathname k) p dir reads rest ∧
      ((outcome k).Goes → ∀ q, strchrFrom path 0x5c n (p + 1) = some (some q) →
        walk outcome ret pathname path n (k + 1) (q + 1) (some (outcome k)) = some rest) ∧
      ((outcome k).Goes → strchrFrom path 0x5c n (p + 1) ≠ none) := by
  by_cases hgoes : (outcome k).Goes
  · rw [walk_of_goes hgoes] at h
    cases hfound : strchrFrom path 0x5c n (p + 1) with
    | none =>
      rw [hfound] at h
      cases h
    | some found =>
      rw [hfound] at h
      cases found with
      | none =>
        obtain rfl := Option.some.inj h
        exact ⟨_, _, rfl, fun _ => nofun, fun _ => nofun⟩
      | some q =>
        obtain ⟨rest, hrest, rfl⟩ := Option.map_eq_some_iff.1 h
        refine ⟨_, rest, rfl, fun _ q' hq' => ?_, fun _ => nofun⟩
        obtain rfl := Option.some.inj (Option.some.inj hq')
        exact hrest
  · have hstop : ∃ file, walk outcome ret pathname path (n + 1) k p dir =
        some (.behind path (pathname k) p dir [] (.done file)) := walk_of_not_goes hgoes
    obtain ⟨file, hfile⟩ := hstop
    rw [hfile] at h
    obtain rfl := Option.some.inj h
    exact ⟨_, _, rfl, fun hg => absurd hg hgoes, fun hg => absurd hg hgoes⟩

/-- What is logged depends on the lookups from here on. -/
theorem openLog_congr {look look' : ℕ → Option File → CString → Option File}
    (h : ∀ j, k ≤ j → look j = look' j) :
    openLog look ret pathname path n k p dir = openLog look' ret pathname path n k p dir := by
  induction n generalizing k p dir with
  | zero => rfl
  | succ n ih =>
    have hrest : ∀ q dir, openLog look ret pathname path n (k + 1) q dir =
        openLog look' ret pathname path n (k + 1) q dir := fun q dir =>
      ih fun j hj => h j (by omega)
    rw [openLog, openLog, h k le_rfl]
    simp only [hrest]

/-- Whatever the lookups depend on, a run is one with the outcomes that they had. -/
theorem exists_outcome {look : ℕ → Option File → CString → Option File}
    (h : openLog look ret pathname path n k p dir = some run) :
    ∃ outcome, walk outcome ret pathname path n k p dir = some run := by
  induction n generalizing k p dir run with
  | zero => cases h
  | succ n ih =>
    rw [openLog] at h
    cases hlook : look k dir (pathPart (fun i => path (p + i)) (pathname k)) with
    | none =>
      rw [hlook] at h
      cases h
    | some file =>
      rw [hlook] at h
      -- The loop goes on only in a directory, and then the later outcomes come first.
      have hstart : ∀ rest : ℕ → File, Function.update rest k file k = file := fun rest =>
        Function.update_self k file rest
      by_cases hgoes : file.Goes
      · dsimp only at h
        rw [if_neg hgoes.1, if_neg hgoes.2] at h
        cases hfound : strchrFrom path 0x5c n (p + 1) with
        | none =>
          rw [hfound] at h
          cases h
        | some found =>
          rw [hfound] at h
          cases found with
          | none =>
            refine ⟨fun _ => file, ?_⟩
            rw [walk_of_goes hgoes, hfound]
            exact h
          | some q =>
            obtain ⟨rest, hrest, rfl⟩ := Option.map_eq_some_iff.1 h
            obtain ⟨later, hlater⟩ := ih hrest
            refine ⟨Function.update later k file, ?_⟩
            have hgoes' : (Function.update later k file k).Goes := by rwa [hstart]
            have hsame : walk (Function.update later k file) ret pathname path n (k + 1) (q + 1)
                (some file) = walk later ret pathname path n (k + 1) (q + 1) (some file) :=
              openLog_congr fun j hj => by rw [Function.update_of_ne (by omega)]
            rw [walk_of_goes hgoes', hfound, hstart]
            dsimp only
            rw [hsame, hlater, Option.map_some]
      · refine ⟨fun _ => file, ?_⟩
        rw [walk, openLog]
        dsimp only at h ⊢
        split_ifs at h ⊢ with hinvalid hfile
        · exact h
        · exact h
        · exact absurd ⟨hinvalid, hfile⟩ hgoes

/-- Only parts of the path are looked up. -/
theorem mem_of_mem_expectedLookups {d : Option File} {name : List Byte}
    (h : (d, name) ∈ expectedLookups outcome k dir names) : name ∈ names := by
  induction names generalizing k dir with
  | nil => simp [expectedLookups] at h
  | cons a names ih =>
    rw [expectedLookups] at h
    rcases List.mem_cons.1 h with heq | h
    · obtain ⟨-, rfl⟩ := Prod.mk.inj heq
      exact List.mem_cons_self
    · split_ifs at h
      · exact List.mem_cons_of_mem a (ih h)
      · simp at h

theorem filter_cons_of_ne (h : part ≠ []) :
    (part :: parts).filter (· ≠ []) = part :: parts.filter (· ≠ []) :=
  List.filter_cons_of_pos (decide_eq_true h)

/-- A run that is as it should be comes to no other parts. -/
theorem fits_of_walk (hparts : PathParts path p e parts)
    (h : walk outcome ret pathname path n k p dir = some run)
    (hlookups : run.lookups = expectedLookups outcome k dir (parts.filter (· ≠ [])))
    (hwrites : ∀ w ∈ run.writes, w < 16) : Fits outcome k parts := by
  -- The induction is on the parts that are left, and each of them takes a round.
  induction parts generalizing n k p dir run with
  | nil => trivial
  | cons part parts ih =>
    cases n with
    | zero => cases h
    | succ n =>
      obtain ⟨reads, rest, rfl, hrest, hfound⟩ := behind_of_walk h
      -- The terminator behind the copy is stored within the sixteen bytes.
      have hlt : part.length < 16 := by
        have hlast := hwrites (partLength (fun i => path (p + i)) 16 0)
          (List.mem_append_left _ (List.mem_range.2 (Nat.lt_succ_self _)))
        rw [partLength_of_parts hparts] at hlast
        omega
      rw [OpenRun.behind, content_pathPart hparts hlt] at hlookups
      -- An empty part would be looked up, and no lookup of it is expected.
      have hne : part ≠ [] := by
        have hmem : (dir, part) ∈
            expectedLookups outcome k dir ((part :: parts).filter (· ≠ [])) := by
          rw [← hlookups]
          exact List.mem_cons_self
        exact of_decide_eq_true (List.mem_filter.1 (mem_of_mem_expectedLookups hmem)).2
      refine ⟨hne, hlt, fun hgoes => ?_⟩
      rw [filter_cons_of_ne hne, expectedLookups, if_pos hgoes] at hlookups
      have hstrchr := strchrFrom_of_parts hparts hne n
      -- After a directory the loop goes on with the next part.
      by_cases hlast : parts = []
      · rw [hlast]
        trivial
      · have hfuel : p + part.length < p + 1 + n := by
          by_contra hout
          rw [if_neg hout] at hstrchr
          exact hfound hgoes hstrchr
        rw [if_pos hfuel, if_neg hlast] at hstrchr
        exact ih (hparts.rest hlast) (hrest hgoes _ hstrchr) (List.cons.inj hlookups).2
          fun w hw => hwrites w (List.mem_append_right _ hw)

/-- A round at a part that fits. -/
theorem keeps_behind (hparts : PathParts path p e (part :: parts)) (hlt : part.length < 16)
    {reads : List ℕ} (hreads : ∀ r ∈ reads, r ≤ e) {rest : OpenRun}
    {lookups : List (Option File × List Byte)} (hrest : rest.Keeps lookups e) (pathname : Bytes) :
    (OpenRun.behind path pathname p dir reads rest).Keeps ((dir, part) :: lookups) e := by
  obtain ⟨-, hle, -⟩ := ends_of_parts hparts
  refine ⟨?_, fun r hr => ?_, fun w hw => ?_⟩
  · rw [OpenRun.behind, content_pathPart hparts hlt, hrest.lookups]
  · rcases List.mem_append.1 hr with hr | hr
    · rcases List.mem_append.1 hr with hr | hr
      · have hpart := le_of_mem_partReads 16 p (Nat.le_add_right p _)
          (sep_or_zero_of_parts hparts) hr
        omega
      · exact hreads r hr
    · exact hrest.reads r hr
  · rcases List.mem_append.1 hw with hw | hw
    · rw [List.mem_range, partLength_of_parts hparts] at hw
      omega
    · exact hrest.writes w hw

/-- A walk that has ended keeps what it wrote. -/
theorem keeps_done (file : File) (e : ℕ) : (OpenRun.done file).Keeps [] e :=
  ⟨rfl, fun _ h => absurd h List.not_mem_nil, fun _ h => absurd h List.not_mem_nil⟩

/-- When all parts on the way fit, the run is as it should be. -/
theorem walk_of_fits (hparts : PathParts path p e parts) (hfits : Fits outcome k parts)
    (hn : e < p + n) :
    ∃ run, walk outcome ret pathname path n k p dir = some run ∧
      run.Keeps (expectedLookups outcome k dir (parts.filter (· ≠ []))) e := by
  induction parts generalizing n k p dir with
  | nil => exact absurd hparts not_parts_nil
  | cons part parts ih =>
    obtain ⟨hne, hlt, hgo⟩ := hfits
    have hpos := List.length_pos_iff.2 hne
    obtain ⟨-, hle, -⟩ := ends_of_parts hparts
    obtain ⟨n, rfl⟩ : ∃ m, n = m + 1 := ⟨n - 1, by omega⟩
    have hreads : ∀ r ∈ strchrReads path 0x5c n (p + 1), r ≤ e := fun r hr =>
      (le_of_mem_strchrReads n (p + 1) (by omega) (sep_or_zero_of_parts hparts) hr).trans hle
    rw [filter_cons_of_ne hne, expectedLookups]
    by_cases hgoes : (outcome k).Goes
    · have hstrchr := strchrFrom_of_parts hparts hne n
      rw [if_pos (by omega)] at hstrchr
      rw [walk_of_goes hgoes, hstrchr, if_pos hgoes]
      by_cases hlast : parts = []
      · rw [if_pos hlast, hlast]
        exact ⟨_, rfl, keeps_behind hparts hlt hreads (keeps_done _ e) _⟩
      · rw [if_neg hlast]
        obtain ⟨rest, hrun, hkeeps⟩ := ih (n := n) (hparts.rest hlast) (hgo hgoes) (by omega)
        dsimp only
        rw [hrun, Option.map_some]
        exact ⟨_, rfl, keeps_behind hparts hlt hreads hkeeps _⟩
    · obtain ⟨file, hstop⟩ : ∃ file, walk outcome ret pathname path (n + 1) k p dir =
          some (.behind path (pathname k) p dir [] (.done file)) := walk_of_not_goes hgoes
      rw [hstop, if_neg hgoes]
      exact ⟨_, rfl, keeps_behind hparts hlt (fun r hr => absurd hr List.not_mem_nil)
        (keeps_done file e) _⟩

end Walk

/-! ## Paths -/

section Paths

variable {fileName : CString}

/-- The parts of a path, in its bytes. -/
theorem parts_content (fileName : CString) :
    PathParts fileName.bytes 0 (strlen fileName) (fileName.content.splitOn 0x5c) := by
  have hlen : fileName.content.length = strlen fileName := (CString.strlen_of_content rfl).symm
  have hend := fileName.endsAt_strlen
  have hstop : 0 ∉ fileName.content := by
    intro hmem
    obtain ⟨i, hi, hzero⟩ := List.mem_map.1 hmem
    exact hend.2.2 i (Nat.zero_le _) (List.mem_range.1 hi) hzero
  have hparts : PathParts fileName.bytes 0 (0 + fileName.content.length)
      (fileName.content.splitOn 0x5c) :=
    parts_splitOn _ 0 (fun i hi => by simp [CString.content]) hstop
      (by rw [Nat.zero_add, hlen]; exact hend.2.1)
  rwa [Nat.zero_add, hlen] at hparts

/-- A path with a separator has a part behind it. -/
theorem pathParts_ne_nil (h : 0x5c ∈ fileName.content) : pathParts fileName ≠ [] := by
  obtain ⟨xs, ys, hsplit⟩ := List.append_of_mem h
  rw [pathParts, hsplit, List.splitOn_append_cons_of_beq xs ys (beq_self_eq_true _)]
  cases hxs : xs.splitOn 0x5c with
  | nil => exact absurd hxs (List.splitOn_ne_nil _ _)
  | cons part parts => simp

/-- A path is opened as it should be exactly when every part that the search comes to has 1 to 15
characters. -/
theorem opens_iff (h : 0x5c ∈ fileName.content) (outcome : ℕ → File) (ret : File)
    (pathname : ℕ → Bytes) :
    (∃ n run, openPath (fun k _ _ => some (outcome k)) ret pathname n fileName = some run ∧
        run.Opens outcome fileName) ↔ Fits outcome 0 (pathParts fileName) := by
  have hne := pathParts_ne_nil h
  obtain ⟨part, hparts⟩ : ∃ part,
      PathParts fileName.bytes 0 (strlen fileName) (part :: pathParts fileName) := by
    have hparts := parts_content fileName
    cases hsplit : fileName.content.splitOn 0x5c with
    | nil => exact absurd hsplit (List.splitOn_ne_nil _ _)
    | cons part parts =>
      refine ⟨part, ?_⟩
      rw [pathParts, hsplit, List.tail_cons]
      rwa [hsplit] at hparts
  obtain ⟨hpart, hle, hend⟩ := ends_of_parts hparts
  rw [if_neg hne] at hend
  -- The search for the first separator passes what is in front of it.
  have hstrchr : ∀ n, strchrFrom fileName.bytes 0x5c n 0 =
      if 0 + part.length < 0 + n then some (some (0 + part.length)) else none := by
    intro n
    rw [strchrFrom_eq n 0 (Nat.zero_le _) (fun j _ hj => ?_) (Or.inl hend), if_pos hend]
    have hinner := hpart.inner j (by omega)
    rwa [Nat.zero_add] at hinner
  constructor
  · rintro ⟨n, run, hrun, hopens⟩
    rw [openPath, hstrchr] at hrun
    split_ifs at hrun with hfuel
    obtain ⟨run, hwalk, rfl⟩ := Option.map_eq_some_iff.1 hrun
    exact fits_of_walk (hparts.rest hne) hwalk hopens.lookups hopens.writes
  · intro hfits
    obtain ⟨run, hwalk, hkeeps⟩ : ∃ run, walk outcome ret pathname fileName.bytes
        (strlen fileName + 1) 0 (0 + part.length + 1) none = some run ∧
          run.Opens outcome fileName :=
      walk_of_fits (hparts.rest hne) hfits (by omega)
    have hrun : openPath (fun k _ _ => some (outcome k)) ret pathname (strlen fileName + 1)
        fileName = some { run with
          reads := strchrReads fileName.bytes 0x5c (strlen fileName + 1) 0 ++ run.reads } := by
      rw [walk] at hwalk
      rw [openPath, hstrchr, if_pos (by omega)]
      dsimp only
      rw [hwalk, Option.map_some]
    refine ⟨_, _, hrun, hkeeps.lookups, fun r hr => ?_, hkeeps.writes⟩
    rcases List.mem_append.1 hr with hr | hr
    · have hfound := le_of_mem_strchrReads _ 0 (Nat.zero_le _) (Or.inl hend) hr
      omega
    · exact hkeeps.reads r hr

end Paths

/-- A call of the driver on such a path is a run with the outcomes of its lookups. -/
theorem fsysFatOpen_run {layout : StackLayout} {disk : Disk} {mountInfo : MountInfo}
    {ret file : File} {locals : ℕ → Locals} {n p : ℕ} {fileName : CString}
    (hfound : strchrFrom fileName.bytes 0x5c n 0 = some (some p))
    (h : fsysFatOpen layout disk mountInfo ret locals n fileName = some file) :
    ∃ (outcome : ℕ → File) (run : OpenRun), openPath (fun k _ _ => some (outcome k)) ret
        (fun k => (locals (n - 1 - k)).pathname) n fileName = some run ∧ run.result = file := by
  rw [fsysFatOpen_eq_openPath n hfound, openPath, hfound] at h
  obtain ⟨run, hrun, rfl⟩ := Option.map_eq_some_iff.1 h
  obtain ⟨log, hlog, rfl⟩ := Option.map_eq_some_iff.1 hrun
  obtain ⟨outcome, hwalk⟩ := exists_outcome hlog
  rw [walk] at hwalk
  refine ⟨outcome, _, ?_, rfl⟩
  rw [openPath, hfound]
  dsimp only
  rw [hwalk, Option.map_some]

/-- Every lookup finds a file. -/
def fileFound (_ : ℕ) : File where
  flags := fsFile
  fileLength := 0
  id := 0
  eof := 0
  currentCluster := 2
  deviceId := 0

/-- The path `\a`. -/
theorem opens_slashA :
    ∃ n run, openPath (fun k _ _ => some (fileFound k)) (fileFound 0) (fun _ _ => 0) n
        (.ofList [0x5c, 0x61]) = some run ∧ run.Opens fileFound (.ofList [0x5c, 0x61]) :=
  (opens_iff (by decide) fileFound (fileFound 0) (fun _ _ => 0)).2
    ⟨by decide, by decide, fun h => absurd h (by decide)⟩

/-- For the path `\` the empty name is looked up. -/
theorem not_opens :
    ¬∀ (fileName : CString) (outcome : ℕ → File) (ret : File) (pathname : ℕ → Bytes),
      0x5c ∈ fileName.content → ∃ n run,
        openPath (fun k _ _ => some (outcome k)) ret pathname n fileName = some run ∧
          run.Opens outcome fileName := by
  intro h
  obtain ⟨n, run, hrun, hopens⟩ := h (.ofList [0x5c]) fileFound (fileFound 0) (fun _ _ => 0)
    (by decide)
  have hnone : expectedLookups fileFound 0 none ((pathParts (.ofList [0x5c])).filter (· ≠ [])) =
      [] := by decide
  have hlookups := hopens.lookups
  rw [hnone] at hlookups
  rw [openPath] at hrun
  split at hrun
  · obtain ⟨run, hwalk, rfl⟩ := Option.map_eq_some_iff.1 hrun
    cases n with
    | zero => cases hwalk
    | succ n =>
      obtain ⟨reads, rest, rfl, -⟩ := behind_of_walk hwalk
      cases hlookups
  · cases hrun

end Scorch
