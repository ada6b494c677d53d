import Scorch.Lib.FirstIndex
import Scorch.Shell

/-!
# Looking up a command

`findCMD` against the list of the names that have been registered since the last clear.
`strcpy` copies a name without its terminator, so an entry reads as the name with what an
older, longer name has left behind it (`nameAt_addCommand`).

`findCMD_iff_clean` says when that is seen : every lookup in a run finds the first index of
its command exactly when every name is added to an entry with nothing left behind it, or
both the name and what the entry then reads as are registered already.
-/

open ByteMemory GuardedRun

namespace Scorch

/-! ## Names -/

/-- The string from a place on, with a terminator at the `n`-th byte, if not before. -/
def text (b : Bytes) (n : ℕ) : List Byte :=
  (List.range (strlenFrom b n 0)).map b

theorem text_congr {b b' : Bytes} {n : ℕ} (h : ∀ k < n, b k = b' k) : text b n = text b' n := by
  have hlen : strlenFrom b n 0 = strlenFrom b' n 0 :=
    strlenFrom_congr n 0 fun k _ hk => h k (by omega)
  rw [text, text, hlen]
  refine List.map_congr_left fun k hk => h k ?_
  have hle := strlenFrom_le b' n 0
  have hlt := List.mem_range.1 hk
  omega

/-- A string that has been written over the front of another one. -/
theorem text_append {b b' : Bytes} {n : ℕ} (hn : b' n = 0) {src : CString}
    (hlen : strlen src ≤ n) (hfront : ∀ k < strlen src, b k = src.bytes k)
    (hbehind : ∀ k, strlen src ≤ k → k ≤ n → b k = b' k) :
    text b n = src.content ++ text (fun k => b' (strlen src + k)) (n - strlen src) := by
  set rest : Bytes := fun k => b' (strlen src + k)
  have hrest : ∀ j, strlen src ≤ j → rest (j - strlen src) = b' j := fun j hj =>
    congrArg b' (Nat.add_sub_cancel' hj)
  have hrest_end : rest (n - strlen src) = 0 := (hrest n hlen).trans hn
  obtain ⟨-, hzero, hbefore⟩ :=
    CString.endsAt_strlenFrom (n - strlen src) 0 (s := rest) (by rw [Nat.zero_add, hrest_end])
  have hk : strlenFrom rest (n - strlen src) 0 ≤ n - strlen src :=
    Nat.le_of_not_lt fun hlt => hbefore _ (Nat.zero_le _) hlt hrest_end
  -- the first zero is the first one behind the front
  have hends : CString.EndsAt b 0 (strlen src + strlenFrom rest (n - strlen src) 0) := by
    refine ⟨Nat.zero_le _, ?_, fun j _ hj => ?_⟩
    · rw [hbehind _ (Nat.le_add_right _ _) (by omega)]
      exact hzero
    · rcases Nat.lt_or_ge j (strlen src) with hlt | hge
      · rw [hfront j hlt]
        exact src.endsAt_strlen.2.2 j (Nat.zero_le j) hlt
      · rw [hbehind j hge (by omega), ← hrest j hge]
        exact hbefore _ (Nat.zero_le _) (by omega)
  have hb : b (0 + n) = 0 := by rw [Nat.zero_add, hbehind n hlen le_rfl, hn]
  rw [text, (CString.endsAt_strlenFrom n 0 hb).unique hends, List.range_add, List.map_append,
    List.map_map]
  refine congrArg₂ _ (List.map_congr_left fun k hk => hfront k (List.mem_range.1 hk)) ?_
  refine List.map_congr_left fun k hk' => ?_
  have hle : strlen src + k ≤ n := by
    have hlt := List.mem_range.1 hk'
    omega
  exact hbehind (strlen src + k) (Nat.le_add_right _ _) hle

namespace Shell

/-- The bytes of an entry from its command on. -/
def entry (s : Shell) (i : ℕ) : Bytes :=
  fun k => s.table.mem (commandAt i + k)

/-- The name that an entry reads as. -/
def nameAt (s : Shell) (i : ℕ) : List Byte :=
  text (s.entry i) 63

/-- What an entry holds behind its first `k` bytes, up to a terminator. -/
def behind (s : Shell) (i k : ℕ) : List Byte :=
  text (fun j => s.entry i (k + j)) (63 - k)

/-- Every name has a terminator inside its entry. -/
def Terminated (s : Shell) : Prop :=
  ∀ i, s.entry i 63 = 0

section Lookup

variable {s : Shell}

/-- The search of the table gives the first index of the name, when the table is terminated. -/
theorem findFrom_eq (hs : s.Terminated) (cmd : CString) (n i : ℕ) :
    s.findFrom cmd n i =
      if firstIndex ((List.range' i n).map s.nameAt) cmd.content = -1 then -1
      else i + firstIndex ((List.range' i n).map s.nameAt) cmd.content := by
  induction n generalizing i with
  | zero => rfl
  | succ n ih =>
    have hend : s.entry i (0 + cmd.bound) = 0 ∨ cmd.bytes (0 + cmd.bound) = 0 :=
      Or.inr (by rw [Nat.zero_add, cmd.terminated])
    have htest : strcmpFrom (s.entry i) cmd.bytes cmd.bound 0 = 0 ↔ s.nameAt i = cmd.content := by
      rw [CString.strcmpFrom_eq_zero_iff cmd.bound 0 hend]
      exact CString.sameFrom_zero_iff ⟨s.entry i, 63, hs i⟩ cmd
    rw [List.range'_succ, List.map_cons, firstIndex_cons]
    change (if strcmpFrom (s.entry i) cmd.bytes cmd.bound 0 = 0 then (i : ℤ)
      else findFrom s cmd n (i + 1)) = _
    by_cases hname : s.nameAt i = cmd.content
    · simp [htest.2 hname, hname]
    · have hle := neg_one_le_firstIndex ((List.range' (i + 1) n).map s.nameAt) cmd.content
      rw [if_neg (mt htest.1 hname), if_neg hname, ih]
      split_ifs <;> omega

/-- A lookup finds the first entry that reads as the command. -/
theorem findCMD_eq (hs : s.Terminated) (cmd : CString) :
    s.findCMD cmd =
      firstIndex ((List.range (s.numCommands + 1).toNat).map s.nameAt) cmd.content := by
  rw [findCMD, findFrom_eq hs, ← List.range_eq_range']
  split_ifs with h
  · exact h.symm
  · rw [Nat.cast_zero, zero_add]

end Lookup

/-! ## Writing a name -/

/-- A string with at least one byte and at most `n`. -/
def ShortUpTo (n : ℕ) (src : CopySource) : Prop :=
  1 ≤ strlen src.toCString ∧ strlen src.toCString ≤ n

instance (n : ℕ) (src : CopySource) : Decidable (ShortUpTo n src) :=
  inferInstanceAs (Decidable (_ ∧ _))

section Entries

variable {s : Shell} {command description : CopySource} (address : Word)

/-- `clearCommands` leaves the names in the table. -/
theorem entry_clearFrom (n i : ℕ) (s : Shell) (e : ℕ) {k : ℕ} (hk : k ≤ 63) :
    (clearFrom n i s).entry e k = s.entry e k := by
  induction n generalizing i s with
  | zero => rfl
  | succ n ih =>
    rw [clearFrom, ih]
    refine mem_storePointer s.table 0 ?_
    unfold commandAt addressAt
    omega

/-- The bytes of the names, after a command has been added. -/
theorem entry_addCommand (hroom : s.numCommands < 16) (hcommand : ShortUpTo 63 command)
    (hdescription : ShortUpTo 255 description) (e : ℕ) {k : ℕ} (hk : k ≤ 63) :
    (s.addCommand command description address).1.entry e k =
      if e = (s.numCommands + 1).toNat ∧ k < strlen command.toCString then command.bytes k
      else s.entry e k := by
  obtain ⟨hpos, hle⟩ := hcommand
  obtain ⟨hdpos, hdle⟩ := hdescription
  unfold entry
  rw [addCommand, if_pos hroom]
  dsimp only
  rw [mem_storePointer, mem_strcpy, mem_strcpy, CopySource.copied_eq_strlen hpos,
    CopySource.copied_eq_strlen hdpos]
  · unfold commandAt descriptionAt
    rw [if_neg (by omega)]
    by_cases he : e = (s.numCommands + 1).toNat
    · rw [← he, Nat.add_sub_cancel_left]
      refine if_congr ?_ rfl rfl
      omega
    · rw [if_neg (by omega), if_neg (by omega)]
  · unfold commandAt addressAt
    omega

/-- The new entry reads as the name with what was left behind it. -/
theorem nameAt_addCommand (hs : s.Terminated) (hroom : s.numCommands < 16)
    (hcommand : ShortUpTo 63 command) (hdescription : ShortUpTo 255 description) :
    (s.addCommand command description address).1.nameAt (s.numCommands + 1).toNat =
      command.content ++ s.behind (s.numCommands + 1).toNat (strlen command.toCString) := by
  refine text_append (hs _) hcommand.2 (fun k hk => ?_) fun k hk hk63 => ?_
  · rw [entry_addCommand address hroom hcommand hdescription _ (hk.le.trans hcommand.2),
      if_pos ⟨rfl, hk⟩]
  · rw [entry_addCommand address hroom hcommand hdescription _ hk63, if_neg (by omega)]

/-- The other entries read as before. -/
theorem nameAt_addCommand_of_ne (hroom : s.numCommands < 16) (hcommand : ShortUpTo 63 command)
    (hdescription : ShortUpTo 255 description) {e : ℕ} (he : e ≠ (s.numCommands + 1).toNat) :
    (s.addCommand command description address).1.nameAt e = s.nameAt e := by
  refine text_congr fun k hk => ?_
  rw [entry_addCommand address hroom hcommand hdescription e hk.le, if_neg fun h => he h.1]

theorem Terminated.clearCommands (hs : s.Terminated) : s.clearCommands.Terminated := by
  intro e
  rw [Shell.clearCommands, entry_clearFrom 16 0 s e le_rfl, hs e]

/-- A short name and a short description keep the table terminated. -/
theorem Terminated.addCommand (hs : s.Terminated) (hroom : s.numCommands < 16)
    (hcommand : ShortUpTo 63 command) (hdescription : ShortUpTo 255 description) :
    (s.addCommand command description address).1.Terminated := by
  intro e
  have hle := hcommand.2
  rw [entry_addCommand address hroom hcommand hdescription e le_rfl, if_neg (by omega), hs e]

end Entries

end Shell

/-! ## Sessions -/

/-- A shell, with the names that have been registered since the last clear. -/
structure Session where
  shell : Shell
  names : List (List Byte)

namespace Session

/-- Nothing is registered. -/
def start : Session where
  shell := Shell.start
  names := []

/-- A call, and what it does to the names. -/
def step (r : Session) (call : Call) : Session where
  shell := r.shell.perform call
  names :=
    match call with
    | .clearCommands => []
    | .addCommand command _ _ => r.names ++ [command.content]

/-- At most 16 commands are added after a clear, and the strings fit their fields. -/
def Allowed (r : Session) : Call → Prop
  | .clearCommands => True
  | .addCommand command description _ =>
    r.names.length < 16 ∧ Shell.ShortUpTo 63 command ∧ Shell.ShortUpTo 255 description

/-- Nothing is left behind the new name, or the name and what the entry then reads as are
registered already. -/
def Clean (r : Session) : Call → Prop
  | .clearCommands => True
  | .addCommand command _ _ =>
    let left := r.shell.behind (r.shell.numCommands + 1).toNat (strlen command.toCString)
    left = [] ∨ command.content ++ left ∈ r.names ∧ command.content ∈ r.names

/-- Every lookup returns the first index of the command among the names. -/
def Finds (r : Session) : Prop :=
  ∀ cmd : CString, r.shell.findCMD cmd = firstIndex r.names cmd.content

/-- The counter counts the names, and the names in the table have terminators. -/
structure Counted (r : Session) : Prop where
  count : r.shell.numCommands + 1 = r.names.length
  terminated : r.shell.Terminated

section Steps

variable {r : Session} {call : Call}

/-- The counter is below `16` when so many names are there. -/
theorem Counted.room (h : r.Counted) (hroom : r.names.length < 16) :
    r.shell.numCommands < 16 := by
  have hcount := h.count
  omega

/-- The next name goes behind the others. -/
theorem Counted.slot (h : r.Counted) : (r.shell.numCommands + 1).toNat = r.names.length := by
  rw [h.count, Int.toNat_natCast]

/-- Each allowed call keeps the count. -/
theorem Counted.step (h : r.Counted) (hok : r.Allowed call) : (r.step call).Counted := by
  cases call with
  | clearCommands =>
    refine ⟨?_, h.terminated.clearCommands⟩
    rw [Session.step, Shell.perform, Shell.numCommands_clearCommands]
    rfl
  | addCommand command description address =>
    obtain ⟨hroom, hcommand, hdescription⟩ := hok
    have hlt := h.room hroom
    refine ⟨?_, h.terminated.addCommand address hlt hcommand hdescription⟩
    rw [Session.step, Shell.perform, Shell.numCommands_addCommand hlt, h.count]
    simp

/-- The names that the table reads as. -/
def reads (r : Session) : List (List Byte) :=
  (List.range r.names.length).map r.shell.nameAt

/-- Lookups are right when the table reads as the names that were added. -/
theorem finds_iff (h : r.Counted) :
    r.Finds ↔ ∀ a, (∃ cmd : CString, cmd.content = a) →
      firstIndex r.reads a = firstIndex r.names a := by
  constructor
  · rintro hfinds a ⟨cmd, rfl⟩
    rw [← hfinds cmd, Shell.findCMD_eq h.terminated, h.slot, reads]
  · intro hsame cmd
    rw [Shell.findCMD_eq h.terminated, h.slot, ← hsame _ ⟨cmd, rfl⟩, reads]

/-- A new entry reads as its name, and what is behind it up to the next terminator. -/
theorem reads_addCommand (h : r.Counted) {command description : CopySource} {address : Word}
    (hok : r.Allowed (.addCommand command description address)) :
    (r.step (.addCommand command description address)).reads =
      r.reads ++ [command.content ++
        r.shell.behind (r.shell.numCommands + 1).toNat (strlen command.toCString)] := by
  obtain ⟨hroom, hcommand, hdescription⟩ := hok
  have hlt := h.room hroom
  rw [reads, Session.step, List.length_append, List.length_singleton, List.range_succ,
    List.map_append, List.map_singleton, ← Shell.nameAt_addCommand address h.terminated hlt
    hcommand hdescription, h.slot, reads]
  refine congrArg (· ++ _) (List.map_congr_left fun e he => ?_)
  have hne : e ≠ (r.shell.numCommands + 1).toNat := by
    rw [h.slot]
    exact Nat.ne_of_lt (List.mem_range.1 he)
  exact Shell.nameAt_addCommand_of_ne address hlt hcommand hdescription hne

/-- One call. -/
theorem finds_step_iff (h : r.Counted) (hfinds : r.Finds) (hok : r.Allowed call) :
    (r.step call).Finds ↔ r.Clean call := by
  rw [finds_iff (h.step hok)]
  cases call with
  | clearCommands => exact iff_of_true (fun _ _ => rfl) trivial
  | addCommand command description address =>
    rw [reads_addCommand h hok]
    obtain ⟨hroom, hcommand, hdescription⟩ := hok
    have hlt := h.room hroom
    have hterminated := h.terminated.addCommand address hlt hcommand hdescription
    have hread := Shell.nameAt_addCommand address h.terminated hlt hcommand hdescription
    have hlen : r.reads.length = r.names.length := by simp [reads]
    refine (firstIndex_concat_eq_iff hlen ((finds_iff h).1 hfinds)
      ⟨⟨_, 63, hterminated (r.shell.numCommands + 1).toNat⟩, hread⟩
      ⟨command.toCString, rfl⟩).trans ?_
    rw [List.append_right_eq_self, Clean]

end Steps

/-- Every lookup after every call of a run finds the first index of the name, exactly when
every name is added to a clean entry. -/
theorem findCMD_iff_clean (calls : List Call) (h : Meets step Allowed start calls) :
    (∀ js, js <+: calls → Finds (run step start js)) ↔ Meets step Clean start calls := by
  have hstart : start.Counted := ⟨rfl, fun _ => rfl⟩
  have hfinds : start.Finds := (finds_iff hstart).2 fun _ _ => rfl
  exact h.forall_prefix_iff (I := Counted) (P := Finds) (fun _ _ hr hok => hr.step hok)
    (fun _ _ hr hf hok => finds_step_iff hr hf hok) hstart hfinds

/-- `help` is registered, and `hi` after a clear. -/
def helpThenHi : List Call :=
  [.addCommand (.ofCons 0x68 [0x65, 0x6C, 0x70]) (.ofCons 0x61 []) 0x1000, .clearCommands,
    .addCommand (.ofCons 0x68 [0x69]) (.ofCons 0x62 []) 0x2000]

/-- The two calls of the example are within the limits. -/
theorem allowed_helpThenHi : Meets step Allowed start helpThenHi :=
  ⟨⟨by decide, by decide, by decide⟩, trivial, ⟨by decide, by decide, by decide⟩, trivial⟩

/-- The second name is shorter than the one that was there. -/
theorem findCMD_iff_clean_helpThenHi :
    (∀ js, js <+: helpThenHi → Finds (run step start js)) ↔ Meets step Clean start helpThenHi :=
  findCMD_iff_clean helpThenHi allowed_helpThenHi

/-- The entry reads as `hilp`, and `hi` is not found. -/
theorem not_finds_helpThenHi :
    Meets step Allowed start helpThenHi ∧
      ¬∀ js, js <+: helpThenHi → Finds (run step start js) := by
  refine ⟨allowed_helpThenHi, fun h => ?_⟩
  have hfind := h helpThenHi List.prefix_rfl (CString.ofList [0x68, 0x69])
  exact absurd hfind (by decide)

end Session

end Scorch
