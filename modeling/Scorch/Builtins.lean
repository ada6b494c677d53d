import Mathlib.Data.List.Nodup
import Scorch.CommandLookup
import Scorch.StringCopy

/-!
# The built-in commands

The commands that `initShell` of `shell.c` registers, and the table it leaves. Every command is
registered under its name with the address of its function, in an entry that has held
nothing or the same name before, so the entries read as the names however often the shell
is reset (`registered_initShell`). `dispatch` goes from the name that was typed to the function
(`Registered.dispatch_eq_some_iff`).

The invariant is that every entry holds the name that it always holds, or nothing yet (`Ready`).
`initShell` keeps it, since it registers the same commands in the same order each time.
-/

open ByteMemory GuardedRun

namespace Scorch

/-- The functions of the commands, by the names they have in `shell.c`. -/
inductive Builtin
  | help
  | ahelp
  | outputMe
  | version
  /-- `example` -/
  | exampleMe
  | addMe
  | subtractMe
  | exponentMe
  | initShell
  deriving DecidableEq

/-- The codes of characters. -/
def codes (s : List Char) : List Byte :=
  s.map fun c => BitVec.ofNat 8 c.toNat

namespace Builtin

/-- The commands in the order in which they are registered. -/
def all : List Builtin :=
  [help, ahelp, outputMe, version, exampleMe, addMe, subtractMe, exponentMe, initShell]

/-- What is typed for a command. -/
def name : Builtin → List Byte
  | help => codes ['h', 'e', 'l', 'p']
  | ahelp => codes ['a', 'h', 'e', 'l', 'p']
  | outputMe => codes ['p', 'r', 'i', 'n', 't']
  | version => codes ['v', 'e', 'r', 's', 'i', 'o', 'n']
  | exampleMe => codes ['e', 'x', 'a', 'm', 'p', 'l', 'e']
  | addMe => codes ['a', 'd', 'd']
  | subtractMe => codes ['s', 'u', 'b']
  | exponentMe => codes ['e', 'x', 'p']
  | initShell => codes ['r', 'e', 's', 'e', 't']

/-- The text that `help` shows for a command. -/
def description : Builtin → List Byte
  | help => codes "Lists all available commands.".toList
  | ahelp => codes "Lists all available commands with descriptions".toList
  | outputMe => codes "Outputs your chosen text".toList
  | version => codes "Displays version information for ScorchOS kernel and shell".toList
  | exampleMe => codes "Quick string to int conversion demo".toList
  | addMe => codes "Adds two numbers together".toList
  | subtractMe => codes "Subtracts one number from another".toList
  | exponentMe =>
    codes "Multiplies a number against itself an exponential amount of times".toList
  | initShell => codes "Reset shell".toList

end Builtin

/-- `CommandTable[i].address`, as it is read. -/
def Shell.functionAddress (s : Shell) (i : ℕ) : Word :=
  loadWord s.table.mem (addressAt i)

/-- The addresses of the functions, which are different. -/
structure Linkage where
  address : Builtin → Word
  injective : Function.Injective address

namespace Linkage

variable (code : Linkage)

/-- The function at an address. -/
def functionAt (w : Word) : Option Builtin :=
  Builtin.all.find? fun c => code.address c = w

/-- The call of `addCommand` for a command. -/
def register (c : Builtin) : Call :=
  .addCommand (constant c.name) (constant c.description) (code.address c)

/-- The function that `runShell` jumps to for a command. -/
def dispatch (s : Shell) (cmd : CString) : Option Builtin :=
  let i := s.findCMD cmd
  if 0 ≤ i then code.functionAt (s.functionAddress i.toNat) else none

/-- What `initShell` does to the table. -/
def initShell (s : Shell) : Shell :=
  run Shell.perform s (.clearCommands :: Builtin.all.map code.register)

end Linkage

/-! ## Names and addresses -/

theorem Builtin.mem_all (c : Builtin) : c ∈ all := by
  cases c <;> decide

/-- Different builtins have different names. -/
theorem Builtin.name_injective : Function.Injective name := by
  intro c d h
  have hnodup : (all.map name).Nodup := by decide
  exact List.inj_on_of_nodup_map hnodup c.mem_all d.mem_all h

/-- The function at the address of a builtin is that builtin. -/
theorem Linkage.functionAt_address (code : Linkage) (c : Builtin) :
    code.functionAt (code.address c) = some c := by
  cases hfind : code.functionAt (code.address c) with
  | none =>
    have hnone := List.find?_eq_none.1 hfind c c.mem_all
    exact absurd (decide_eq_true rfl) hnone
  | some d =>
    have hsome := List.find?_some hfind
    rw [code.injective (of_decide_eq_true hsome)]

/-- No byte of a name is a terminator. -/
theorem Builtin.ne_zero_of_mem_name (c : Builtin) : ∀ b ∈ c.name, b ≠ 0 := by
  cases c <;> decide +kernel

/-- A name is not empty and leaves room for the terminator. -/
theorem Builtin.length_name (c : Builtin) : 1 ≤ c.name.length ∧ c.name.length ≤ 63 := by
  cases c <;> decide +kernel

theorem Builtin.length_description_le (c : Builtin) : c.description.length ≤ 254 := by
  cases c <;> decide +kernel

/-- No description starts with the terminator. -/
theorem Builtin.getD_description_ne_zero (c : Builtin) : c.description.getD 0 0 ≠ 0 := by
  cases c <;> decide +kernel

/-- The content of a string constant is the text. -/
theorem content_constant {l : List Byte} (h : ∀ b ∈ l, b ≠ 0) :
    (constant l).content = l :=
  content_eq_of_bytes (fun _ _ => rfl) h

/-- The strings of a command fit their fields. -/
theorem Builtin.shortUpTo (c : Builtin) :
    Shell.ShortUpTo 63 (constant c.name) ∧ Shell.ShortUpTo 255 (constant c.description) := by
  refine ⟨?_, Nat.pos_of_ne_zero fun hlen => ?_, ?_⟩
  · rw [Shell.ShortUpTo, CString.strlen_of_content (content_constant c.ne_zero_of_mem_name)]
    exact c.length_name
  · have hzero := (constant c.description).endsAt_strlen.2.1
    rw [hlen] at hzero
    exact c.getD_description_ne_zero hzero
  · exact (strlen_le_bound _).trans (Nat.succ_le_succ c.length_description_le)

/-- `strlen` of the constant is the length of the name. -/
theorem Builtin.strlen_constant_name (c : Builtin) :
    strlen (constant c.name).toCString = c.name.length :=
  CString.strlen_of_content (content_constant c.ne_zero_of_mem_name)

namespace Shell

/-- A pointer that was stored is loaded again. -/
theorem loadWord_storePointer (m : StoreLog Byte) (k : ℕ) (w : Word) :
    loadWord (storePointer m k w).mem k = w := by
  have h0 : (storePointer m k w).mem k = w.setWidth 8 := by
    simp [storePointer, StoreLog.mem_store_apply]
  have h1 : (storePointer m k w).mem (k + 1) = (w >>> 8).setWidth 8 := by
    simp [storePointer, StoreLog.mem_store_apply]
  have h2 : (storePointer m k w).mem (k + 2) = (w >>> 16).setWidth 8 := by
    simp [storePointer, StoreLog.mem_store_apply]
  have h3 : (storePointer m k w).mem (k + 3) = (w >>> 24).setWidth 8 := by
    simp [storePointer, StoreLog.mem_store_apply]
  exact loadWord_eq h0 h1 h2 h3

/-- `addCommand` writes the pointer of the next entry, and no other. -/
theorem functionAddress_addCommand {s : Shell} {command description : CopySource}
    (hroom : s.numCommands < 16) (hcommand : ShortUpTo 63 command)
    (hdescription : ShortUpTo 255 description) (address : Word) (e : ℕ) :
    (s.addCommand command description address).1.functionAddress e =
      if e = (s.numCommands + 1).toNat then address else s.functionAddress e := by
  obtain ⟨hpos, hle⟩ := hcommand
  obtain ⟨hdpos, hdle⟩ := hdescription
  rw [addCommand, if_pos hroom, functionAddress]
  split_ifs with he
  · rw [he]
    exact loadWord_storePointer _ _ _
  · refine loadWord_congr fun k hlo hhi => ?_
    unfold addressAt at hlo hhi
    rw [mem_storePointer, mem_strcpy, mem_strcpy, CopySource.copied_eq_strlen hpos,
      CopySource.copied_eq_strlen hdpos]
    · unfold commandAt descriptionAt
      rw [if_neg (by omega), if_neg (by omega)]
    · unfold addressAt
      omega

/-! ## The table -/

/-- Every entry holds the name of its command, or the front of it is still zero. -/
def Ready (s : Shell) : Prop :=
  ∀ i, ∀ k ≤ 63, s.entry i k = 0 ∨
    ∃ c, Builtin.all[i]? = some c ∧ s.entry i k = c.name.getD k 0

/-- The table holds these commands. -/
structure Registered (code : Linkage) (s : Shell) (cs : List Builtin) : Prop where
  count : s.numCommands + 1 = cs.length
  entries : ∀ i c, cs[i]? = some c → ∀ k ≤ 63, s.entry i k = c.name.getD k 0
  addresses : ∀ i c, cs[i]? = some c → s.functionAddress i = code.address c

section Table

variable {code : Linkage} {s : Shell} {cs : List Builtin}

/-- The table is in order when the shell starts. -/
theorem ready_start : start.Ready :=
  fun _ _ _ => Or.inl rfl

/-- In an orderly table every name has a terminator. -/
theorem Ready.terminated (h : s.Ready) : s.Terminated := by
  intro i
  rcases h i 63 le_rfl with hzero | ⟨c, -, hc⟩
  · exact hzero
  · rw [hc, List.getD_eq_default _ _ c.length_name.2]

/-- `clearCommands` keeps the table in order. -/
theorem Ready.clearCommands (h : s.Ready) : s.clearCommands.Ready := by
  intro i k hk
  rw [Shell.clearCommands, entry_clearFrom 16 0 s i hk]
  exact h i k hk

/-- After `clearCommands` no command is registered. -/
theorem registered_clearCommands (code : Linkage) (s : Shell) :
    Registered code s.clearCommands [] where
  count := by rw [numCommands_clearCommands]; rfl
  entries i c hc := absurd hc (by simp)
  addresses i c hc := absurd hc (by simp)

/-- A command is registered behind the others. -/
theorem Registered.step (h : Registered code s cs) (hready : s.Ready) {c : Builtin}
    (hc : Builtin.all[cs.length]? = some c) :
    Registered code (s.perform (code.register c)) (cs ++ [c]) ∧
      (s.perform (code.register c)).Ready := by
  obtain ⟨hname, hdescription⟩ := c.shortUpTo
  have hlen : cs.length < Builtin.all.length := (List.getElem?_eq_some_iff.1 hc).1
  have hroom : s.numCommands < 16 := by
    have hcount := h.count
    have hall : Builtin.all.length = 9 := rfl
    omega
  have hslot : (s.numCommands + 1).toNat = cs.length := by rw [h.count, Int.toNat_natCast]
  -- behind the name the entry holds what it held before, which is zero
  have hentry : ∀ e, ∀ k ≤ 63, (s.perform (code.register c)).entry e k =
      if e = cs.length then c.name.getD k 0 else s.entry e k := by
    intro e k hk
    rw [Linkage.register, perform, entry_addCommand _ hroom hname hdescription e hk, hslot,
      c.strlen_constant_name]
    by_cases he : e = cs.length
    · by_cases hlt : k < c.name.length
      · rw [if_pos ⟨he, hlt⟩, if_pos he]
        rfl
      · rw [if_neg fun hand => hlt hand.2, if_pos he, he,
          List.getD_eq_default _ _ (Nat.le_of_not_lt hlt)]
        rcases hready cs.length k hk with hzero | ⟨d, hd, hdk⟩
        · exact hzero
        · obtain rfl : c = d := Option.some.inj (hc.symm.trans hd)
          rw [hdk, List.getD_eq_default _ _ (Nat.le_of_not_lt hlt)]
    · rw [if_neg fun hand => he hand.1, if_neg he]
  have haddress : ∀ e, (s.perform (code.register c)).functionAddress e =
      if e = cs.length then code.address c else s.functionAddress e := fun e => by
    rw [Linkage.register, perform, functionAddress_addCommand hroom hname hdescription, hslot]
  have hget : ∀ i d, (cs ++ [c])[i]? = some d →
      i = cs.length ∧ d = c ∨ i ≠ cs.length ∧ cs[i]? = some d := by
    intro i d hd
    rcases Nat.lt_trichotomy i cs.length with hlt | rfl | hgt
    · exact Or.inr ⟨hlt.ne, by rwa [List.getElem?_append_left hlt] at hd⟩
    · exact Or.inl ⟨rfl, by simpa using hd.symm⟩
    · have hlen : (cs ++ [c]).length ≤ i := by
        rw [List.length_append, List.length_singleton]
        omega
      exact absurd (hd.symm.trans (List.getElem?_eq_none hlen)) (Option.some_ne_none d)
  refine ⟨⟨?_, fun i d hd k hk => ?_, fun i d hd => ?_⟩, fun i k hk => ?_⟩
  · rw [Linkage.register, perform, numCommands_addCommand hroom, h.count]
    simp
  · rw [hentry i k hk]
    rcases hget i d hd with ⟨hi, rfl⟩ | ⟨hi, hold⟩
    · rw [if_pos hi]
    · rw [if_neg hi, h.entries i d hold k hk]
  · rw [haddress i]
    rcases hget i d hd with ⟨hi, rfl⟩ | ⟨hi, hold⟩
    · rw [if_pos hi]
    · rw [if_neg hi, h.addresses i d hold]
  · rw [hentry i k hk]
    split_ifs with hi
    · exact Or.inr ⟨c, hi ▸ hc, rfl⟩
    · exact hready i k hk

/-- Each registration adds one builtin, until all are there. -/
theorem Registered.steps (hready : s.Ready) {rest : List Builtin}
    (h : Registered code s cs) (hall : cs ++ rest = Builtin.all) :
    Registered code (run perform s (rest.map code.register)) Builtin.all ∧
      (run perform s (rest.map code.register)).Ready := by
  induction rest generalizing s cs with
  | nil =>
    rw [List.append_nil] at hall
    exact ⟨hall ▸ h, hready⟩
  | cons c rest ih =>
    have hc : Builtin.all[cs.length]? = some c := by simp [← hall]
    obtain ⟨hnext, hreadyNext⟩ := h.step hready hc
    exact ih hreadyNext hnext (by rw [List.append_assoc]; exact hall)

/-- After `initShell` the table holds all commands, whatever they have left in it before. -/
theorem registered_initShell (code : Linkage) (hready : s.Ready) :
    Registered code (code.initShell s) Builtin.all ∧ (code.initShell s).Ready := by
  rw [Linkage.initShell, run_cons]
  exact (registered_clearCommands code s).steps hready.clearCommands (List.nil_append _)

/-- An entry reads as the name of its command. -/
theorem Registered.nameAt_eq (h : Registered code s cs) {i : ℕ} {c : Builtin}
    (hc : cs[i]? = some c) : s.nameAt i = c.name := by
  have hend : s.entry i 63 = 0 := by
    rw [h.entries i c hc 63 le_rfl, List.getD_eq_default _ _ c.length_name.2]
  exact content_eq_of_bytes (s := ⟨s.entry i, 63, hend⟩)
    (fun k hk => h.entries i c hc k (hk.trans c.length_name.2)) c.ne_zero_of_mem_name

/-- A lookup finds the command with the name that was typed. -/
theorem Registered.dispatch_eq_some_iff (h : Registered code s Builtin.all) (hs : s.Terminated)
    (cmd : CString) (c : Builtin) : code.dispatch s cmd = some c ↔ c.name = cmd.content := by
  have hreads : (List.range (s.numCommands + 1).toNat).map s.nameAt =
      Builtin.all.map Builtin.name := by
    refine List.ext_getElem (by simp [h.count]) fun i hi hiall => ?_
    rw [List.length_map] at hiall
    rw [List.getElem_map, List.getElem_range, List.getElem_map]
    exact h.nameAt_eq (List.getElem?_eq_getElem hiall)
  have hfind := findCMD_eq hs cmd
  rw [hreads] at hfind
  by_cases hmem : cmd.content ∈ Builtin.all.map Builtin.name
  · obtain ⟨i, hlt, hindex, hget⟩ := exists_firstIndex_of_mem hmem
    rw [List.length_map] at hlt
    have hname : (Builtin.all[i]).name = cmd.content := by rwa [List.getElem_map] at hget
    have haddress := h.addresses i _ (List.getElem?_eq_getElem hlt)
    rw [Linkage.dispatch, hfind, hindex, if_pos (Int.natCast_nonneg _), Int.toNat_natCast, haddress,
      code.functionAt_address, ← hname, Option.some_inj]
    exact ⟨fun heq => congrArg _ heq.symm, fun heq => (Builtin.name_injective heq).symm⟩
  · rw [firstIndex_eq_neg_one_iff.2 hmem] at hfind
    rw [Linkage.dispatch, hfind, if_neg (by decide)]
    exact iff_of_false (Option.some_ne_none c).symm
      fun heq => hmem (List.mem_map.2 ⟨c, c.mem_all, heq⟩)

end Table

end Shell

end Scorch
