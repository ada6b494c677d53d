import Scorch.Builtins
import Scorch.Itoa
import Scorch.Strtok

/-!
# Running a line

`runShell` of `shell.c` with the commands it dispatches, by the library calls they make. A
line is cut into at most eight words by calls of `strtok`, which return null from some word
on, and no pointer is tested. `findCMD` takes the first word, and every command takes as many
of the others as its body names.

`runShell_nonNull_iff` says for which lines no null pointer is passed on : there is a word,
and the command has the words it takes. Before the first `initShell` nothing is registered,
and no line is looked up.
-/

open ByteMemory

namespace Scorch

/-! ## Calls -/

/-- Where a pointer points to. -/
inductive Place
  /-- A place in `inputString`. -/
  | line (k : ℕ)
  /-- A place in `CommandTable`. -/
  | table (k : ℕ)
  /-- A constant or another array. -/
  | other (s : CString)

/-- A pointer, or null. -/
abbrev Pointer := Option Place

/-- A call of a library function. -/
inductive Use
  | strcmp (s1 s2 : Pointer)
  | atoi (nptr : Pointer)
  | puts (text : Pointer)
  | putch (c : Byte)
  | putd (n : Word)

/-- The pointers that are passed. -/
def Use.pointers : Use → List Pointer
  | strcmp s1 s2 => [s1, s2]
  | atoi nptr => [nptr]
  | puts text => [text]
  | putch _ => []
  | putd _ => []

/-- No null pointer is passed. -/
def Use.NonNull (u : Use) : Prop :=
  ∀ q ∈ u.pointers, q.isSome

/-- `puts` of a constant. -/
def Use.putsText (s : String) : Use :=
  puts (some (.other (constant (codes s.toList)).toCString))

/-- What a call of `runShell` is given. -/
structure Input where
  prompt : CString
  /-- The line behind `gets`. -/
  inputString : CString
  /-- What `strtok` has kept. -/
  p : Option ℕ
  /-- What is read through a null pointer. -/
  atNull : CString
  /-- The lines that are typed for `example`. -/
  a : CString
  b : CString

/-! ## Words of the line -/

/-- The string `" "`. -/
def blank : CString :=
  CString.ofList [0x20]

/-- The string from a place on, up to the terminator at `bound`. -/
def CString.drop (s : CString) (a : ℕ) : CString where
  bytes i := s.bytes (min (a + i) s.bound)
  bound := s.bound
  terminated := by rw [Nat.min_eq_right (Nat.le_add_left _ _), s.terminated]

namespace Input

variable (io : Input)

/-- What the `k`-th call of `strtok` returns. -/
def token (k : ℕ) : Option ℕ :=
  (strtokCalls io.inputString blank io.p k).1

/-- `cmdString` -/
def cmdString : Pointer :=
  (io.token 0).map .line

/-- `cmdSwitch0` and so on, up to `cmdSwitch6`. -/
def cmdSwitch (k : ℕ) : Pointer :=
  (io.token (k + 1)).map .line

/-- The string that is read through a pointer from `strtok`, after its eight calls. -/
def read : Option ℕ → CString
  | none => io.atNull
  | some a => (strtokCalls io.inputString blank io.p 7).2.text.drop a

/-- `atoi (cmdSwitch0)` and so on. -/
def number (k : ℕ) : Word :=
  atoi (io.read (io.token (k + 1)))

end Input

/-! ## Functions -/

/-- The loop of `exponentMe`, with `n` rounds left. -/
def power : ℕ → Word → Word → Word
  | 0, a, _ => a
  | n + 1, a, b => power n (a * b) b

namespace Builtin

/-- `help`, with the loop over the table. -/
def helpUses (s : Shell) : List Use :=
  [.putsText "\nCommand List: "] ++
    (List.range (s.numCommands + 1).toNat).flatMap (fun i =>
      if s.functionAddress i ≠ 0 then
        [.puts (some (.table (Shell.commandAt i))), .putch 0x2c, .putch 0x20]
      else []) ++
    [.putch 0x0a]

/-- `ahelp` -/
def ahelpUses (s : Shell) : List Use :=
  (List.range (s.numCommands + 1).toNat).flatMap fun i =>
    [.puts (some (.table (Shell.commandAt i))), .putsText " - ",
      .puts (some (.table (Shell.descriptionAt i))), .putch 0x0a]

/-- `outputMe` -/
def outputMeUses (io : Input) : List Use :=
  [.putsText "\nYou typed:", .putch 0x0a,
    .puts (io.cmdSwitch 0), .putch 0x20, .puts (io.cmdSwitch 1), .putch 0x20,
    .puts (io.cmdSwitch 2), .putch 0x20, .puts (io.cmdSwitch 3), .putch 0x20,
    .puts (io.cmdSwitch 4), .putch 0x20, .puts (io.cmdSwitch 5), .putch 0x20,
    .puts (io.cmdSwitch 6)]

/-- `version` -/
def versionUses : List Use :=
  [.putsText "\nKernel Version:\t", .putsText "0.1.5", .putsText "\nShell Version:\t",
    .putsText "0.6"]

/-- `example`. A quotient that does not exist, or does not fit, is an exception. -/
def exampleMeUses (io : Input) : List Use :=
  let c := atoi io.a
  let d := atoi io.b
  [.putsText "Input a number(1): ", .putsText "Input a number(2): ",
    .atoi (some (.other io.a)), .atoi (some (.other io.b)),
    .putsText "Addition: ", .putd (c + d), .putsText "\nSubtraction: ", .putd (c - d),
    .putsText "\nMultiply: ", .putd (c * d), .putsText "\nDivide: "] ++
    if d = 0 ∨ c = 0x80000000 ∧ d = -1 then [] else [.putd (c.sdiv d), .putch 0x0a]

/-- Two numbers, and what becomes of them. -/
def twoNumbers (io : Input) (sign : String) (op : Word → Word → Word) : List Use :=
  let a := io.number 0
  let b := io.number 1
  [.atoi (io.cmdSwitch 0), .atoi (io.cmdSwitch 1), .putch 0x0a, .puts (io.cmdSwitch 0),
    .putsText sign, .puts (io.cmdSwitch 1), .putsText " = ", .putd (op a b)]

/-- `addMe` -/
def addMeUses (io : Input) : List Use :=
  twoNumbers io " + " fun a b => a + b

/-- `subtractMe` -/
def subtractMeUses (io : Input) : List Use :=
  twoNumbers io " - " fun a b => a - b

/-- `exponentMe` -/
def exponentMeUses (io : Input) : List Use :=
  let a := io.number 0
  let b := io.number 0
  let c := io.number 1
  [.atoi (io.cmdSwitch 0), .atoi (io.cmdSwitch 0), .atoi (io.cmdSwitch 1),
    .putd (if c = 0 then 1 else power (c.toInt - 1).toNat a b)]

/-- `initShell`, but for what it does to the table. -/
def initShellUses : List Use :=
  [.putsText "Username: ", .putsText "\nScorchOS Shell ", .putsText "0.6", .putch 0x0a]

/-- The calls of a command. -/
def uses (s : Shell) (io : Input) : Builtin → List Use
  | help => helpUses s
  | ahelp => ahelpUses s
  | outputMe => outputMeUses io
  | version => versionUses
  | exampleMe => exampleMeUses io
  | addMe => addMeUses io
  | subtractMe => subtractMeUses io
  | exponentMe => exponentMeUses io
  | initShell => initShellUses

end Builtin

namespace Shell

/-- The calls of the loop of `findCMD`, with `n` entries left from the `i`-th on. -/
def findUses (s : Shell) (cmd : Pointer) (text : CString) : ℕ → ℕ → List Use
  | 0, _ => []
  | n + 1, i =>
    .strcmp (some (.table (commandAt i))) cmd ::
      if strcmpFrom (s.entry i) text.bytes text.bound 0 = 0 then []
      else findUses s cmd text n (i + 1)

/-- `runShell` : the calls, and the table behind it. -/
def runShell (code : Linkage) (s : Shell) (io : Input) : List Use × Shell :=
  let cmd := io.read (io.token 0)
  let looked := [.putch 0x0a, .puts (some (.other io.prompt))] ++
    findUses s io.cmdString cmd (s.numCommands + 1).toNat 0
  match code.dispatch s cmd with
  | some c => (looked ++ c.uses s io, if c = .initShell then code.initShell s else s)
  | none => (looked, s)

end Shell

/-! ## Words -/

/-- The words of a line. -/
def words (line : CString) : List (List Byte) :=
  (tokens line blank).map fun r => (List.range' r.1 (r.2 - r.1)).map line.bytes

/-- How many of `cmdSwitch0` and so on a command takes. -/
def Builtin.switches : Builtin → ℕ
  | outputMe => 7
  | addMe => 2
  | subtractMe => 2
  | exponentMe => 2
  | _ => 0

/-- There is a word, and a command that has it as its name has the words it takes. -/
def HasWords (ws : List (List Byte)) : Prop :=
  ∃ cmd switches, ws = cmd :: switches ∧ ∀ c : Builtin, c.name = cmd → c.switches ≤ switches.length

/-- `strtok` does not move the end of the text. -/
theorem bound_strtok (str : Option ℕ) (delim : CString) (t : Tokens) :
    (strtok str delim t).2.text.bound = t.text.bound := by
  unfold strtok
  split
  · rfl
  · dsimp only
    split_ifs <;> rfl

theorem bound_beforeCall (s delim : CString) (k : ℕ) :
    (beforeCall s delim k).text.bound = s.bound := by
  induction k with
  | zero => rfl
  | succ k ih => exact (bound_strtok none delim _).trans ih

/-- The string from a place in front of a terminator. -/
theorem content_drop {s : CString} {a b : ℕ} (h : CString.EndsAt s.bytes a b)
    (hb : b ≤ s.bound) : (s.drop a).content = (List.range' a (b - a)).map s.bytes := by
  obtain ⟨hab, hzero, hbefore⟩ := h
  have hbytes : ∀ i, a + i ≤ b → (s.drop a).bytes i = s.bytes (a + i) := fun i hi =>
    congrArg s.bytes (Nat.min_eq_left (hi.trans hb))
  have hlen : strlen (s.drop a) = b - a := by
    refine CString.strlen_eq_of_ne_zero ?_ fun i hi => ?_
    · rw [hbytes _ (by omega), Nat.add_sub_cancel' hab, hzero]
    · rw [hbytes i (by omega)]
      exact hbefore _ (Nat.le_add_right a i) (by omega)
  rw [CString.content, hlen, List.range'_eq_map_range, List.map_map]
  refine List.map_congr_left fun i hi => hbytes i ?_
  have hlt := List.mem_range.1 hi
  omega

namespace Input

variable {io : Input}

/-- The words that `runShell` takes are the words of the line. -/
theorem token_eq (k : ℕ) :
    io.token k = ((tokens io.inputString blank)[k]?).map Prod.fst :=
  fst_strtokCalls _ _ _ k

/-- There is a word when the line has that many. -/
theorem isSome_token_iff (k : ℕ) :
    (io.token k).isSome ↔ k < (words io.inputString).length := by
  rw [token_eq, Option.isSome_map, words, List.length_map, Option.isSome_iff_ne_none, ne_eq,
    List.getElem?_eq_none_iff, Nat.not_le]

/-- There is an argument when the line has one word more. -/
theorem isSome_cmdSwitch_iff (k : ℕ) :
    (io.cmdSwitch k).isSome ↔ k + 1 < (words io.inputString).length := by
  rw [cmdSwitch, Option.isSome_map, isSome_token_iff]

/-- What is read as the command is the first word. -/
theorem content_read_token {cmd : List Byte} {switches : List (List Byte)}
    (h : words io.inputString = cmd :: switches) : (io.read (io.token 0)).content = cmd := by
  obtain ⟨r, rs, hr, hcmd, -⟩ := List.map_eq_cons_iff.1 h
  have htake : r ∈ (tokens io.inputString blank).take 8 := by
    rw [hr, List.take_succ_cons]
    exact List.mem_cons_self
  obtain ⟨hends, hsame⟩ := token_beforeCall io.inputString blank htake
  have hrun := (mem_tokens_iff io.inputString blank r.1 r.2).1 (List.mem_of_mem_take htake)
  have hbound : r.2 ≤ (beforeCall io.inputString blank 8).text.bound := by
    rw [bound_beforeCall]
    exact hrun.le.trans (strlen_le_bound _)
  rw [token_eq, hr, List.getElem?_cons_zero, Option.map_some, read, strtokCalls_eq, ← hcmd]
  refine (content_drop hends hbound).trans (List.map_congr_left fun j hj => ?_)
  have hrange := List.mem_range'_1.1 hj
  exact hsame j hrange.1 (by omega)

end Input

/-! ## The pointers -/

section Pointers

variable {code : Linkage} {s : Shell} {io : Input}

@[simp] theorem Use.nonNull_strcmp (s1 s2 : Pointer) :
    (strcmp s1 s2).NonNull ↔ s1.isSome ∧ s2.isSome := by
  simp [NonNull, pointers]

@[simp] theorem Use.nonNull_atoi (nptr : Pointer) : (atoi nptr).NonNull ↔ nptr.isSome := by
  simp [NonNull, pointers]

@[simp] theorem Use.nonNull_puts (text : Pointer) : (puts text).NonNull ↔ text.isSome := by
  simp [NonNull, pointers]

@[simp] theorem Use.nonNull_putch (c : Byte) : (putch c).NonNull := by
  simp [NonNull, pointers]

@[simp] theorem Use.nonNull_putd (n : Word) : (putd n).NonNull := by
  simp [NonNull, pointers]

@[simp] theorem Use.nonNull_putsText (l : String) : (putsText l).NonNull :=
  (nonNull_puts _).2 rfl

/-- A lookup passes the word to `strcmp` when anything is registered. -/
theorem nonNull_findUses_iff (cmd : Pointer) (text : CString) (n i : ℕ) :
    (∀ u ∈ s.findUses cmd text n i, u.NonNull) ↔ n = 0 ∨ cmd.isSome := by
  induction n generalizing i with
  | zero => simp [Shell.findUses]
  | succ n ih =>
    rw [Shell.findUses, List.forall_mem_cons, Use.nonNull_strcmp, Option.isSome_some,
      or_iff_right (Nat.succ_ne_zero n)]
    split_ifs with hfound
    · simp
    · rw [ih (i + 1)]
      exact ⟨fun h => h.1.2, fun h => ⟨⟨rfl, h⟩, Or.inr h⟩⟩

/-- The commands with two numbers look at both arguments, given or not. -/
theorem nonNull_twoNumbers_iff (sign : String) (op : Word → Word → Word) :
    (∀ u ∈ Builtin.twoNumbers io sign op, u.NonNull) ↔
      (io.cmdSwitch 0).isSome ∧ (io.cmdSwitch 1).isSome := by
  simp only [Builtin.twoNumbers, List.forall_mem_cons, Use.nonNull_atoi]
  simp +contextual

/-- A command passes the pointers it takes. -/
theorem nonNull_uses_iff (c : Builtin) :
    (∀ u ∈ c.uses s io, u.NonNull) ↔ ∀ k < c.switches, (io.cmdSwitch k).isSome := by
  have hnone : ∀ k < 0, (io.cmdSwitch k).isSome := fun k hk => absurd hk (Nat.not_lt_zero k)
  have htwo : (∀ k < 2, (io.cmdSwitch k).isSome) ↔
      (io.cmdSwitch 0).isSome ∧ (io.cmdSwitch 1).isSome := by
    simp only [Nat.forall_lt_succ_right, iff_true_intro hnone, true_and]
  cases c with
  | help =>
    refine iff_of_true (fun u hu => ?_) hnone
    simp only [Builtin.uses, Builtin.helpUses, List.mem_append, List.mem_singleton,
      List.mem_flatMap] at hu
    rcases hu with (rfl | ⟨i, -, hu⟩) | rfl
    · simp
    · split_ifs at hu
      · simp only [List.mem_cons, List.not_mem_nil, or_false] at hu
        rcases hu with rfl | rfl | rfl <;> simp
      · exact absurd hu List.not_mem_nil
    · simp
  | ahelp =>
    refine iff_of_true (fun u hu => ?_) hnone
    simp only [Builtin.uses, Builtin.ahelpUses, List.mem_flatMap, List.mem_cons,
      List.not_mem_nil, or_false] at hu
    obtain ⟨i, -, rfl | rfl | rfl | rfl⟩ := hu <;> simp
  | outputMe =>
    simp only [Builtin.switches, Nat.forall_lt_succ_right, iff_true_intro hnone, true_and]
    simp [Builtin.uses, Builtin.outputMeUses, and_assoc]
  | version => simp [Builtin.uses, Builtin.versionUses, Builtin.switches]
  | exampleMe =>
    simp only [Builtin.uses, Builtin.exampleMeUses, Builtin.switches]
    split_ifs <;> simp
  | addMe =>
    rw [Builtin.switches, htwo]
    exact nonNull_twoNumbers_iff _ _
  | subtractMe =>
    rw [Builtin.switches, htwo]
    exact nonNull_twoNumbers_iff _ _
  | exponentMe =>
    rw [Builtin.switches, htwo]
    simp [Builtin.uses, Builtin.exponentMeUses]
  | initShell => simp [Builtin.uses, Builtin.initShellUses, Builtin.switches]

end Pointers

/-! ## All lines -/

section Lines

variable (code : Linkage)

/-- After any number of calls of `initShell` the table is in order. -/
theorem ready_iterate (n : ℕ) : (code.initShell^[n] Shell.start).Ready := by
  induction n with
  | zero => exact Shell.ready_start
  | succ n ih =>
    rw [Function.iterate_succ_apply']
    exact (Shell.registered_initShell code ih).2

theorem registered_iterate (n : ℕ) :
    (code.initShell^[n + 1] Shell.start).Registered code Builtin.all := by
  rw [Function.iterate_succ_apply']
  exact (Shell.registered_initShell code (ready_iterate code n)).1

/-- The shell stays one that `initShell` has been run on. -/
theorem runShell_table (n : ℕ) (io : Input) : ∃ m, n ≤ m ∧
    ((code.initShell^[n] Shell.start).runShell code io).2 = code.initShell^[m] Shell.start := by
  rw [Shell.runShell]
  split
  · dsimp only
    split_ifs
    · exact ⟨n + 1, Nat.le_succ n, (Function.iterate_succ_apply' _ n _).symm⟩
    · exact ⟨n, le_rfl, rfl⟩
  · exact ⟨n, le_rfl, rfl⟩

/-- The calls of a line, when all commands are registered. -/
theorem nonNull_runShell_iff {s : Shell} (h : s.Registered code Builtin.all)
    (hs : s.Terminated) (io : Input) :
    (∀ u ∈ (s.runShell code io).1, u.NonNull) ↔ io.cmdString.isSome ∧
      ∀ c : Builtin, c.name = (io.read (io.token 0)).content →
        ∀ k < c.switches, (io.cmdSwitch k).isSome := by
  have hpos : (s.numCommands + 1).toNat ≠ 0 := by
    rw [h.count, Int.toNat_natCast]
    decide
  have hlooked : (∀ u ∈ [Use.putch 0x0a, .puts (some (.other io.prompt))] ++
      s.findUses io.cmdString (io.read (io.token 0)) (s.numCommands + 1).toNat 0, u.NonNull) ↔
      io.cmdString.isSome := by
    rw [List.forall_mem_append, nonNull_findUses_iff, or_iff_right hpos]
    simp
  have hdispatch := h.dispatch_eq_some_iff hs (io.read (io.token 0))
  rw [Shell.runShell]
  cases hc : code.dispatch s (io.read (io.token 0)) with
  | none =>
    rw [hlooked, iff_self_and]
    exact fun _ c hname => absurd ((hdispatch c).2 hname) (by simp [hc])
  | some d =>
    have hname : ∀ c : Builtin, c.name = (io.read (io.token 0)).content ↔ c = d := fun c => by
      rw [← hdispatch c, hc, Option.some_inj, eq_comm]
    rw [List.forall_mem_append, hlooked, nonNull_uses_iff]
    simp only [hname, forall_eq]

/-- No null pointer is passed on, exactly when there is a word and the command has the words
it takes. -/
theorem runShell_nonNull_iff (n : ℕ) (io : Input) :
    (∀ u ∈ ((code.initShell^[n] Shell.start).runShell code io).1, u.NonNull) ↔
      n = 0 ∨ HasWords (words io.inputString) := by
  cases n with
  | zero =>
    refine iff_of_true (fun u hu => ?_) (Or.inl rfl)
    have hnone : code.dispatch Shell.start (io.read (io.token 0)) = none := rfl
    rw [Function.iterate_zero_apply, Shell.runShell, hnone] at hu
    have hcalls : u = .putch 0x0a ∨ u = .puts (some (.other io.prompt)) := by
      simpa [Shell.start, Shell.findUses] using hu
    rcases hcalls with rfl | rfl <;> simp
  | succ n =>
    rw [nonNull_runShell_iff code (registered_iterate code n)
      (ready_iterate code (n + 1)).terminated, or_iff_right (Nat.succ_ne_zero n)]
    have hword : io.cmdString.isSome ↔ 0 < (words io.inputString).length := by
      rw [Input.cmdString, Option.isSome_map, Input.isSome_token_iff]
    rw [hword]
    rcases hlist : words io.inputString with _ | ⟨cmd, switches⟩
    · simp [HasWords]
    · have hcmd := Input.content_read_token hlist
      have hcount : ∀ c : Builtin, (∀ k < c.switches, (io.cmdSwitch k).isSome) ↔
          c.switches ≤ switches.length := fun c => by
        simp only [Input.isSome_cmdSwitch_iff, hlist, List.length_cons, Nat.add_lt_add_iff_right]
        exact ⟨fun h => Nat.le_of_not_lt fun hlt => (h _ hlt).false, fun h k hk => hk.trans_le h⟩
      simp [HasWords, hcmd, hcount]

end Lines

/-- Functions at nine addresses. -/
def linkedInOrder : Linkage where
  address c := BitVec.ofNat 32 (0x100000 + 16 * c.ctorIdx)
  injective c d := by cases c <;> cases d <;> decide

/-- `print hi` passes null pointers on. -/
def printHi : Input where
  prompt := CString.ofList []
  inputString := CString.ofList (codes "print hi".toList)
  p := none
  atNull := CString.ofList []
  a := CString.ofList []
  b := CString.ofList []

/-- On the line `print hi` a null pointer is used. -/
theorem not_nonNull_printHi :
    ¬∀ u ∈ ((linkedInOrder.initShell Shell.start).runShell linkedInOrder printHi).1, u.NonNull := by
  have hready := Shell.registered_initShell linkedInOrder Shell.ready_start
  rw [nonNull_runShell_iff linkedInOrder hready.1 hready.2.terminated]
  intro h
  have hnull := h.2 .outputMe (by decide) 1 (by decide)
  exact absurd hnull (by decide)

end Scorch
