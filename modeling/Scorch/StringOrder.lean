import Scorch.Lib.LexSign
import Scorch.StringCopy

/-!
# Comparing strings

`strcmp` and `strncmp` of `string.c` as comparisons of contents. The bytes are tested for
equality as signed characters and ranked as unsigned ones, and the terminator ranks below
every other byte, so a round of either loop is one step of the lexicographic order. The
first `n` bytes of a string are a string of their own (`CString.take`), and `strncmp` compares
these (`strncmp_eq_strcmp_take`).

A round that finds equal bytes before the end goes on with the tails, and any other round decides.
Nothing is read behind the terminator of either string.
-/

open ByteMemory

namespace Scorch

/-! ## The bytes that are read -/

/-- The bytes of either string that `strcmp` reads. -/
def strcmpReads (s1 s2 : Bytes) : ℕ → ℕ → List ℕ
  | 0, i => [i]
  | n + 1, i => i ::
    if s1 i = s2 i then if s1 i = 0 then [] else strcmpReads s1 s2 n (i + 1)
    else [i]

/-- The bytes that a call of `strncmp` reads. -/
def strncmpCallReads (s1 s2 : Bytes) (n : ℤ) : List ℕ :=
  if n = 0 then [] else strncmpReads s1 s2 n.toNat 0

/-- The string cut to its first `n` bytes. -/
def CString.take (s : CString) (n : ℕ) : CString :=
  .ofList (s.content.take n)

section Order

variable {s1 s2 : CString}

/-! ## Contents from a place on -/

/-- The next byte of the content, or the terminator at its end. -/
theorem headD_drop_content {s : CString} {i : ℕ} (hi : i ≤ strlen s) :
    (s.content.drop i).headD 0 = s.bytes i := by
  rw [← length_content] at hi
  rw [CString.bytes_of_content rfl hi, List.headD_eq_head?_getD, List.head?_drop,
    List.getD_eq_getElem?_getD]

/-- No byte of the content is the terminator, which is the least byte. -/
theorem pos_of_mem_content {s : CString} {c : Byte} (h : c ∈ s.content) : 0 < c ∧ ¬c < 0 := by
  have hne := ne_zero_of_mem_content h
  bv_omega

/-- One round on two strings. -/
theorem lexSign_drop {i : ℕ} (h1 : i ≤ strlen s1) (h2 : i ≤ strlen s2) :
    lexSign (s1.content.drop i) (s2.content.drop i) =
      if s1.bytes i = s2.bytes i then
        if s1.bytes i = 0 then 0 else lexSign (s1.content.drop (i + 1)) (s2.content.drop (i + 1))
      else if s1.bytes i < s2.bytes i then -1 else 1 := by
  rw [lexSign_eq_headD (fun c hc => pos_of_mem_content (List.mem_of_mem_drop hc))
    (fun c hc => pos_of_mem_content (List.mem_of_mem_drop hc)), headD_drop_content h1,
    headD_drop_content h2, List.tail_drop, List.tail_drop]

/-- One round when `n + 1` bytes are left to compare. -/
theorem lexSign_take_drop {i : ℕ} (h1 : i ≤ strlen s1) (h2 : i ≤ strlen s2) (n : ℕ) :
    lexSign ((s1.content.drop i).take (n + 1)) ((s2.content.drop i).take (n + 1)) =
      if s1.bytes i = s2.bytes i then
        if s1.bytes i = 0 then 0
        else lexSign ((s1.content.drop (i + 1)).take n) ((s2.content.drop (i + 1)).take n)
      else if s1.bytes i < s2.bytes i then -1 else 1 := by
  have hhead : ∀ l : List Byte, (l.take (n + 1)).headD 0 = l.headD 0 := fun l => by
    cases l <;> rfl
  have htail : ∀ l : List Byte, (l.take (n + 1)).tail = l.tail.take n := fun l => by
    cases l <;> simp
  have hpos : ∀ (s : CString), ∀ c ∈ (s.content.drop i).take (n + 1), 0 < c ∧ ¬c < 0 :=
    fun s c hc => pos_of_mem_content (List.mem_of_mem_drop (List.mem_of_mem_take hc))
  rw [lexSign_eq_headD (hpos s1) (hpos s2), hhead, hhead, htail, htail, headD_drop_content h1,
    headD_drop_content h2, List.tail_drop, List.tail_drop]

/-! ## The two functions -/

theorem byteOrder_of_ne {a b : Byte} (h : a ≠ b) : byteOrder a b = if a < b then -1 else 1 := by
  have htotal : ¬a < b → b < a := fun hlt => by bv_omega
  unfold byteOrder
  split_ifs with hab hba
  · rfl
  · rfl
  · exact absurd (htotal hab) hba

/-- A byte that is in both strings and no terminator has a byte behind it in both. -/
theorem succ_le_strlen {s : CString} {i : ℕ} (hi : i ≤ strlen s) (h0 : s.bytes i ≠ 0) :
    i + 1 ≤ strlen s :=
  Nat.lt_of_le_of_ne hi fun heq => h0 (heq ▸ s.endsAt_strlen.2.1)

/-- From every place on the loop of `strcmp` compares the rest of the strings. -/
theorem strcmpFrom_eq_lexSign (n i : ℕ) (h1 : i ≤ strlen s1) (h2 : i ≤ strlen s2)
    (hend : strlen s1 ≤ i + n) : strcmpFrom s1.bytes s2.bytes n i =
      lexSign (s1.content.drop i) (s2.content.drop i) := by
  induction n generalizing i with
  | zero =>
    have hzero : s1.bytes i = 0 := by
      rw [show i = strlen s1 by omega]
      exact s1.endsAt_strlen.2.1
    rw [strcmpFrom, lexSign_drop h1 h2, if_pos hzero]
  | succ n ih =>
    rw [strcmpFrom, lexSign_drop h1 h2]
    by_cases heq : s1.bytes i = s2.bytes i
    · rw [if_pos heq, if_pos heq]
      by_cases h0 : s1.bytes i = 0
      · rw [if_pos h0, if_pos h0]
      · rw [if_neg h0, if_neg h0, ih (i + 1) (succ_le_strlen h1 h0)
          (succ_le_strlen h2 (heq ▸ h0)) (by omega)]
    · rw [if_neg heq, if_neg heq]

/-- From every place on the loop of `strncmp` compares the bytes that are left to it. -/
theorem strncmpFrom_eq_lexSign (n i : ℕ) (h1 : i ≤ strlen s1) (h2 : i ≤ strlen s2) :
    strncmpFrom s1.bytes s2.bytes (n + 1) i =
      lexSign ((s1.content.drop i).take (n + 1)) ((s2.content.drop i).take (n + 1)) := by
  induction n generalizing i with
  | zero =>
    rw [strncmpFrom, lexSign_take_drop h1 h2, List.take_zero, List.take_zero]
    by_cases heq : s1.bytes i = s2.bytes i
    · rw [if_pos heq, if_pos heq, if_pos (Or.inl rfl)]
      split_ifs <;> rfl
    · rw [if_neg heq, if_neg heq, byteOrder_of_ne heq]
  | succ n ih =>
    rw [strncmpFrom, lexSign_take_drop h1 h2]
    by_cases heq : s1.bytes i = s2.bytes i
    · rw [if_pos heq, if_pos heq]
      by_cases h0 : s1.bytes i = 0
      · rw [if_pos h0, if_pos (Or.inr h0)]
      · rw [if_neg h0, if_neg (not_or.2 ⟨Nat.succ_ne_zero n, h0⟩),
          ih (i + 1) (succ_le_strlen h1 h0) (succ_le_strlen h2 (heq ▸ h0))]
    · rw [if_neg heq, if_neg heq, byteOrder_of_ne heq]

/-- `strcmp` is the lexicographic order of the contents. -/
theorem strcmp_eq_lexSign (s1 s2 : CString) : strcmp s1 s2 = lexSign s1.content s2.content := by
  have hend : strlen s1 ≤ 0 + s1.bound := (strlen_le_bound s1).trans_eq (Nat.zero_add _).symm
  exact strcmpFrom_eq_lexSign s1.bound 0 (Nat.zero_le _) (Nat.zero_le _) hend

theorem content_take (s : CString) (n : ℕ) : (s.take n).content = s.content.take n :=
  content_eq_of_bytes (fun _ _ => rfl) fun _ hc => ne_zero_of_mem_content (List.mem_of_mem_take hc)

/-- `strncmp` is `strcmp` of the strings cut after `n` bytes. -/
theorem strncmp_eq_strcmp_take (s1 s2 : CString) (n : ℕ) :
    strncmp s1.bytes s2.bytes n = strcmp (s1.take n) (s2.take n) := by
  rw [strcmp_eq_lexSign, content_take, content_take]
  cases n with
  | zero => rfl
  | succ n =>
    have hn : ((n + 1 : ℕ) : ℤ) ≠ 0 := by omega
    rw [strncmp, if_neg hn, Int.toNat_natCast]
    exact strncmpFrom_eq_lexSign n 0 (Nat.zero_le _) (Nat.zero_le _)

/-! ## Reads -/

/-- Both strings are read at the same places. -/
theorem strcmpReads_comm (s1 s2 : Bytes) (n i : ℕ) :
    strcmpReads s1 s2 n i = strcmpReads s2 s1 n i := by
  induction n generalizing i with
  | zero => rfl
  | succ n ih =>
    rw [strcmpReads, strcmpReads, ih (i + 1)]
    by_cases heq : s1 i = s2 i
    · rw [if_pos heq, if_pos heq.symm, heq]
    · rw [if_neg heq, if_neg (Ne.symm heq)]

theorem strncmpReads_comm (s1 s2 : Bytes) (n i : ℕ) :
    strncmpReads s1 s2 n i = strncmpReads s2 s1 n i := by
  induction n generalizing i with
  | zero => rfl
  | succ n ih =>
    rw [strncmpReads, strncmpReads, ih (i + 1)]
    by_cases heq : s1 i = s2 i
    · rw [if_pos heq, if_pos heq.symm, heq]
    · rw [if_neg heq, if_neg (Ne.symm heq)]

/-- Nothing is read behind the terminator of the first string. -/
theorem le_of_mem_strcmpReads {s1 s2 : Bytes} {e : ℕ} (n i : ℕ) (hi : i ≤ e) (hend : s1 e = 0)
    {j : ℕ} (hj : j ∈ strcmpReads s1 s2 n i) : j ≤ e := by
  induction n generalizing i with
  | zero => exact (List.mem_singleton.1 hj).trans_le hi
  | succ n ih =>
    rw [strcmpReads] at hj
    rcases List.mem_cons.1 hj with rfl | hj
    · exact hi
    · split_ifs at hj with heq h0
      · exact absurd hj List.not_mem_nil
      · have hne : i ≠ e := fun h => h0 (h ▸ hend)
        exact ih (i + 1) (by omega) hj
      · exact (List.mem_singleton.1 hj).trans_le hi

/-- `strcmp` is the sign of the lexicographic order of the contents, as lists of unsigned bytes.
`strncmp` is `strcmp` on the strings cut to `n` bytes. No byte is read behind a terminator, nor
by `strncmp` behind the first `n`. -/
theorem strcmp_strncmp_order (s1 s2 : CString) :
    ((strcmp s1 s2 = -1 ↔ s1.content < s2.content) ∧
        (strcmp s1 s2 = 0 ↔ s1.content = s2.content) ∧
        (strcmp s1 s2 = 1 ↔ s2.content < s1.content) ∧
        ∀ j ∈ strcmpReads s1.bytes s2.bytes s1.bound 0, j ≤ strlen s1 ∧ j ≤ strlen s2) ∧
      ∀ n : ℕ, strncmp s1.bytes s2.bytes n = strcmp (s1.take n) (s2.take n) ∧
        ∀ j ∈ strncmpCallReads s1.bytes s2.bytes n, j ≤ strlen s1 ∧ j ≤ strlen s2 ∧ j < n := by
  have h1 := s1.endsAt_strlen.2.1
  have h2 := s2.endsAt_strlen.2.1
  refine ⟨?_, fun n => ⟨strncmp_eq_strcmp_take s1 s2 n, fun j hj => ?_⟩⟩
  · rw [strcmp_eq_lexSign]
    refine ⟨lexSign_eq_neg_one_iff, lexSign_eq_zero_iff, lexSign_eq_one_iff, fun j hj => ?_⟩
    exact ⟨le_of_mem_strcmpReads _ 0 (Nat.zero_le _) h1 hj,
      le_of_mem_strcmpReads _ 0 (Nat.zero_le _) h2 (strcmpReads_comm _ _ _ _ ▸ hj)⟩
  · cases n with
    | zero => exact absurd hj List.not_mem_nil
    | succ n =>
      have hn : ((n + 1 : ℕ) : ℤ) ≠ 0 := by omega
      rw [strncmpCallReads, if_neg hn, Int.toNat_natCast] at hj
      have hfirst := le_of_mem_strncmpReads n 0 (Nat.zero_le _) h1 hj
      rw [strncmpReads_comm] at hj
      have hsecond := le_of_mem_strncmpReads n 0 (Nat.zero_le _) h2 hj
      exact ⟨hfirst.1, hsecond.1, by omega⟩

end Order

end Scorch
