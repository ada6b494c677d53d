import Mathlib.Order.Bounds.Basic
import Scorch.Strings

/-!
# Searching a string

`strncmp` and `strstr` of `string.c`, with the bytes they read. A round of `strstr` looks for
the first character of `s2` with `strchr`, compares from there, and goes on behind the place
when they differ. `FirstFrom` says what a search from a place on has found, and a round keeps
it (`firstFrom_strstrFrom`).

A comparison that fails at a place excludes all places up to the next first character, which is
why the search may go on there (`FirstFrom.of_later`).
-/

open ByteMemory

namespace Scorch

/-! ## Functions -/

/-- What `strncmp` returns for the bytes it stopped at. -/
def byteOrder (uc1 uc2 : Byte) : ℤ :=
  if uc1 < uc2 then -1 else if uc2 < uc1 then 1 else 0

/-- The loop of `strncmp` from the `i`-th byte on, with `n` left to compare. -/
def strncmpFrom (s1 s2 : Bytes) : ℕ → ℕ → ℤ
  | 0, i => byteOrder (s1 i) (s2 i)
  | n + 1, i =>
    if s1 i = s2 i then if n = 0 ∨ s1 i = 0 then 0 else strncmpFrom s1 s2 n (i + 1)
    else byteOrder (s1 i) (s2 i)

/-- `strncmp (s1, s2, n)`, which compares one byte when `n` is negative. -/
def strncmp (s1 s2 : Bytes) (n : ℤ) : ℤ :=
  if n = 0 then 0 else strncmpFrom s1 s2 n.toNat 0

/-- The bytes of either string that the loop of `strncmp` reads. -/
def strncmpReads (s1 s2 : Bytes) : ℕ → ℕ → List ℕ
  | 0, i => [i]
  | n + 1, i => i ::
    if s1 i = s2 i then if n = 0 ∨ s1 i = 0 then [] else strncmpReads s1 s2 n (i + 1)
    else [i]

/-- The bytes that `strlen` reads. -/
def strlenReads (s : Bytes) : ℕ → ℕ → List ℕ
  | 0, i => [i]
  | n + 1, i => i :: if s i ≠ 0 then strlenReads s n (i + 1) else []

/-- What a call of `strstr` does. -/
structure StrstrRun where
  /-- The place in `s1`, or null. -/
  result : Option ℕ
  /-- The bytes of `s1` that are read. -/
  reads1 : List ℕ
  /-- The bytes of `s2` that are read. -/
  reads2 : List ℕ

/-- The search behind more reads. -/
def StrstrRun.behind (reads1 reads2 : List ℕ) (run : StrstrRun) : StrstrRun :=
  ⟨run.result, reads1 ++ run.reads1, reads2 ++ run.reads2⟩

/-- The loop of `strstr` with `s1` at its `i`-th byte, for `n` rounds at most. -/
def strstrFrom (s1 s2 : CString) (s2len : ℕ) : ℕ → ℕ → StrstrRun
  | 0, _ => ⟨none, [], []⟩
  | n + 1, i =>
    let scanned := strchrReads s1.bytes (s2.bytes 0) (s1.bound + 1 - i) i
    match strchrFrom s1.bytes (s2.bytes 0) (s1.bound + 1 - i) i with
    | some (some k) =>
      let compared := strncmpReads (fun j => s1.bytes (k + j)) s2.bytes s2len 0
      .behind (scanned ++ compared.map (k + ·)) (0 :: compared)
        (if strncmp (fun j => s1.bytes (k + j)) s2.bytes s2len = 0 then ⟨some k, [], []⟩
        else strstrFrom s1 s2 s2len n (k + 1))
    | _ => ⟨none, scanned, [0]⟩

/-- `strstr (s1, s2)`. -/
def strstr (s1 s2 : CString) : StrstrRun :=
  if s2.bytes 0 = 0 then ⟨some 0, [], [0]⟩
  else .behind [] (0 :: strlenReads s2.bytes s2.bound 0)
    (strstrFrom s1 s2 (strlen s2) (s1.bound + 1) 0)

/-! ## Where a string occurs -/

/-- The content of `s2` stands in `s1` from `k` on. -/
def OccursAt (s1 s2 : CString) (k : ℕ) : Prop :=
  k ≤ strlen s1 ∧ s2.content <+: s1.content.drop k

/-- The first place from `i` to `e` with a property, if there is one. -/
def FirstFrom (q : ℕ → Prop) (i e : ℕ) : Option ℕ → Prop
  | none => ∀ k, i ≤ k → k ≤ e → ¬q k
  | some k => (i ≤ k ∧ k ≤ e ∧ q k) ∧ ∀ j, i ≤ j → j < k → ¬q j

/-- Where nothing comes before, the search may start earlier. -/
theorem FirstFrom.of_later {q : ℕ → Prop} {i k e : ℕ} {r : Option ℕ} (h : FirstFrom q k e r)
    (hik : i ≤ k) (hbefore : ∀ j, i ≤ j → j < k → ¬q j) : FirstFrom q i e r := by
  have hall : ∀ j, i ≤ j → (k ≤ j → ¬q j) → ¬q j := fun j hij hlate =>
    (Nat.lt_or_ge j k).elim (hbefore j hij) hlate
  cases r with
  | none => exact fun j hij hje => hall j hij fun hkj => h j hkj hje
  | some l =>
    exact ⟨⟨hik.trans h.1.1, h.1.2⟩, fun j hij hjl => hall j hij fun hkj => h.2 j hkj hjl⟩

/-- A search of all places has the least one for its result. -/
theorem FirstFrom.eq_some_iff {q : ℕ → Prop} {e k : ℕ} {r : Option ℕ} (h : FirstFrom q 0 e r)
    (hle : ∀ j, q j → j ≤ e) : r = some k ↔ IsLeast {i | q i} k := by
  cases r with
  | none =>
    exact iff_of_false (Option.some_ne_none k).symm fun hk =>
      h k (Nat.zero_le k) (hle k hk.1) hk.1
  | some l =>
    have hl : IsLeast {i | q i} l :=
      ⟨h.1.2.2, fun j hj => Nat.not_lt.1 fun hjl => h.2 j (Nat.zero_le j) hjl hj⟩
    rw [Option.some_inj]
    exact ⟨fun heq => heq ▸ hl, fun hk => hl.unique hk⟩

/-- Nothing is found when there is nothing to find. -/
theorem FirstFrom.eq_none_iff {q : ℕ → Prop} {e : ℕ} {r : Option ℕ} (h : FirstFrom q 0 e r)
    (hle : ∀ j, q j → j ≤ e) : r = none ↔ ¬∃ k, q k := by
  cases r with
  | none => exact iff_of_true rfl fun ⟨k, hk⟩ => h k (Nat.zero_le k) (hle k hk) hk
  | some l => exact iff_of_false (Option.some_ne_none l) (not_not.2 ⟨l, h.1.2.2⟩)

section Search

variable {s1 s2 : CString}

/-- The content is as long as `strlen` says. -/
theorem length_content (s : CString) : s.content.length = strlen s :=
  (CString.strlen_of_content rfl).symm

/-- The bytes of the content are those of the string. -/
theorem getElem_content (s : CString) {i : ℕ} (hi : i < s.content.length) :
    s.content[i] = s.bytes i := by
  simp [CString.content]

/-- The string occurs where its bytes stand. -/
theorem occursAt_iff {k : ℕ} (hk : k ≤ strlen s1) :
    OccursAt s1 s2 k ↔ ∀ j < strlen s2, s1.bytes (k + j) = s2.bytes j := by
  rw [OccursAt, and_iff_right hk, List.prefix_iff_getElem]
  constructor
  · rintro ⟨hlen, hget⟩ j hj
    have hj' : j < s2.content.length := by rwa [length_content]
    have heq := hget j hj'
    rw [List.getElem_drop, getElem_content, getElem_content] at heq
    exact heq.symm
  · intro h
    -- a terminator of `s1` among the bytes would be one of `s2`
    have hfit : k + strlen s2 ≤ strlen s1 := by
      by_contra hlt
      have heq := h (strlen s1 - k) (by omega)
      rw [Nat.add_sub_cancel' hk, s1.endsAt_strlen.2.1] at heq
      exact s2.endsAt_strlen.2.2 _ (Nat.zero_le _) (by omega) heq.symm
    refine ⟨by rw [List.length_drop, length_content, length_content]; omega, fun j hj => ?_⟩
    rw [List.getElem_drop, getElem_content, getElem_content]
    exact (h j (by rwa [length_content] at hj)).symm

/-! ## Comparisons -/

/-- Different bytes never compare as equal. -/
theorem byteOrder_ne_zero {a b : Byte} (h : a ≠ b) : byteOrder a b ≠ 0 := by
  unfold byteOrder
  split_ifs with hab hba
  · decide
  · decide
  · exact absurd (BitVec.le_antisymm (BitVec.not_lt.1 hba) (BitVec.not_lt.1 hab)) h

/-- Before a terminator of `s2` the loop compares all bytes. -/
theorem strncmpFrom_eq_zero_iff {s1 s2 : Bytes} (n i : ℕ)
    (h : ∀ j, i ≤ j → j < i + (n + 1) → s2 j ≠ 0) :
    strncmpFrom s1 s2 (n + 1) i = 0 ↔ ∀ j, i ≤ j → j < i + (n + 1) → s1 j = s2 j := by
  induction n generalizing i with
  | zero =>
    rw [strncmpFrom]
    by_cases heq : s1 i = s2 i
    · rw [if_pos heq, if_pos (Or.inl rfl)]
      exact iff_of_true rfl fun j hij hj => (show i = j by omega) ▸ heq
    · rw [if_neg heq]
      exact iff_of_false (byteOrder_ne_zero heq) fun hall => heq (hall i le_rfl (by omega))
  | succ n ih =>
    rw [strncmpFrom]
    by_cases heq : s1 i = s2 i
    · have h0 : ¬(n + 1 = 0 ∨ s1 i = 0) :=
        not_or.2 ⟨Nat.succ_ne_zero n, heq ▸ h i le_rfl (by omega)⟩
      rw [if_pos heq, if_neg h0, ih (i + 1) fun j hij hj => h j (by omega) (by omega)]
      refine ⟨fun hall j hij hj => ?_, fun hall j hij hj => hall j (by omega) (by omega)⟩
      rcases Nat.eq_or_lt_of_le hij with rfl | hlt
      · exact heq
      · exact hall j hlt (by omega)
    · rw [if_neg heq]
      exact iff_of_false (byteOrder_ne_zero heq) fun hall => heq (hall i le_rfl (by omega))

/-- A comparison reads up to the terminator of `s1` at most, and the bytes it compares. -/
theorem le_of_mem_strncmpReads {s1 s2 : Bytes} {e : ℕ} (n i : ℕ) (hi : i ≤ e) (hend : s1 e = 0)
    {j : ℕ} (hj : j ∈ strncmpReads s1 s2 (n + 1) i) : j ≤ e ∧ j < i + (n + 1) := by
  induction n generalizing i with
  | zero =>
    have hji : j = i := by
      by_cases heq : s1 i = s2 i <;> simpa [strncmpReads, heq] using hj
    omega
  | succ n ih =>
    rw [strncmpReads] at hj
    rcases List.mem_cons.1 hj with rfl | hj
    · omega
    · split_ifs at hj with heq hstop
      · simp at hj
      · have hne : i ≠ e := fun h => hstop (Or.inr (h ▸ hend))
        have hlater := ih (i + 1) (by omega) hj
        omega
      · have hji : j = i := by simpa using hj
        omega

/-- `strlen` reads nothing behind the terminator. -/
theorem le_of_mem_strlenReads {s : Bytes} {e : ℕ} (n i : ℕ) (hi : i ≤ e) (hend : s e = 0)
    {j : ℕ} (hj : j ∈ strlenReads s n i) : j ≤ e := by
  induction n generalizing i with
  | zero =>
    have hji : j = i := by simpa [strlenReads] using hj
    omega
  | succ n ih =>
    rw [strlenReads] at hj
    rcases List.mem_cons.1 hj with rfl | hj
    · exact hi
    · split_ifs at hj with h0
      · have hne : i ≠ e := fun h => h0 (h ▸ hend)
        exact ih (i + 1) (by omega) hj
      · simp at hj

/-! ## The search -/

/-- The search has found the first occurrence from `i` on, and read nothing behind the ends. -/
structure StrstrRun.Finds (s1 s2 : CString) (i : ℕ) (run : StrstrRun) : Prop where
  result : FirstFrom (OccursAt s1 s2) i (strlen s1) run.result
  reads1 : ∀ j ∈ run.reads1, j ≤ strlen s1
  reads2 : ∀ j ∈ run.reads2, j ≤ strlen s2

/-- A string that does not start with the terminator is not empty. -/
theorem strlen_pos {s : CString} (h : s.bytes 0 ≠ 0) : 0 < strlen s :=
  Nat.pos_of_ne_zero fun h0 => h (h0 ▸ s.endsAt_strlen.2.1)

/-- The comparison of a round is with an occurrence. -/
theorem strncmp_eq_zero_iff {k : ℕ} (hs2 : s2.bytes 0 ≠ 0) (hk : k ≤ strlen s1) :
    strncmp (fun j => s1.bytes (k + j)) s2.bytes (strlen s2) = 0 ↔ OccursAt s1 s2 k := by
  obtain ⟨m, hm⟩ := Nat.exists_eq_succ_of_ne_zero (strlen_pos hs2).ne'
  have hinner : ∀ j, 0 ≤ j → j < 0 + (m + 1) → s2.bytes j ≠ 0 := fun j _ hj =>
    s2.endsAt_strlen.2.2 j (Nat.zero_le j) (by omega)
  have hlen : ((strlen s2 : ℕ) : ℤ) ≠ 0 := by omega
  rw [strncmp, if_neg hlen, Int.toNat_natCast, hm, Nat.succ_eq_add_one,
    strncmpFrom_eq_zero_iff m 0 hinner, occursAt_iff hk, hm]
  exact ⟨fun h j hj => h j (Nat.zero_le j) (by omega), fun h j _ hj => h j (by omega)⟩

/-- A comparison at a place within the first string stays within both. -/
theorem strncmpReads_le {k j : ℕ} (hs2 : s2.bytes 0 ≠ 0) (hk : k ≤ strlen s1)
    (hj : j ∈ strncmpReads (fun j => s1.bytes (k + j)) s2.bytes (strlen s2) 0) :
    k + j ≤ strlen s1 ∧ j ≤ strlen s2 := by
  obtain ⟨m, hm⟩ := Nat.exists_eq_succ_of_ne_zero (strlen_pos hs2).ne'
  have hend : s1.bytes (k + (strlen s1 - k)) = 0 := by
    rw [Nat.add_sub_cancel' hk, s1.endsAt_strlen.2.1]
  rw [hm] at hj
  have hle := le_of_mem_strncmpReads m 0 (Nat.zero_le (strlen s1 - k)) hend hj
  omega

/-- A place where nothing occurs is passed over. -/
theorem StrstrRun.Finds.behind {i k : ℕ} {run : StrstrRun} {reads1 reads2 : List ℕ}
    (h : run.Finds s1 s2 k) (hik : i ≤ k) (hbefore : ∀ j, i ≤ j → j < k → ¬OccursAt s1 s2 j)
    (h1 : ∀ j ∈ reads1, j ≤ strlen s1) (h2 : ∀ j ∈ reads2, j ≤ strlen s2) :
    (run.behind reads1 reads2).Finds s1 s2 i where
  result := h.result.of_later hik hbefore
  reads1 j hj := (List.mem_append.1 hj).elim (h1 j) (h.reads1 j)
  reads2 j hj := (List.mem_append.1 hj).elim (h2 j) (h.reads2 j)

/-- No occurrence starts with another character. -/
theorem not_occursAt_of_ne {j : ℕ} (hs2 : s2.bytes 0 ≠ 0) (hne : s1.bytes j ≠ s2.bytes 0) :
    ¬OccursAt s1 s2 j := fun h => hne ((occursAt_iff h.1).1 h 0 (strlen_pos hs2))

/-- The loop of `strstr` stops at the first occurrence from its place on, or at the end. -/
theorem finds_strstrFrom (hs2 : s2.bytes 0 ≠ 0) (n i : ℕ) (hi : i ≤ strlen s1)
    (hn : strlen s1 < i + n) : (strstrFrom s1 s2 (strlen s2) n i).Finds s1 s2 i := by
  induction n generalizing i with
  | zero => omega
  | succ n ih =>
    -- `strchr` stops at `k`, and nothing occurs before.
    obtain ⟨k, hik, hk, hbefore, hstop⟩ := exists_strchr_stop s1 (s2.bytes 0) hi
    have hbound := strlen_le_bound s1
    have hscan := strchrFrom_eq (s1.bound + 1 - i) i hik hbefore hstop
    have hscanned : ∀ j ∈ strchrReads s1.bytes (s2.bytes 0) (s1.bound + 1 - i) i,
        j ≤ strlen s1 := fun j hj => (le_of_mem_strchrReads _ i hik hstop hj).trans hk
    have hnone : ∀ j, i ≤ j → j < k → ¬OccursAt s1 s2 j := fun j hij hj =>
      not_occursAt_of_ne hs2 (hbefore j hij hj).1
    rw [if_pos (by omega)] at hscan
    -- It found the first character : the strings are compared from there.
    by_cases hfound : s1.bytes k = s2.bytes 0
    · rw [if_pos hfound] at hscan
      have hlt : k < strlen s1 :=
        hk.lt_of_ne fun heq => hs2 (hfound.symm.trans (heq ▸ s1.endsAt_strlen.2.1))
      have hcompared : ∀ j ∈ strncmpReads (fun j => s1.bytes (k + j)) s2.bytes (strlen s2) 0,
          k + j ≤ strlen s1 ∧ j ≤ strlen s2 := fun j hj => strncmpReads_le hs2 hk hj
      have hrun : (if strncmp (fun j => s1.bytes (k + j)) s2.bytes (strlen s2) = 0
          then (⟨some k, [], []⟩ : StrstrRun)
          else strstrFrom s1 s2 (strlen s2) n (k + 1)).Finds s1 s2 k := by
        split_ifs with hcmp
        · refine ⟨⟨⟨le_rfl, hk, (strncmp_eq_zero_iff hs2 hk).1 hcmp⟩, ?_⟩, ?_, ?_⟩
          · exact fun j hkj hjk => absurd hjk (Nat.not_lt.2 hkj)
          · exact fun j hj => absurd hj (List.not_mem_nil)
          · exact fun j hj => absurd hj (List.not_mem_nil)
        · have hlater := ih (k + 1) hlt (by omega)
          refine ⟨hlater.result.of_later (Nat.le_succ k) fun j hkj hj => ?_, hlater.reads1,
            hlater.reads2⟩
          rw [show j = k by omega]
          exact mt (strncmp_eq_zero_iff hs2 hk).2 hcmp
      rw [strstrFrom, hscan]
      refine hrun.behind hik hnone (fun j hj => ?_) (fun j hj => ?_)
      · rcases List.mem_append.1 hj with hj | hj
        · exact hscanned j hj
        · obtain ⟨l, hl, rfl⟩ := List.mem_map.1 hj
          exact (hcompared l hl).1
      · rcases List.mem_cons.1 hj with rfl | hj
        · exact Nat.zero_le _
        · exact (hcompared j hj).2
    · rw [if_neg hfound] at hscan
      -- It found the end of the string, where only the empty string occurs.
      have hend : k = strlen s1 := CString.EndsAt.unique (s := s1.bytes) (i := i)
        ⟨hik, hstop.resolve_left hfound, fun j hij hj => (hbefore j hij hj).2⟩
        ⟨hi, s1.endsAt_strlen.2.1, fun j hij hj => s1.endsAt_strlen.2.2 j (Nat.zero_le j) hj⟩
      rw [strstrFrom, hscan]
      refine ⟨fun j hij hj => ?_, hscanned, fun j hj => ?_⟩
      · rcases Nat.eq_or_lt_of_le hj with rfl | hlt
        · exact not_occursAt_of_ne hs2 (hend ▸ hfound)
        · exact hnone j hij (hend ▸ hlt)
      · rw [List.mem_singleton.1 hj]
        exact Nat.zero_le _

/-- `strstr` itself, which looks for the empty string at once. -/
theorem finds_strstr (s1 s2 : CString) : (strstr s1 s2).Finds s1 s2 0 := by
  unfold strstr
  split_ifs with h0
  · have hempty : s2.content = [] := by
      rw [← List.length_eq_zero_iff, length_content]
      exact CString.strlen_eq_of_ne_zero h0 fun k hk => absurd hk (Nat.not_lt_zero k)
    refine ⟨⟨⟨le_rfl, Nat.zero_le _, Nat.zero_le _, hempty ▸ List.nil_prefix⟩, ?_⟩, ?_, ?_⟩
    · exact fun j _ hj => absurd hj (Nat.not_lt_zero j)
    · exact fun j hj => absurd hj (List.not_mem_nil)
    · intro j hj
      rw [List.mem_singleton.1 hj]
      exact Nat.zero_le _
  · refine (finds_strstrFrom h0 (s1.bound + 1) 0 (Nat.zero_le _) ?_).behind le_rfl ?_ ?_ ?_
    · have hbound := strlen_le_bound s1
      omega
    · exact fun j _ hj => absurd hj (Nat.not_lt_zero j)
    · exact fun j hj => absurd hj (List.not_mem_nil)
    · intro j hj
      rcases List.mem_cons.1 hj with rfl | hj
      · exact Nat.zero_le _
      · exact le_of_mem_strlenReads s2.bound 0 (Nat.zero_le _) s2.endsAt_strlen.2.1 hj

/-- A string that occurs somewhere is a part of the other. -/
theorem isInfix_iff (s1 s2 : CString) : s2.content <:+: s1.content ↔ ∃ k, OccursAt s1 s2 k := by
  constructor
  · rintro ⟨pre, post, h⟩
    have hlen := congrArg List.length h
    rw [List.length_append, List.length_append, length_content s1] at hlen
    refine ⟨pre.length, by omega, ?_⟩
    rw [← h, List.append_assoc, List.drop_left]
    exact List.prefix_append _ _
  · rintro ⟨k, -, h⟩
    exact h.isInfix.trans (List.drop_suffix k _).isInfix

/-- `strstr` returns the first place at which `s2` occurs, and null when it does not occur.
It reads no byte behind a terminator. -/
theorem strstr_correct (s1 s2 : CString) :
    (∀ k, (strstr s1 s2).result = some k ↔ IsLeast {i | OccursAt s1 s2 i} k) ∧
      ((strstr s1 s2).result = none ↔ ¬s2.content <:+: s1.content) ∧
      (∀ j ∈ (strstr s1 s2).reads1, j ≤ strlen s1) ∧
      ∀ j ∈ (strstr s1 s2).reads2, j ≤ strlen s2 := by
  have hrun := finds_strstr s1 s2
  have hle : ∀ k, OccursAt s1 s2 k → k ≤ strlen s1 := fun k hk => hk.1
  refine ⟨fun k => hrun.result.eq_some_iff hle, ?_, hrun.reads1, hrun.reads2⟩
  rw [isInfix_iff]
  exact hrun.result.eq_none_iff hle

end Search

end Scorch
