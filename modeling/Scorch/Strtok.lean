import Scorch.Strings
import Scorch.Lib.MaximalRuns

/-!
# Cutting a string into tokens

`strtok` of `string.c` with the pointer it keeps between its calls, on the buffer of the
string it was first called with. A call skips delimiters from the pointer on, then the
characters up to the next delimiter, and puts a zero in the place of that one.

`Pending` is the invariant of the calls : which tokens are still to come. A call returns the
first of them, if there is one, and puts a zero behind it (`Pending.step`), so that the calls
return the maximal runs of characters that are no delimiters (`strtok_tokens`).
-/

open ByteMemory MaximalRuns

namespace Scorch

/-! ## Functions -/

/-- The loop of `strspn`, with `n` bytes left before the terminator. -/
def strspnFrom (s1 : Bytes) (s2 : CString) : ℕ → ℕ → ℕ
  | 0, _ => 0
  | n + 1, i =>
    if s1 i ≠ 0 ∧ (strchr s2 (s1 i)).isSome then strspnFrom s1 s2 n (i + 1) + 1 else 0

/-- `strspn (s1 + i, s2)`. -/
def strspn (s1 : CString) (i : ℕ) (s2 : CString) : ℕ :=
  strspnFrom s1.bytes s2 (s1.bound - i) i

/-- The loop of `strcspn`, with `n` bytes left before the terminator. -/
def strcspnFrom (s1 : Bytes) (s2 : CString) : ℕ → ℕ → ℕ
  | 0, _ => 0
  | n + 1, i =>
    if s1 i ≠ 0 then
      if (strchr s2 (s1 i)).isSome then 0 else strcspnFrom s1 s2 n (i + 1) + 1
    else 0

/-- `strcspn (s1 + i, s2)`. -/
def strcspn (s1 : CString) (i : ℕ) (s2 : CString) : ℕ :=
  strcspnFrom s1.bytes s2 (s1.bound - i) i

/-- The string with a zero at `k`. -/
def CString.cut (s : CString) (k : ℕ) : CString where
  bytes := Function.update s.bytes k 0
  bound := s.bound
  terminated := by
    rw [Function.update_apply]
    split_ifs
    · rfl
    · exact s.terminated

/-- The buffer of a string, and the place in it that `strtok` keeps in `p`. -/
structure Tokens where
  text : CString
  p : Option ℕ

/-- `strtok (str, delim)`, where `str` is a place in the buffer or null. -/
def strtok (str : Option ℕ) (delim : CString) (t : Tokens) : Option ℕ × Tokens :=
  match str.or t.p with
  | none => (none, t)
  | some p =>
    let str := p + strspn t.text p delim
    let p := str + strcspn t.text str delim
    if p = str then (none, { t with p := none })
    else if t.text.bytes p ≠ 0 then (some str, ⟨t.text.cut p, some (p + 1)⟩)
    else (some str, { t with p := none })

/-- The `k`-th call on a string, counted from zero : the first is given the string, the
others a null pointer. What `strtok` had kept before is arbitrary. -/
def strtokCalls (s delim : CString) (p : Option ℕ) : ℕ → Option ℕ × Tokens
  | 0 => strtok (some 0) delim ⟨s, p⟩
  | k + 1 => strtok none delim (strtokCalls s delim p k).2

/-- The maximal runs of characters that are no delimiters, each with its first place and the
first place behind it. -/
def tokens (s delim : CString) : List (ℕ × ℕ) :=
  runsFrom (fun k => s.bytes k ∉ delim.content) (strlen s) 0

/-! ## The two scans -/

section Scans

variable {s delim text : CString} {i : ℕ}

/-- From `i` on the buffer still holds the string, up to its end. -/
structure Rest (s text : CString) (i : ℕ) : Prop where
  le : i ≤ strlen s
  bound : strlen s ≤ text.bound
  same : ∀ j, i ≤ j → text.bytes j = s.bytes j

/-- What is left untouched from a place on is so from a later one on. -/
theorem Rest.mono {j : ℕ} (h : Rest s text i) (hij : i ≤ j) (hj : j ≤ strlen s) : Rest s text j :=
  ⟨hj, h.bound, fun k hk => h.same k (hij.trans hk)⟩

/-- `strspn` goes to the first byte that is no delimiter. -/
theorem strspnFrom_eq (s1 : Bytes) (s2 : CString) (n i : ℕ) :
    i + strspnFrom s1 s2 n i = first (fun k => s1 k = 0 ∨ s1 k ∉ s2.content) n i := by
  induction n generalizing i with
  | zero => rfl
  | succ n ih =>
    rw [strspnFrom, first, ← ih (i + 1)]
    by_cases h0 : s1 i = 0
    · rw [if_neg (fun h => h.1 h0), if_pos (Or.inl h0), Nat.add_zero]
    · have hfound := strchr_isSome_iff (s := s2) h0
      by_cases hmem : s1 i ∈ s2.content
      · rw [if_pos ⟨h0, hfound.2 hmem⟩, if_neg (not_or.2 ⟨h0, not_not.2 hmem⟩)]
        omega
      · rw [if_neg (fun h => hmem (hfound.1 h.2)), if_pos (Or.inr hmem), Nat.add_zero]

/-- `strcspn` goes to the first delimiter, or to the end. -/
theorem strcspnFrom_eq (s1 : Bytes) (s2 : CString) (n i : ℕ) :
    i + strcspnFrom s1 s2 n i = first (fun k => s1 k = 0 ∨ s1 k ∈ s2.content) n i := by
  induction n generalizing i with
  | zero => rfl
  | succ n ih =>
    rw [strcspnFrom, first, ← ih (i + 1)]
    by_cases h0 : s1 i = 0
    · rw [if_neg (not_not.2 h0), if_pos (Or.inl h0), Nat.add_zero]
    · have hfound := strchr_isSome_iff (s := s2) h0
      rw [if_pos h0]
      by_cases hmem : s1 i ∈ s2.content
      · rw [if_pos (hfound.2 hmem), if_pos (Or.inr hmem), Nat.add_zero]
      · rw [if_neg (mt hfound.1 hmem), if_neg (not_or.2 ⟨h0, hmem⟩)]
        omega

/-- A search of the buffer that stops at zeros stops where one of the string does. -/
theorem Rest.first_eq (h : Rest s text i) (q : Byte → Prop) [DecidablePred q] :
    first (fun k => text.bytes k = 0 ∨ q (text.bytes k)) (text.bound - i) i =
      first (fun k => q (s.bytes k)) (strlen s - i) i := by
  have hle := h.le
  have hbound := h.bound
  have hlow := le_first (q := fun k => q (s.bytes k)) (strlen s - i) i
  have hhigh := first_le (q := fun k => q (s.bytes k)) (strlen s - i) i
  refine MaximalRuns.first_eq hlow (fun j hij hj => ?_) ?_
  · rw [h.same j hij]
    exact not_or.2 ⟨s.endsAt_strlen.2.2 j (Nat.zero_le j) (by omega), not_of_lt_first hij hj⟩
  · rw [h.same _ hlow, Nat.add_sub_cancel' (hle.trans hbound)]
    rcases Nat.eq_or_lt_of_le hhigh with heq | hlt
    · rw [heq, Nat.add_sub_cancel' hle]
      rcases Nat.eq_or_lt_of_le hbound with hb | hb
      · exact Or.inl hb
      · exact Or.inr ⟨hb, Or.inl s.endsAt_strlen.2.1⟩
    · exact Or.inr ⟨by omega, Or.inr (first_of_lt hlt)⟩

/-- `strspn` goes to the first character that is no delimiter. -/
theorem Rest.strspn_eq (h : Rest s text i) :
    i + strspn text i delim = first (fun k => s.bytes k ∉ delim.content) (strlen s - i) i := by
  rw [strspn, strspnFrom_eq]
  exact h.first_eq (· ∉ delim.content)

/-- `strcspn` goes to the first delimiter. -/
theorem Rest.strcspn_eq (h : Rest s text i) :
    i + strcspn text i delim = first (fun k => s.bytes k ∈ delim.content) (strlen s - i) i := by
  rw [strcspn, strcspnFrom_eq]
  exact h.first_eq (· ∈ delim.content)

end Scans

/-! ## One call -/

section Call

variable {s delim : CString} {t : Tokens}

/-- The tokens that are still to come. -/
inductive Pending (s delim : CString) (t : Tokens) : List (ℕ × ℕ) → Prop where
  | done (hp : t.p = none) : Pending s delim t []
  | rest {i : ℕ} (hp : t.p = some i) (hrest : Rest s t.text i)
      (hbefore : i = 0 ∨ s.bytes (i - 1) ∈ delim.content) :
      Pending s delim t (runsFrom (fun k => s.bytes k ∉ delim.content) (strlen s) i)

/-- Before the first call all tokens are pending. -/
theorem pending_start (s delim : CString) : Pending s delim ⟨s, some 0⟩ (tokens s delim) :=
  .rest rfl ⟨Nat.zero_le _, strlen_le_bound s, fun _ _ => rfl⟩ (Or.inl rfl)

/-- A call with a pointer, by the two places it goes to. -/
theorem strtok_of_scans {i a b : ℕ} (hp : t.p = some i) (ha : i + strspn t.text i delim = a)
    (hb : a + strcspn t.text a delim = b) :
    strtok none delim t =
      if b = a then (none, { t with p := none })
      else if t.text.bytes b ≠ 0 then (some a, ⟨t.text.cut b, some (b + 1)⟩)
      else (some a, { t with p := none }) := by
  rw [strtok, hp]
  simp only [Option.none_or, ha, hb]

/-- The two scans from the rest of a string go over a maximal run, or there is none left. -/
theorem isRun_of_scans {i a b : ℕ}
    (ha : first (fun k => s.bytes k ∉ delim.content) (strlen s - i) i = a)
    (hb : first (fun k => s.bytes k ∈ delim.content) (strlen s - a) a = b)
    (hbefore : i = 0 ∨ s.bytes (i - 1) ∈ delim.content) (hlt : a < strlen s) :
    IsRun (fun k => s.bytes k ∉ delim.content) (strlen s) a b := by
  have hia : i ≤ a := ha ▸ le_first _ i
  have hab : a ≤ b := hb ▸ le_first _ a
  have hble : b ≤ a + (strlen s - a) := hb ▸ first_le _ a
  have hnot : s.bytes a ∉ delim.content := of_first_eq ha (by omega)
  have hstop : b < strlen s → s.bytes b ∈ delim.content := fun h => of_first_eq hb (by omega)
  refine ⟨hab.lt_of_ne fun heq => hnot (heq ▸ hstop (heq ▸ hlt)), by omega,
    fun k hak hkb => not_of_lt_first hak (hb ▸ hkb), ?_, ?_⟩
  · rcases Nat.eq_or_lt_of_le hia with rfl | hlt
    · exact hbefore.imp_right not_not.2
    · exact Or.inr (not_of_lt_first (Nat.le_sub_one_of_lt hlt) (by rw [ha]; omega))
  · rcases Nat.lt_or_ge b (strlen s) with h | h
    · exact Or.inr (not_not.2 (hstop h))
    · exact Or.inl (by omega)

/-- A call returns the next token and puts a zero behind it. -/
theorem Pending.step {rs : List (ℕ × ℕ)} (h : Pending s delim t rs) :
    (strtok none delim t).1 = rs.head?.map Prod.fst ∧
      (∀ j, (strtok none delim t).2.text.bytes j =
        if rs.head?.map Prod.snd = some j then 0 else t.text.bytes j) ∧
      Pending s delim (strtok none delim t).2 rs.tail := by
  cases h with
  | done hp =>
    have hcall : strtok none delim t = (none, t) := by rw [strtok, hp]; rfl
    rw [hcall]
    exact ⟨rfl, fun j => by simp, .done hp⟩
  | @rest i hp hrest hbefore =>
    obtain ⟨a, ha⟩ : ∃ a, first (fun k => s.bytes k ∉ delim.content) (strlen s - i) i = a :=
      ⟨_, rfl⟩
    obtain ⟨b, hb⟩ : ∃ b, first (fun k => s.bytes k ∈ delim.content) (strlen s - a) a = b :=
      ⟨_, rfl⟩
    have hi := hrest.le
    have hia : i ≤ a := ha ▸ le_first _ i
    have hale : a ≤ i + (strlen s - i) := ha ▸ first_le _ i
    have hskip : ∀ k, i ≤ k → k < a → ¬s.bytes k ∉ delim.content :=
      fun k hk hka => not_of_lt_first hk (ha ▸ hka)
    have hcall := strtok_of_scans hp (hrest.strspn_eq.trans ha)
      ((hrest.mono hia (by omega)).strcspn_eq.trans hb)
    rcases Nat.eq_or_lt_of_le (show a ≤ strlen s by omega) with hend | hlt
    · have hba : b = a := by rw [← hb, hend, Nat.sub_self]; rfl
      rw [if_pos hba] at hcall
      rw [hcall, runsFrom_eq_nil fun k hk hkn => hskip k hk (by omega)]
      exact ⟨rfl, fun j => by simp, .done rfl⟩
    · have hrun := isRun_of_scans ha hb hbefore hlt
      have hsame := hrest.same b (hia.trans hrun.lt.le)
      rw [if_neg hrun.lt.ne'] at hcall
      rw [runsFrom_eq_cons hrun hia hskip]
      rcases Nat.eq_or_lt_of_le hrun.le with hlast | hmore
      -- the run goes up to the terminator, which ends it already
      · have hzero : t.text.bytes b = 0 := by rw [hsame, hlast, s.endsAt_strlen.2.1]
        rw [if_neg (not_not.2 hzero)] at hcall
        rw [hcall, runsFrom_eq_nil fun k hk hkn => absurd hkn (by omega)]
        refine ⟨rfl, fun j => ?_, .done rfl⟩
        by_cases hj : b = j
        · simp [← hj, hzero]
        · simp [hj]
      · have hne : t.text.bytes b ≠ 0 := by
          rw [hsame]
          exact s.endsAt_strlen.2.2 b (Nat.zero_le b) hmore
        rw [if_pos hne] at hcall
        rw [hcall]
        refine ⟨rfl, fun j => ?_, .rest rfl ⟨hmore, hrest.bound, fun j hj => ?_⟩ (Or.inr ?_)⟩
        · simp [CString.cut, Function.update_apply, eq_comm]
        · have hij : i ≤ j := by have := hrun.lt; omega
          exact (Function.update_of_ne (by omega) _ _).trans (hrest.same j hij)
        · exact not_not.1 (hrun.behind.resolve_left hmore.ne)

end Call

/-! ## All calls -/

section Calls

variable (s delim : CString) (p : Option ℕ)

/-- The buffer before the `k`-th call, with the string that the first one is given. -/
def beforeCall : ℕ → Tokens
  | 0 => ⟨s, some 0⟩
  | k + 1 => (strtok none delim (beforeCall k)).2

/-- A later call goes on where the one before it stopped. -/
theorem strtokCalls_eq (k : ℕ) :
    strtokCalls s delim p k = strtok none delim (beforeCall s delim k) := by
  cases k with
  | zero => rfl
  | succ k =>
    induction k with
    | zero => rfl
    | succ k ih => rw [strtokCalls, ih]; rfl

theorem pending_beforeCall (k : ℕ) :
    Pending s delim (beforeCall s delim k) ((tokens s delim).drop k) := by
  induction k with
  | zero => exact pending_start s delim
  | succ k ih =>
    rw [← List.tail_drop]
    exact ih.step.2.2

/-- The places that are terminated after one more token. -/
theorem mem_ends_succ_iff (k i : ℕ) : i ∈ ((tokens s delim).take (k + 1)).map Prod.snd ↔
    ((tokens s delim)[k]?).map Prod.snd = some i ∨ i ∈ ((tokens s delim).take k).map Prod.snd := by
  rw [List.take_add_one, List.map_append, List.mem_append, ← Option.toList_map, Option.mem_toList,
    or_comm]

/-- Only the ends of the tokens taken so far are terminated. -/
theorem bytes_beforeCall (k i : ℕ) : (beforeCall s delim k).text.bytes i =
    if i ∈ ((tokens s delim).take k).map Prod.snd then 0 else s.bytes i := by
  induction k with
  | zero => simp [beforeCall]
  | succ k ih =>
    rw [beforeCall, (pending_beforeCall s delim k).step.2.1, ih, List.head?_drop]
    have hmem := mem_ends_succ_iff s delim k i
    by_cases hi : ((tokens s delim)[k]?).map Prod.snd = some i
    · rw [if_pos hi, if_pos (hmem.2 (Or.inl hi))]
    · rw [if_neg hi]
      exact if_congr (hmem.trans (or_iff_right hi)).symm rfl rfl

theorem fst_strtokCalls (k : ℕ) :
    (strtokCalls s delim p k).1 = ((tokens s delim)[k]?).map Prod.fst := by
  rw [strtokCalls_eq, (pending_beforeCall s delim k).step.1, List.head?_drop]

/-- The tokens are the longest stretches without a delimiter. -/
theorem mem_tokens_iff (a b : ℕ) : (a, b) ∈ tokens s delim ↔
    IsRun (fun k => s.bytes k ∉ delim.content) (strlen s) a b :=
  (mem_runsFrom_iff 0).trans (and_iff_right (Nat.zero_le a))

/-- The characters of a token stay, and it ends where it has ended when it was returned. -/
theorem token_beforeCall {k : ℕ} {r : ℕ × ℕ} (hr : r ∈ (tokens s delim).take k) :
    CString.EndsAt (beforeCall s delim k).text.bytes r.1 r.2 ∧
      ∀ j, r.1 ≤ j → j < r.2 → (beforeCall s delim k).text.bytes j = s.bytes j := by
  have hrun := (mem_tokens_iff s delim r.1 r.2).1 (List.mem_of_mem_take hr)
  have hbytes := bytes_beforeCall s delim k
  have hsame : ∀ j, r.1 ≤ j → j < r.2 →
      (beforeCall s delim k).text.bytes j = s.bytes j := fun j hrj hj => by
    refine (hbytes j).trans (if_neg fun hjmem => ?_)
    obtain ⟨q, hq, rfl⟩ := List.mem_map.1 hjmem
    have hq' := (mem_tokens_iff s delim q.1 q.2).1 (List.mem_of_mem_take hq)
    exact absurd hj (Nat.not_lt.2 (hrun.le_end hq' hrj))
  refine ⟨⟨hrun.lt.le, (hbytes r.2).trans (if_pos (List.mem_map_of_mem hr)), fun j hrj hj => ?_⟩,
    hsame⟩
  rw [hsame j hrj hj]
  exact s.endsAt_strlen.2.2 j (Nat.zero_le j) (hj.trans_le hrun.le)

/-- The `k`-th call returns the `k`-th of the maximal runs of characters that are no
delimiters, with a zero behind it, and null when there are no more. Only the places behind
the runs returned so far have changed. -/
theorem strtok_tokens :
    (∀ a b, (a, b) ∈ tokens s delim ↔
        IsRun (fun k => s.bytes k ∉ delim.content) (strlen s) a b) ∧
      ((tokens s delim).Pairwise fun r q => r.2 < q.1) ∧
      ∀ k, (strtokCalls s delim p k).1 = ((tokens s delim)[k]?).map Prod.fst ∧
        (∀ r ∈ (tokens s delim)[k]?,
          CString.EndsAt (strtokCalls s delim p k).2.text.bytes r.1 r.2) ∧
        ∀ i, (strtokCalls s delim p k).2.text.bytes i =
          if i ∈ ((tokens s delim).take (k + 1)).map Prod.snd then 0 else s.bytes i := by
  refine ⟨mem_tokens_iff s delim, pairwise_runsFrom _ _, fun k => ?_⟩
  refine ⟨fst_strtokCalls s delim p k, fun r hr => ?_, ?_⟩
  · have htake : r ∈ (tokens s delim).take (k + 1) := by
      rw [List.take_add_one]
      exact List.mem_append_right _ (Option.mem_toList.2 hr)
    rw [strtokCalls_eq]
    exact (token_beforeCall s delim htake).1
  · rw [strtokCalls_eq]
    exact bytes_beforeCall s delim (k + 1)

end Calls

end Scorch
