import Scorch.StringSearch

/-!
# Copies of strings

`strcpy` and `strcat` of `string.c` do not copy the terminator. So the destination holds a
string after them when there happens to be a zero behind the copied characters. The test of
the loop comes after the copy of a character, and an empty string is copied beyond its
terminator. `copiesAndJoins_iff` says for which strings and which earlier content of the
destination the two functions do what they should.

The bytes that are read and the places that are stored to are logged, so that a copy that runs
beyond its source can be told from one that does not.
-/

open ByteMemory

namespace Scorch

/-! ## Functions -/

/-- The bytes of the source that `strcpy` reads : each copied one, and the one behind it. -/
def strcpyReads (src : Bytes) : ℕ → ℕ → List ℕ
  | 0, i => [i, i + 1]
  | n + 1, i => i :: (i + 1) :: if src (i + 1) ≠ 0 then strcpyReads src n (i + 1) else []

/-- `strcat (dst, src)`, with `n` bytes from `dst` on to a terminator. -/
def strcat (m : StoreLog Byte) (dst n : ℕ) (src : CopySource) : StoreLog Byte :=
  strcpy m (dst + strlenFrom (fun i => m.mem (dst + i)) n 0) src

/-! ## What they should do -/

/-- The memory holds the characters from `dst` on, and a terminator behind them. -/
def HoldsString (m : StoreLog Byte) (dst : ℕ) (l : List Byte) : Prop :=
  ∀ i ≤ l.length, m.mem (dst + i) = l.getD i 0

/-- After a copy of `a` the destination holds it, no byte behind has changed and none behind
the terminator of `a` has been read. After `strcat` it holds both strings, wherever the
search for its end is known to stop. -/
structure CopiesAndJoins (m : StoreLog Byte) (dst : ℕ) (a b : CopySource) : Prop where
  copied : HoldsString (strcpy m dst a) dst a.content
  later : ∀ k, dst + strlen a.toCString < k → (strcpy m dst a).mem k = m.mem k
  reads : ∀ j ∈ strcpyReads a.bytes (a.bound - 1) 0, j ≤ strlen a.toCString
  joined : ∀ n, (strcpy m dst a).mem (dst + n) = 0 →
    HoldsString (strcat (strcpy m dst a) dst n b) dst (a.content ++ b.content)

section Copies

variable {m : StoreLog Byte} {dst : ℕ} {a b : CopySource}

/-- A string in memory ends with a zero. -/
theorem HoldsString.terminated {l : List Byte} (h : HoldsString m dst l) :
    m.mem (dst + l.length) = 0 := by
  have hend := h l.length le_rfl
  rwa [List.getD_eq_default _ _ le_rfl] at hend

/-- The characters of two strings one behind the other, with a terminator behind both. -/
theorem holdsString_append_iff {l l' : List Byte} : HoldsString m dst (l ++ l') ↔
    (∀ i < l.length, m.mem (dst + i) = l.getD i 0) ∧ HoldsString m (dst + l.length) l' := by
  have hsum : (l ++ l').length = l.length + l'.length := List.length_append
  constructor
  · intro h
    refine ⟨fun i hi => ?_, fun i hi => ?_⟩
    · rw [h i (by omega), List.getD_append _ _ _ _ hi]
    · rw [Nat.add_assoc, h _ (by omega), List.getD_append_right _ _ _ _ (by omega),
        Nat.add_sub_cancel_left]
  · rintro ⟨hfirst, hsecond⟩ i hi
    rcases Nat.lt_or_ge i l.length with hlt | hge
    · rw [hfirst i hlt, List.getD_append _ _ _ _ hlt]
    · have hrest := hsecond (i - l.length) (by omega)
      rwa [Nat.add_assoc, Nat.add_sub_cancel' hge, ← List.getD_append_right l l' 0 i hge] at hrest

/-- The content has no terminator in it. -/
theorem ne_zero_of_mem_content {s : CString} {c : Byte} (h : c ∈ s.content) : c ≠ 0 := by
  obtain ⟨i, hi, rfl⟩ := List.mem_map.1 h
  exact s.endsAt_strlen.2.2 i (Nat.zero_le i) (List.mem_range.1 hi)

/-- The content of a string is known from the bytes up to its terminator. -/
theorem content_eq_of_bytes {s : CString} {l : List Byte}
    (h : ∀ i ≤ l.length, s.bytes i = l.getD i 0) (hne : ∀ c ∈ l, c ≠ 0) : s.content = l := by
  have hget : ∀ (i : ℕ) (hi : i < l.length), s.bytes i = l[i] := fun i hi =>
    (h i hi.le).trans (List.getD_eq_getElem _ _ hi)
  have hend : s.bytes l.length = 0 := (h _ le_rfl).trans (List.getD_eq_default _ _ le_rfl)
  have hlen : strlen s = l.length := by
    refine CString.strlen_eq_of_ne_zero hend fun i hi => ?_
    rw [hget i hi]
    exact hne _ (List.getElem_mem hi)
  rw [CString.content, hlen]
  exact (map_range_eq_iff rfl).2 fun i hi => h i hi.le

/-- A copy of a string that is not empty needs its terminator in the destination. -/
theorem holdsString_strcpy_iff (ha : 0 < strlen a.toCString) :
    HoldsString (strcpy m dst a) dst a.content ↔ m.mem (dst + strlen a.toCString) = 0 := by
  have hlen := length_content a.toCString
  have hcopied := CopySource.copied_eq_strlen ha
  have hbehind : (strcpy m dst a).mem (dst + strlen a.toCString) =
      m.mem (dst + strlen a.toCString) := by
    rw [mem_strcpy, if_neg (by omega)]
  constructor
  · intro h
    have hend := h.terminated
    rwa [hlen, hbehind] at hend
  · intro h i hi
    rcases Nat.eq_or_lt_of_le hi with rfl | hlt
    · rw [List.getD_eq_default _ _ le_rfl, hlen, hbehind, h]
    · rw [mem_strcpy, if_pos (by omega), Nat.add_sub_cancel_left]
      exact CString.bytes_of_content rfl hi

/-- A string in memory ends behind its last byte. -/
theorem HoldsString.endsAt {l : List Byte} (h : HoldsString m dst l) (hl : ∀ c ∈ l, c ≠ 0) :
    CString.EndsAt (fun i => m.mem (dst + i)) 0 l.length := by
  refine ⟨Nat.zero_le _, h.terminated, fun j _ hj => ?_⟩
  have hj' : m.mem (dst + j) = l[j] := (h j hj.le).trans (List.getD_eq_getElem _ _ hj)
  exact fun h0 => hl _ (List.getElem_mem hj) (hj'.symm.trans h0)

/-- `strcat` appends where the string ends. -/
theorem strcat_eq {l : List Byte} {n : ℕ} (h : HoldsString m dst l) (hl : ∀ c ∈ l, c ≠ 0)
    (hn : m.mem (dst + n) = 0) : strcat m dst n b = strcpy m (dst + l.length) b := by
  have hfound := CString.endsAt_strlenFrom (s := fun i => m.mem (dst + i)) n 0
    (by rwa [Nat.zero_add])
  rw [strcat, hfound.unique (h.endsAt hl)]

/-- `strcpy` reads nothing behind the terminator. -/
theorem le_of_mem_strcpyReads {src : Bytes} {e : ℕ} (n i : ℕ) (hi : i < e) (hend : src e = 0)
    {j : ℕ} (hj : j ∈ strcpyReads src n i) : j ≤ e := by
  induction n generalizing i with
  | zero =>
    have hji : j = i ∨ j = i + 1 := by simpa [strcpyReads] using hj
    omega
  | succ n ih =>
    rw [strcpyReads] at hj
    rcases List.mem_cons.1 hj with rfl | hj
    · exact hi.le
    · rcases List.mem_cons.1 hj with rfl | hj
      · exact hi
      · split_ifs at hj with h0
        · have hne : i + 1 ≠ e := fun h => h0 (h ▸ hend)
          exact ih (i + 1) (by omega) hj
        · simp at hj

/-- The byte behind the first is always read. -/
theorem one_mem_strcpyReads (src : Bytes) (n : ℕ) : 1 ∈ strcpyReads src n 0 := by
  cases n <;> simp [strcpyReads]

/-- What is in front of a copy stays. -/
theorem mem_strcpy_before (m : StoreLog Byte) {dst k : ℕ} (src : CopySource) (hk : k < dst) :
    (strcpy m dst src).mem k = m.mem k := by
  rw [mem_strcpy, if_neg (by omega)]

/-- The copy of an empty string starts with its terminator. -/
theorem holdsString_strcpy_nil (hb : strlen b.toCString = 0) :
    HoldsString (strcpy m dst b) dst [] := by
  intro i hi
  have hi0 : i = 0 := Nat.le_zero.1 hi
  have hcopied : 1 ≤ b.copied := le_strlenFrom b.bytes (b.bound - 1) 1
  rw [hi0, mem_strcpy, if_pos (by omega), Nat.add_zero, Nat.sub_self]
  exact hb ▸ b.endsAt_strlen.2.1

/-- Both strings stand in the destination when there has been a zero behind them. -/
theorem holdsString_join_iff (ha : 0 < strlen a.toCString)
    (hend : m.mem (dst + strlen a.toCString) = 0) :
    HoldsString (strcpy (strcpy m dst a) (dst + strlen a.toCString) b) dst
        (a.content ++ b.content) ↔
      b.content = [] ∨ m.mem (dst + strlen a.toCString + strlen b.toCString) = 0 := by
  have hlen := length_content a.toCString
  have hfirst := (holdsString_strcpy_iff ha).2 hend
  have hcopied := CopySource.copied_eq_strlen ha
  rw [holdsString_append_iff, hlen, and_iff_right fun i hi => ?_]
  · rcases Nat.eq_zero_or_pos (strlen b.toCString) with hb | hb
    · have hnil : b.content = [] := List.length_eq_zero_iff.1 ((length_content _).trans hb)
      rw [hnil]
      exact iff_of_true (holdsString_strcpy_nil hb) (Or.inl rfl)
    · have hne : b.content ≠ [] := List.ne_nil_of_length_pos (hb.trans_eq (length_content _).symm)
      rw [holdsString_strcpy_iff hb, mem_strcpy, if_neg (by omega), or_iff_right hne]
  · rw [mem_strcpy_before _ b (by omega)]
    exact hfirst i (by omega)

/-- The strings are copied and joined when `a` is not empty and the destination has had zeros
where the terminators should be. -/
theorem copiesAndJoins_iff (m : StoreLog Byte) (dst : ℕ) (a b : CopySource) :
    CopiesAndJoins m dst a b ↔
      a.content ≠ [] ∧ m.mem (dst + strlen a.toCString) = 0 ∧
        (b.content = [] ∨ m.mem (dst + strlen a.toCString + strlen b.toCString) = 0) := by
  have hlen := length_content a.toCString
  have hpos : a.content ≠ [] ↔ 0 < strlen a.toCString := by
    rw [← List.length_pos_iff, hlen]
  have hcat : HoldsString (strcpy m dst a) dst a.content → ∀ n,
      (strcpy m dst a).mem (dst + n) = 0 → strcat (strcpy m dst a) dst n b =
        strcpy (strcpy m dst a) (dst + strlen a.toCString) b := fun h n hn => by
    rw [strcat_eq h (fun c => ne_zero_of_mem_content) hn, hlen]
  rw [hpos]
  constructor
  · intro h
    have ha : 0 < strlen a.toCString := h.reads 1 (one_mem_strcpyReads a.bytes _)
    have hend := (holdsString_strcpy_iff ha).1 h.copied
    have hterm := hlen ▸ h.copied.terminated
    have hjoin := h.joined (strlen a.toCString) hterm
    rw [hcat h.copied _ hterm] at hjoin
    exact ⟨ha, hend, (holdsString_join_iff ha hend).1 hjoin⟩
  · rintro ⟨ha, hend, hb⟩
    have hfirst := (holdsString_strcpy_iff ha).2 hend
    refine ⟨hfirst, fun k hk => ?_, fun j hj => ?_, fun n hn => ?_⟩
    · rw [mem_strcpy, CopySource.copied_eq_strlen ha, if_neg (by omega)]
    · exact le_of_mem_strcpyReads _ 0 ha a.endsAt_strlen.2.1 hj
    · rw [hcat hfirst n hn]
      exact (holdsString_join_iff ha hend).2 hb

end Copies

/-- In a buffer of other bytes a copy of one character is not terminated. -/
theorem not_copiesAndJoins :
    ¬CopiesAndJoins ⟨fun _ => 0x78, []⟩ 0 (.ofCons 0x61 []) (.ofCons 0x62 []) := by
  intro h
  have hlen : strlen (CopySource.ofCons 0x61 []).toCString = 1 := by decide
  have hend := h.copied.terminated
  rw [length_content, hlen] at hend
  exact absurd hend (by decide)

end Scorch
