import Scorch.Numerals

/-!
# Printing decimal numbers

`putd` of `scrn.c` takes the digits of a number by `%` and `/`, which keep its sign. So the
digits of a negative number are negative, their characters stand before `0`, and there is no
minus sign. What is sent to `putch` is the number exactly when it is not negative
(`putd_sends_decimal_iff`).

Division and remainder towards zero treat the digits of `-n` like those of `n` (`HasSign.tdiv`), so
the characters are those of the digits of the absolute value, with the sign put on each.
-/

open ByteMemory

namespace Scorch

/-! ## The function -/

/-- The last loop of `putd`, with `i + 1` places of `c2` left. -/
def putdCopy (c1 : Bytes) : ℕ → ℕ → Bytes → Bytes
  | 0, _, c2 => c2
  | i + 1, j, c2 => putdCopy c1 i (j + 1) (Function.update c2 i (c1 j))

/-- The characters that `putd` sends to `putch`, if its first loop ends within `k` tests. The
two buffers hold anything before. -/
def putd (k : ℕ) (n : Word) (c1 c2 : Bytes) : Option (List Byte) :=
  if n = 0 then some [0x30]
  else
    (digitsInto (fun n => (0x30 + n.srem 10).setWidth 8) (·.sdiv 10) k n 0 ⟨c1, []⟩).map
      fun (i, c1) =>
        let c1 := c1.store i 0
        let c2 := putdCopy c1.mem i 0 (Function.update c2 i 0)
        (List.range (strlenFrom c2 i 0)).map c2

/-- The text is the number : digits without leading zeros, behind a minus sign when it is
negative. -/
def IsDecimal (l : List Byte) (n : ℤ) : Prop :=
  ∃ ds, IsNumeral 10 ds n.natAbs ∧ l = if n < 0 then 0x2d :: ds else ds

/-! ## The digits -/

/-- The character of a digit of a number with the sign `s`. -/
def putdChar (s : ℤ) (d : ℕ) : Byte :=
  (0x30 + BitVec.ofInt 32 (s * d)).setWidth 8

/-- The number has the sign `s`, or is zero. -/
def HasSign (s : ℤ) (n : Word) : Prop :=
  (s = 1 ∨ s = -1) ∧ n.toInt = s * n.toInt.natAbs

/-- A number is negative or it is not. -/
theorem exists_hasSign (n : Word) : ∃ s, HasSign s n ∧ (s = 1 ↔ 0 ≤ n.toInt) := by
  rcases le_or_gt 0 n.toInt with h | h
  · exact ⟨1, ⟨Or.inl rfl, by omega⟩, iff_of_true rfl h⟩
  · exact ⟨-1, ⟨Or.inr rfl, by omega⟩, iff_of_false (by decide) (not_le.2 h)⟩

section Digits

variable {s : ℤ} {n : Word}

/-- Division towards zero treats the digits of `-n` as those of `n`, with the sign. -/
theorem HasSign.tdiv (h : HasSign s n) :
    n.toInt.tdiv 10 = s * (n.toInt.natAbs / 10 : ℕ) ∧
      n.toInt.tmod 10 = s * (n.toInt.natAbs % 10 : ℕ) := by
  obtain ⟨hs, heq⟩ := h
  rw [heq, Int.natAbs_mul, Int.natAbs_natCast]
  rcases hs with rfl | rfl
  · rw [one_mul, one_mul, one_mul, Int.natAbs_one, one_mul]
    exact ⟨rfl, rfl⟩
  · rw [Int.neg_mul, Int.neg_tdiv, Int.neg_tmod, one_mul, Int.natAbs_neg, Int.natAbs_one, one_mul,
      neg_one_mul, neg_one_mul]
    exact ⟨rfl, rfl⟩

/-- The next number of the loop has the same sign and one digit less. -/
theorem HasSign.sdiv (h : HasSign s n) :
    HasSign s (n.sdiv 10) ∧ (n.sdiv 10).toInt.natAbs = n.toInt.natAbs / 10 := by
  have hquot : (n.sdiv 10).toInt = n.toInt.tdiv 10 :=
    BitVec.toInt_sdiv_of_ne_or_ne n 10 (Or.inr (by decide))
  have habs : (n.sdiv 10).toInt.natAbs = n.toInt.natAbs / 10 := by
    rw [hquot, Int.natAbs_tdiv]
    rfl
  exact ⟨⟨h.1, by rw [habs, hquot, h.tdiv.1]⟩, habs⟩

/-- The character that is stored for a digit. -/
theorem HasSign.char_eq (h : HasSign s n) :
    (0x30 + n.srem 10).setWidth 8 = putdChar s (n.toInt.natAbs % 10) := by
  have hrem : n.srem 10 = BitVec.ofInt 32 (s * (n.toInt.natAbs % 10 : ℕ)) := by
    rw [← h.tdiv.2, ← BitVec.ofInt_toInt (x := n.srem 10), BitVec.toInt_srem]
    rfl
  rw [hrem, putdChar]

theorem word_eq_zero_iff (n : Word) : n = 0 ↔ n.toInt.natAbs = 0 := by
  rw [Int.natAbs_eq_zero]
  exact ⟨fun h => h ▸ rfl, fun h => BitVec.eq_of_toInt_eq h⟩

/-- No character is a terminator, not even for a negative number. -/
theorem putdChar_ne_zero (h : HasSign s n) {d : ℕ} (hd : d < 10) : putdChar s d ≠ 0 := by
  have hall : ∀ d < 10, putdChar 1 d ≠ 0 ∧ putdChar (-1) d ≠ 0 := by decide
  obtain ⟨rfl | rfl, -⟩ := h
  · exact (hall d hd).1
  · exact (hall d hd).2

/-- Without a sign the characters are the digits. -/
theorem isDigitTable_putdChar : IsDigitTable 10 (putdChar 1) := by
  have hall : ∀ d < 10, (0x30 ≤ putdChar 1 d ∧ putdChar 1 d ≤ 0x39) ∧
      digitValue (putdChar 1 d) = d := by decide
  intro d hd
  obtain ⟨hchar, hvalue⟩ := hall d hd
  exact ⟨⟨Or.inl hchar, hvalue.trans_lt hd⟩, hvalue⟩

/-- The characters for a negative number are not behind `0`. -/
theorem putdChar_neg_le {d : ℕ} (hd : d < 10) : putdChar (-1) d ≤ 0x30 := by
  have hall : ∀ d < 10, putdChar (-1) d ≤ 0x30 := by decide
  exact hall d hd

end Digits

/-! ## The copy -/

/-- The second loop puts the characters in the reverse order. -/
theorem putdCopy_apply (c1 : Bytes) (i j : ℕ) (c2 : Bytes) (k : ℕ) :
    putdCopy c1 i j c2 k = if k < i then c1 (j + (i - 1 - k)) else c2 k := by
  induction i generalizing j c2 with
  | zero => rw [putdCopy, if_neg (Nat.not_lt_zero k)]
  | succ i ih =>
    rw [putdCopy, ih, Function.update_apply]
    rcases Nat.lt_trichotomy k i with h | rfl | h
    · rw [if_pos h, if_pos (by omega)]
      congr 1
      omega
    · rw [if_neg (Nat.lt_irrefl k), if_pos rfl, if_pos (Nat.lt_succ_self k), Nat.add_sub_cancel,
        Nat.sub_self, Nat.add_zero]
    · rw [if_neg (by omega), if_neg (by omega), if_neg (by omega)]

/-- The second buffer holds the digits from the last to the first. -/
theorem putdCopy_reverse (c1 c2 : Bytes) (l : List Byte) {i : ℕ} (hi : i ≤ l.reverse.length) :
    putdCopy ((StoreLog.storeList ⟨c1, []⟩ 0 l).store l.length 0).mem l.length 0
      (Function.update c2 l.length 0) i = l.reverse.getD i 0 := by
  rw [List.length_reverse] at hi
  rw [putdCopy_apply]
  rcases Nat.eq_or_lt_of_le hi with rfl | hlt
  · rw [if_neg (Nat.lt_irrefl _), Function.update_self,
      List.getD_eq_default _ _ List.length_reverse.le]
  · have hplace : l.length - 1 - i < l.length := by omega
    have hmem := StoreLog.mem_storeList_add ⟨c1, []⟩ 0 hplace
    rw [if_pos hlt, StoreLog.mem_store_apply, if_neg (by omega), hmem,
      List.getD_eq_getElem _ _ (by rwa [List.length_reverse]), List.getElem_reverse]

/-- What `putd` sends for a number with the sign `s`. -/
theorem putd_eq {s : ℤ} {n : Word} (h : HasSign s n) (hn : n ≠ 0) (k : ℕ) (c1 c2 : Bytes) :
    putd k n c1 c2 = if (Nat.digits 10 n.toInt.natAbs).length < k then
      some ((Nat.digits 10 n.toInt.natAbs).map (putdChar s)).reverse else none := by
  have hbase : 1 < 10 := by decide
  have hloop := digitsInto_eq (p := HasSign s) hbase (fun n => n.toInt.natAbs) (putdChar s)
    (fun n _ => word_eq_zero_iff n) (fun n hn => hn.sdiv) (fun n hn => hn.char_eq) k n h 0 ⟨c1, []⟩
  rw [putd, if_neg hn, hloop]
  split_ifs with hk
  · obtain ⟨l, hl⟩ : ∃ l, (Nat.digits 10 n.toInt.natAbs).map (putdChar s) = l := ⟨_, rfl⟩
    have hlen : l.length = (Nat.digits 10 n.toInt.natAbs).length := by rw [← hl, List.length_map]
    have hne : ∀ c ∈ l.reverse, c ≠ 0 := by
      intro c hc
      rw [List.mem_reverse, ← hl] at hc
      obtain ⟨d, hd, rfl⟩ := List.mem_map.1 hc
      exact putdChar_ne_zero h (Nat.digits_lt_base (by decide) hd)
    have hcopy : ∀ i ≤ l.reverse.length, _ := fun i hi => putdCopy_reverse c1 c2 l hi
    have hend := hcopy l.reverse.length le_rfl
    rw [List.getD_eq_default _ _ le_rfl, List.length_reverse] at hend
    rw [hl, Nat.zero_add, ← hlen, Option.map_some, Option.some_inj]
    exact content_eq_of_bytes (s := ⟨_, _, hend⟩) hcopy hne
  · rfl

/-- No text of characters up to `0` is a negative number. -/
theorem not_isDecimal_of_le {l : List Byte} {n : ℤ} (hn : n < 0) (hl : ∀ c ∈ l, c ≤ 0x30) :
    ¬IsDecimal l n := by
  rintro ⟨ds, hds, heq⟩
  rw [if_pos hn] at heq
  have hzero : ∀ c ∈ ds, c = 0x30 := fun c hc =>
    BitVec.le_antisymm (hl c (heq ▸ List.mem_cons_of_mem _ hc)) (isDigit_ten (hds.digits c hc)).1
  obtain ⟨c, rest, rfl⟩ := List.exists_cons_of_ne_nil hds.ne_nil
  have hsingle : c :: rest = [0x30] :=
    hds.leading (congrArg some (hzero c List.mem_cons_self))
  have hvalue := hds.value
  rw [hsingle] at hvalue
  have habs : (0 : ℕ) = n.natAbs := hvalue
  omega

/-- The characters that are sent are the number when it is not negative. -/
theorem putd_sends_decimal_iff (n : Word) (c1 c2 : Bytes) :
    (∃ k l, putd k n c1 c2 = some l ∧ IsDecimal l n.toInt) ↔ 0 ≤ n.toInt := by
  obtain ⟨s, hs, hsign⟩ := exists_hasSign n
  constructor
  · rintro ⟨k, l, hl, hdec⟩
    by_contra hneg
    have hs' : s = -1 := hs.1.resolve_left (mt hsign.1 hneg)
    have hn : n ≠ 0 := fun h => hneg (by rw [h]; decide)
    rw [putd_eq hs hn] at hl
    split_ifs at hl
    refine not_isDecimal_of_le (not_le.1 hneg) (fun c hc => ?_) hdec
    rw [← Option.some_inj.1 hl, List.mem_reverse] at hc
    obtain ⟨d, hd, rfl⟩ := List.mem_map.1 hc
    exact hs' ▸ putdChar_neg_le (Nat.digits_lt_base (by decide) hd)
  · intro hpos
    have hnot : ¬n.toInt < 0 := not_lt.2 hpos
    by_cases hn : n = 0
    · exact ⟨0, [0x30], if_pos hn, [0x30], by rw [hn]; exact isNumeral_zero (by decide),
        (if_neg hnot).symm⟩
    · obtain rfl := hsign.2 hpos
      have habs : n.toInt.natAbs ≠ 0 := mt (word_eq_zero_iff n).2 hn
      exact ⟨_, _, (putd_eq hs hn _ c1 c2).trans (if_pos (Nat.lt_succ_self _)), _,
        isNumeral_reverse_digits (by decide) isDigitTable_putdChar habs, (if_neg hnot).symm⟩

/-- For -1 a slash is sent. -/
theorem putd_neg_one : putd 2 0xffffffff (fun _ => 0) (fun _ => 0) = some [0x2f] ∧
    ¬IsDecimal [0x2f] (0xffffffff : Word).toInt := by
  refine ⟨by decide, ?_⟩
  rintro ⟨ds, -, heq⟩
  have hneg : (0xffffffff : Word).toInt < 0 := by decide
  rw [if_pos hneg] at heq
  exact absurd (List.cons.inj heq).1 (by decide)

end Scorch
