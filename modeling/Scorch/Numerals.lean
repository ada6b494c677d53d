import Mathlib.Data.Nat.Digits.Lemmas
import Scorch.StringCopy

/-!
# Numerals

A string of digits in a base denotes a number (`IsNumeral`). The digits that a loop of
remainders and quotients gives are those of `Nat.digits`, least first, and such a loop of
`scrn.c` writes their characters one behind the other (`digitsInto_eq`). Read from the last
to the first they are a numeral (`isNumeral_reverse_digits`).

`numeralValue` reads a string of digits from the left, as `atoi` does, so the value of a string
with another behind it is a sum (`numeralValue_eq`), and leading zeros count for nothing
(`numeralValue_leftpad`).
-/

open ByteMemory

namespace Scorch

/-! ## Digits as characters -/

/-- `bchars` -/
def bchars : List Byte :=
  [0x30, 0x31, 0x32, 0x33, 0x34, 0x35, 0x36, 0x37, 0x38, 0x39, 0x41, 0x42, 0x43, 0x44, 0x45, 0x46]

/-- The value of a digit, which is a character from `0` to `9` or from `A` to `F`. -/
def digitValue (c : Byte) : ℕ :=
  if c ≤ 0x39 then c.toNat - 0x30 else c.toNat - 0x37

/-- The character is a digit of the base. -/
def IsDigit (base : ℕ) (c : Byte) : Prop :=
  (0x30 ≤ c ∧ c ≤ 0x39 ∨ 0x41 ≤ c ∧ c ≤ 0x46) ∧ digitValue c < base

/-- The value of a string of digits, behind digits with the value `acc`. -/
def numeralValue (base acc : ℕ) (l : List Byte) : ℕ :=
  l.foldl (fun acc c => acc * base + digitValue c) acc

/-- The string is the number in the base, without leading zeros. -/
structure IsNumeral (base : ℕ) (l : List Byte) (n : ℕ) : Prop where
  ne_nil : l ≠ []
  digits : ∀ c ∈ l, IsDigit base c
  leading : l.head? = some 0x30 → l = [0x30]
  value : numeralValue base 0 l = n

theorem isDigit_ten {c : Byte} (h : IsDigit 10 c) : 0x30 ≤ c ∧ c ≤ 0x39 := by
  obtain ⟨hrange | ⟨hlo, hhi⟩, hvalue⟩ := h
  · exact hrange
  · rw [digitValue] at hvalue
    split_ifs at hvalue with hle
    · exact absurd (BitVec.le_trans hlo hle) (by decide)
    · bv_omega

theorem IsDigit.ne_zero {base : ℕ} {c : Byte} (h : IsDigit base c) : c ≠ 0 := by
  obtain ⟨⟨hlo, -⟩ | ⟨hlo, -⟩, -⟩ := h
  · bv_omega
  · bv_omega

/-- The characters stand for the digits of a base. -/
def IsDigitTable (base : ℕ) (f : ℕ → Byte) : Prop :=
  ∀ d < base, IsDigit base (f d) ∧ digitValue (f d) = d

/-- The table `bchars` of `itoa` has the digits of every base up to `16`. -/
theorem isDigitTable_bchars {base : ℕ} (hbase : base ≤ 16) :
    IsDigitTable base fun d => bchars.getD d 0 := by
  have htable : ∀ d < 16, (0x30 ≤ bchars.getD d 0 ∧ bchars.getD d 0 ≤ 0x39 ∨
      0x41 ≤ bchars.getD d 0 ∧ bchars.getD d 0 ≤ 0x46) ∧ digitValue (bchars.getD d 0) = d := by
    decide
  intro d hd
  obtain ⟨hchar, hvalue⟩ := htable d (hd.trans_le hbase)
  exact ⟨⟨hchar, hvalue.trans_lt hd⟩, hvalue⟩

/-- Digits put down from the lowest on, and read backwards. -/
theorem numeralValue_reverse_map {base : ℕ} {f : ℕ → Byte} (hf : IsDigitTable base f)
    (ds : List ℕ) (hds : ∀ d ∈ ds, d < base) :
    numeralValue base 0 (ds.map f).reverse = Nat.ofDigits base ds := by
  rw [numeralValue, List.foldl_reverse, Nat.ofDigits_eq_foldr]
  induction ds with
  | nil => rfl
  | cons d ds ih =>
    rw [List.map_cons, List.foldr_cons, List.foldr_cons,
      ih fun e he => hds e (List.mem_cons_of_mem d he), (hf d (hds d List.mem_cons_self)).2]
    simp only [Nat.cast_id]
    ring

/-- The digits of a number, from the last to the first. -/
theorem isNumeral_reverse_digits {base : ℕ} (hbase : 1 < base) {f : ℕ → Byte}
    (hf : IsDigitTable base f) {n : ℕ} (hn : n ≠ 0) :
    IsNumeral base ((Nat.digits base n).map f).reverse n := by
  have hlt : ∀ d ∈ Nat.digits base n, d < base := fun d hd => Nat.digits_lt_base hbase hd
  have hne : Nat.digits base n ≠ [] := Nat.digits_ne_nil_iff_ne_zero.2 hn
  refine ⟨?_, fun c hc => ?_, fun hhead => ?_, ?_⟩
  · rw [ne_eq, List.reverse_eq_nil_iff, List.map_eq_nil_iff]
    exact hne
  · obtain ⟨d, hd, rfl⟩ := List.mem_map.1 (List.mem_reverse.1 hc)
    exact (hf d (hlt d hd)).1
  · have hlast := Nat.getLast_digit_ne_zero base hn
    rw [List.head?_reverse, List.getLast?_map, List.getLast?_eq_some_getLast hne,
      Option.map_some, Option.some_inj] at hhead
    have hvalue := (hf _ (hlt _ (List.getLast_mem hne))).2
    rw [hhead] at hvalue
    exact absurd hvalue.symm hlast
  · rw [numeralValue_reverse_map hf _ hlt, Nat.ofDigits_digits]

theorem isNumeral_zero {base : ℕ} (hbase : 0 < base) : IsNumeral base [0x30] 0 where
  ne_nil := List.cons_ne_nil _ _
  digits c hc := by
    rw [List.mem_singleton.1 hc]
    exact ⟨by decide, hbase⟩
  leading _ := rfl
  value := by
    rw [numeralValue, List.foldl_cons, List.foldl_nil, Nat.zero_mul]
    rfl

/-! ## Leading zeros -/

/-- Digits read before count by the number of those that follow. -/
theorem numeralValue_eq (base acc : ℕ) (l : List Byte) :
    numeralValue base acc l = acc * base ^ l.length + numeralValue base 0 l := by
  induction l generalizing acc with
  | nil => simp [numeralValue]
  | cons c l ih =>
    have hcons : ∀ acc, numeralValue base acc (c :: l) =
        numeralValue base (acc * base + digitValue c) l := fun _ => rfl
    rw [hcons, hcons, ih, ih (0 * base + digitValue c), List.length_cons, pow_succ]
    ring

/-- Two strings of digits one behind the other. -/
theorem numeralValue_append (base : ℕ) (l l' : List Byte) : numeralValue base 0 (l ++ l') =
    numeralValue base 0 l * base ^ l'.length + numeralValue base 0 l' := by
  rw [← numeralValue_eq, numeralValue, List.foldl_append]
  rfl

/-- Leading zeros do not change the value. -/
theorem numeralValue_leftpad (base n : ℕ) (l : List Byte) :
    numeralValue base 0 (l.leftpad n 0x30) = numeralValue base 0 l := by
  have hzeros : ∀ k, numeralValue base 0 (List.replicate k 0x30) = 0 := fun k => by
    induction k with
    | zero => rfl
    | succ k ih =>
      rw [List.replicate_succ', numeralValue_append, ih, Nat.zero_mul]
      simp [numeralValue, digitValue]
  rw [List.leftpad, numeralValue_append, hzeros, Nat.zero_mul, Nat.zero_add]

/-- Only the character `0` has the value zero. -/
theorem IsDigit.eq_zero {base : ℕ} {c : Byte} (h : IsDigit base c) (hvalue : digitValue c = 0) :
    c = 0x30 := by
  rw [digitValue] at hvalue
  obtain ⟨⟨hlo, hhi⟩ | ⟨hlo, hhi⟩, -⟩ := h
  · rw [if_pos hhi] at hvalue
    bv_omega
  · rw [if_neg (by bv_omega)] at hvalue
    bv_omega

/-- A numeral has no more digits than its number needs. -/
theorem IsNumeral.length_le {base n k : ℕ} {l : List Byte} (h : IsNumeral base l n)
    (hbase : 1 < base) (hk : 0 < k) (hn : n < base ^ k) : l.length ≤ k := by
  obtain ⟨c, l, rfl⟩ := List.exists_cons_of_ne_nil h.ne_nil
  rcases Nat.eq_zero_or_pos (digitValue c) with hzero | hpos
  · have hc := (h.digits c List.mem_cons_self).eq_zero hzero
    have hone := h.leading (by rw [hc]; rfl)
    rw [hone]
    exact hk
  · have hvalue : digitValue c * base ^ l.length + numeralValue base 0 l = n := by
      rw [← h.value, ← numeralValue_eq, numeralValue, numeralValue, List.foldl_cons, Nat.zero_mul,
        Nat.zero_add]
    have hle : base ^ l.length ≤ digitValue c * base ^ l.length := Nat.le_mul_of_pos_left _ hpos
    exact (Nat.pow_lt_pow_iff_right hbase).1 (by omega)

/-! ## The loop over the digits -/

section Loop

variable {char : Word → Byte} {quot : Word → Word}

/-- The loop of `itoa` and of `putd` that writes the digits of `n` to `t` from `pos` on, if it
ends within `k` tests. -/
def digitsInto (char : Word → Byte) (quot : Word → Word) :
    ℕ → Word → ℕ → StoreLog Byte → Option (ℕ × StoreLog Byte)
  | 0, _, _, _ => none
  | k + 1, n, pos, t =>
    if n ≠ 0 then digitsInto char quot k (quot n) (pos + 1) (t.store pos (char n))
    else some (pos, t)

/-- The loop writes the characters of the digits and nothing else. -/
theorem digitsInto_eq {base : ℕ} (hbase : 1 < base) (val : Word → ℕ) (f : ℕ → Byte)
    {p : Word → Prop} (hzero : ∀ n, p n → (n = 0 ↔ val n = 0))
    (hquot : ∀ n, p n → p (quot n) ∧ val (quot n) = val n / base)
    (hchar : ∀ n, p n → char n = f (val n % base)) (k : ℕ) (n : Word) (hn : p n) (pos : ℕ)
    (t : StoreLog Byte) :
    digitsInto char quot k n pos t =
      if (Nat.digits base (val n)).length < k then
        some (pos + (Nat.digits base (val n)).length,
          t.storeList pos ((Nat.digits base (val n)).map f))
      else none := by
  induction k generalizing n pos t with
  | zero => rw [digitsInto, if_neg (Nat.not_lt_zero _)]
  | succ k ih =>
    rw [digitsInto]
    by_cases h0 : n = 0
    · rw [if_neg (not_not.2 h0), (hzero n hn).1 h0, Nat.digits_zero,
        if_pos (show ([] : List ℕ).length < k + 1 from Nat.zero_lt_succ k)]
      rfl
    · obtain ⟨hp, hval⟩ := hquot n hn
      have hpos : 0 < val n := Nat.pos_of_ne_zero (mt (hzero n hn).2 h0)
      rw [if_pos h0, ih _ hp, hval, Nat.digits_def' hbase hpos, hchar n hn]
      simp only [List.length_cons, List.map_cons, StoreLog.storeList, Nat.add_lt_add_iff_right,
        Nat.add_assoc, Nat.add_comm 1]

end Loop

end Scorch
