import Scorch.Numerals

/-!
# Numbers as text

`itoa` of `scrn.c` writes the digits of a number to `tbuf`, least first, and copies them to
the buffer of its caller from the last one on. `atoi` of `shell.c` reads a decimal number
back. The accesses to `tbuf` are logged : there are as many digits as rounds, and no more
than 32 in any base.

The invariant of the first loop is in `Numerals` : after some rounds `tbuf` holds the lowest digits
and the rest of the number is left. The second loop turns them round.
-/

open ByteMemory

namespace Scorch

/-! ## Functions -/

/-- What a call of `itoa` does. -/
structure ItoaRun where
  /-- The bytes of `tbuf`, with the places that have been written. -/
  tbuf : StoreLog Byte
  /-- The places of `tbuf` that have been read. -/
  reads : List ℤ
  /-- The memory of the caller. -/
  m : StoreLog Byte

/-- The second loop of `itoa` and the write behind it, with `n` rounds left. -/
def itoaCopy (tbuf : StoreLog Byte) (buf : ℕ) :
    ℕ → ℕ → ℤ → StoreLog Byte → List ℤ × StoreLog Byte
  | 0, opos, _, m => ([], m.store (buf + opos) 0)
  | n + 1, opos, pos, m =>
    let run := itoaCopy tbuf buf n (opos + 1) (pos - 1)
      (m.store (buf + opos) (tbuf.mem pos.toNat))
    (pos :: run.1, run.2)

/-- `itoa (i, base, buf)`, if its first loop ends within `k` tests. -/
def itoa (k : ℕ) (i base : Word) (tbuf : Bytes) (buf : ℕ) (m : StoreLog Byte) : Option ItoaRun :=
  if i = 0 ∨ 16 < base then
    some ⟨⟨tbuf, []⟩, [], (m.store buf 0x30).store (buf + 1) 0⟩
  else
    (digitsInto (fun i => bchars.getD (i % base).toNat 0) (· / base) k i 0 ⟨tbuf, []⟩).map
      fun (top, tbuf) =>
        let run := itoaCopy tbuf buf top 0 (top - 1) m
        ⟨tbuf, run.1, run.2⟩

/-- The loop of `atoi`, with `n` bytes left before a terminator. -/
def atoiFrom (s : Bytes) : ℕ → ℕ → Word → Word
  | 0, _, total => total
  | n + 1, i, total =>
    if 0x30 ≤ s i ∧ s i ≤ 0x39 then
      atoiFrom s n (i + 1) (10 * total + ((s i).setWidth 32 - 0x30))
    else total

/-- `atoi` -/
def atoi (nptr : CString) : Word :=
  let sign := nptr.bytes 0
  let first := if sign = 0x2d ∨ sign = 0x2b then 1 else 0
  let total := atoiFrom nptr.bytes (nptr.bound - first) first 0
  if sign = 0x2d then -total else total

/-! ## The text in the buffer -/

section Buffer

variable {m : StoreLog Byte} {buf : ℕ} {l : List Byte}

/-- A list that is written with a zero behind it is a string. -/
theorem holdsString_storeList (m : StoreLog Byte) (buf : ℕ) (l : List Byte) :
    HoldsString (m.storeList buf (l ++ [0])) buf l := by
  intro i hi
  have hi' : i < (l ++ [0]).length := by
    rw [List.length_append, List.length_singleton]
    omega
  rw [StoreLog.mem_storeList_add m buf hi']
  rcases Nat.eq_or_lt_of_le hi with rfl | hlt
  · rw [List.getElem_append_right le_rfl, List.getD_eq_default _ _ le_rfl]
    simp
  · rw [List.getElem_append_left hlt, List.getD_eq_getElem _ _ hlt]

/-- The copy goes from the last digit to the first. -/
theorem itoaCopy_eq (tbuf : StoreLog Byte) (buf n opos : ℕ) (m : StoreLog Byte) :
    itoaCopy tbuf buf n opos ((n : ℤ) - 1) m =
      (((List.range n).map Nat.cast).reverse,
        m.storeList (buf + opos) (((List.range n).map tbuf.mem).reverse ++ [0])) := by
  induction n generalizing opos m with
  | zero => rfl
  | succ n ih =>
    have hpos : ((n + 1 : ℕ) : ℤ) - 1 = n := by omega
    rw [itoaCopy, hpos, ih, Int.toNat_natCast, List.range_succ]
    simp [StoreLog.storeList, Nat.add_assoc]

theorem map_range_storeList (t : StoreLog Byte) (l : List Byte) :
    (List.range l.length).map (t.storeList 0 l).mem = l := by
  refine List.ext_getElem (by simp) fun i hi hil => ?_
  have hmem := StoreLog.mem_storeList_add t 0 hil
  rw [Nat.zero_add] at hmem
  simpa using hmem

end Buffer

/-! ## Runs -/

/-- A run has written a numeral to the buffer and has stayed in `tbuf`. -/
structure ItoaRun.Writes (run : ItoaRun) (buf base n : ℕ) (l : List Byte) : Prop where
  writes : run.tbuf.Within (· < 32)
  reads : ∀ pos ∈ run.reads, 0 ≤ pos ∧ pos < 32
  text : HoldsString run.m buf l
  numeral : IsNumeral base l n

/-- No number has more digits than `tbuf` has places. -/
theorem length_digits_le (i : Word) {base : ℕ} (hbase : 2 ≤ base) :
    (Nat.digits base i.toNat).length ≤ 32 := by
  rw [Nat.digits_length_le_iff hbase]
  exact i.isLt.trans_le (Nat.pow_le_pow_left hbase 32)

/-- The first loop ends, with the digits in `tbuf`. -/
theorem digitsInto_itoa {k : ℕ} (hk : 32 < k) (i : Word) {base : Word} (hlo : 2 ≤ base.toNat)
    (t : StoreLog Byte) :
    digitsInto (fun i => bchars.getD (i % base).toNat 0) (· / base) k i 0 t =
      some ((Nat.digits base.toNat i.toNat).length,
        t.storeList 0 ((Nat.digits base.toNat i.toNat).map fun d => bchars.getD d 0)) := by
  have hlen := length_digits_le i hlo
  rw [digitsInto_eq (p := fun _ => True) hlo BitVec.toNat (fun d => bchars.getD d 0)
    (fun n _ => ?_) (fun n _ => ⟨trivial, BitVec.toNat_udiv⟩)
    (fun n _ => by rw [BitVec.toNat_umod]) k i trivial, if_pos (by omega), Nat.zero_add]
  exact ⟨fun h => h ▸ rfl, fun h => BitVec.eq_of_toNat_eq h⟩

theorem ne_zero_iff_toNat {i : Word} : i ≠ 0 ↔ i.toNat ≠ 0 :=
  not_congr ⟨fun h => h ▸ rfl, fun h => BitVec.eq_of_toNat_eq h⟩

/-- What a call with another number than zero leaves behind. -/
theorem itoa_eq {k : ℕ} (hk : 32 < k) {i base : Word} (hi : i ≠ 0) (hlo : 2 ≤ base.toNat)
    (hhi : base.toNat ≤ 16) (tbuf : Bytes) (buf : ℕ) (m : StoreLog Byte) {ds : List Byte}
    (hds : (Nat.digits base.toNat i.toNat).map (fun d => bchars.getD d 0) = ds) :
    itoa k i base tbuf buf m =
      some ⟨StoreLog.storeList ⟨tbuf, []⟩ 0 ds, ((List.range ds.length).map Nat.cast).reverse,
        m.storeList buf (ds.reverse ++ [0])⟩ := by
  have hbase : ¬16 < base := by
    rw [BitVec.lt_def]
    exact Nat.not_lt.2 hhi
  have hlen : ds.length = (Nat.digits base.toNat i.toNat).length := by rw [← hds, List.length_map]
  have hcopy := itoaCopy_eq (StoreLog.storeList ⟨tbuf, []⟩ 0 ds) buf ds.length 0 m
  rw [map_range_storeList, Nat.add_zero] at hcopy
  rw [itoa, if_neg (not_or.2 ⟨hi, hbase⟩), digitsInto_itoa hk i hlo, hds, ← hlen, Option.map_some]
  simp only [hcopy]

/-- `itoa` writes its number in every base from 2 to 16. -/
theorem exists_itoa_writes {k : ℕ} (hk : 32 < k) (i : Word) {base : Word} (hlo : 2 ≤ base.toNat)
    (hhi : base.toNat ≤ 16) (tbuf : Bytes) (buf : ℕ) (m : StoreLog Byte) :
    ∃ run l, itoa k i base tbuf buf m = some run ∧ run.Writes buf base.toNat i.toNat l := by
  by_cases h0 : i = 0
  · refine ⟨_, [0x30], if_pos (Or.inl h0), ?_, ?_, holdsString_storeList m buf [0x30], ?_⟩
    · exact fun j hj => absurd hj List.not_mem_nil
    · exact fun j hj => absurd hj List.not_mem_nil
    · rw [h0]
      exact isNumeral_zero (by omega)
  · obtain ⟨ds, hds⟩ : ∃ ds, (Nat.digits base.toNat i.toNat).map (fun d => bchars.getD d 0) = ds :=
      ⟨_, rfl⟩
    have hlen : ds.length ≤ 32 := by
      rw [← hds, List.length_map]
      exact length_digits_le i hlo
    refine ⟨_, ds.reverse, itoa_eq hk h0 hlo hhi tbuf buf m hds, fun j hj => ?_, fun pos hpos => ?_,
      holdsString_storeList m buf ds.reverse, ?_⟩
    · rw [StoreLog.stores_storeList, List.nil_append, List.mem_range'_1] at hj
      omega
    · obtain ⟨j, hj, rfl⟩ := List.mem_map.1 (List.mem_reverse.1 hpos)
      have hlt := List.mem_range.1 hj
      omega
    · rw [← hds]
      exact isNumeral_reverse_digits hlo (isDigitTable_bchars hhi) (ne_zero_iff_toNat.1 h0)

/-! ## Reading a number back -/

section Atoi

/-- A number that is continued keeps its remainder. -/
theorem numeralValue_modEq (base q : ℕ) {x y : ℕ} (l : List Byte) (h : x ≡ y [MOD q]) :
    numeralValue base x l ≡ numeralValue base y l [MOD q] := by
  induction l generalizing x y with
  | nil => exact h
  | cons c l ih => exact ih ((h.mul_right base).add_right (digitValue c))

/-- A round of `atoi`, modulo `2 ^ 32`. -/
theorem toNat_atoi_step {c : Byte} (total : Word) (h : 0x30 ≤ c ∧ c ≤ 0x39) :
    (10 * total + (c.setWidth 32 - 0x30)).toNat ≡ total.toNat * 10 + digitValue c [MOD 2 ^ 32] := by
  have hlo : 0x30 ≤ c.toNat := h.1
  have hdigit : (c.setWidth 32 - 0x30 : Word).toNat = c.toNat - 0x30 := by bv_omega
  rw [digitValue, if_pos h.2, BitVec.toNat_add, BitVec.toNat_mul, hdigit, Nat.ModEq, Nat.mod_mod,
    Nat.mod_add_mod, Nat.mul_comm]
  rfl

/-- The loop of `atoi` goes over the digits up to another character. -/
theorem atoiFrom_modEq {s : Bytes} {l : List Byte} (hl : ∀ c ∈ l, 0x30 ≤ c ∧ c ≤ 0x39) {n i : ℕ}
    (hs : ∀ (j : ℕ) (hj : j < l.length), s (i + j) = l[j]) (hend : s (i + l.length) = 0)
    (hn : l.length ≤ n) (total : Word) :
    (atoiFrom s n i total).toNat ≡ numeralValue 10 total.toNat l [MOD 2 ^ 32] := by
  induction l generalizing n i total with
  | nil =>
    cases n with
    | zero => exact Nat.ModEq.rfl
    | succ n =>
      have hstop : ¬(0x30 ≤ s i ∧ s i ≤ 0x39) := fun h => by
        rw [List.length_nil, Nat.add_zero] at hend
        rw [hend] at h
        exact absurd h (by decide)
      rw [atoiFrom, if_neg hstop]
      exact Nat.ModEq.rfl
  | cons c l ih =>
    cases n with
    | zero => exact absurd hn (Nat.not_succ_le_zero _)
    | succ n =>
      have hc := hl c List.mem_cons_self
      have hsi : s i = c := hs 0 (Nat.zero_lt_succ _)
      rw [atoiFrom, hsi, if_pos hc]
      refine (ih (fun d hd => hl d (List.mem_cons_of_mem c hd)) (fun j hj => ?_) ?_
        (Nat.le_of_succ_le_succ hn) _).trans (numeralValue_modEq 10 _ l (toNat_atoi_step total hc))
      · rw [Nat.add_assoc, Nat.add_comm 1 j]
        exact hs (j + 1) (Nat.succ_lt_succ hj)
      · rwa [Nat.add_assoc, Nat.add_comm 1 l.length]

theorem numeral_digits {l : List Byte} {n : ℕ} (h : IsNumeral 10 l n) :
    ∀ c ∈ l, 0x30 ≤ c ∧ c ≤ 0x39 := fun c hc => isDigit_ten (h.digits c hc)

/-- `atoi` of a numeral is its number, as long as that fits. -/
theorem toInt_atoi {s : CString} {n : ℕ} (h : IsNumeral 10 s.content n) (hn : n < 2 ^ 31) :
    (atoi s).toInt = n := by
  have hlen := length_content s
  have hpos : 0 < s.content.length := List.length_pos_iff.2 h.ne_nil
  have hfirst : s.content[0] = s.bytes 0 := getElem_content s hpos
  have hdigit := hfirst ▸ numeral_digits h _ (List.getElem_mem hpos)
  have hminus : s.bytes 0 ≠ 0x2d := fun heq => by
    rw [heq] at hdigit
    exact absurd hdigit (by decide)
  have hplus : s.bytes 0 ≠ 0x2b := fun heq => by
    rw [heq] at hdigit
    exact absurd hdigit (by decide)
  have hcall : atoi s = atoiFrom s.bytes s.bound 0 0 := by
    simp only [atoi, if_neg hminus, if_neg (not_or.2 ⟨hminus, hplus⟩), Nat.sub_zero]
  have hmod : (atoiFrom s.bytes s.bound 0 0).toNat ≡ numeralValue 10 0 s.content [MOD 2 ^ 32] := by
    refine atoiFrom_modEq (numeral_digits h) (fun j hj => ?_) ?_ ?_ 0
    · rw [Nat.zero_add, getElem_content s hj]
    · rw [Nat.zero_add, hlen, s.endsAt_strlen.2.1]
    · rw [hlen]
      exact strlen_le_bound s
  have htoNat : (atoi s).toNat = n := by
    rw [h.value, ← hcall] at hmod
    exact Nat.ModEq.eq_of_lt_of_lt hmod (atoi s).isLt (by omega)
  rw [BitVec.toInt_eq_toNat_of_lt (by omega), htoNat]

end Atoi

/-- The string in a buffer that holds a terminator. -/
def bufferString (m : StoreLog Byte) (buf n : ℕ) (h : m.mem (buf + n) = 0) : CString :=
  ⟨fun i => m.mem (buf + i), n, h⟩

/-- The text in the buffer as a string. -/
theorem content_bufferString {m : StoreLog Byte} {buf : ℕ} {l : List Byte}
    (hl : HoldsString m buf l) (hne : ∀ c ∈ l, c ≠ 0) (n : ℕ) (h : m.mem (buf + n) = 0) :
    (bufferString m buf n h).content = l :=
  content_eq_of_bytes hl hne

/-- `itoa` ends, stays in `tbuf` and writes the number in its base, for every base from 2 to
16. A number below 2 ^ 31 that is written in base 10 is read back by `atoi`. -/
theorem itoa_correct {k : ℕ} (hk : 32 < k) (i : Word) {base : Word} (hlo : 2 ≤ base.toNat)
    (hhi : base.toNat ≤ 16) (tbuf : Bytes) (buf : ℕ) (m : StoreLog Byte) :
    ∃ run l, itoa k i base tbuf buf m = some run ∧ run.Writes buf base.toNat i.toNat l ∧
      (base = 10 → i.toNat < 2 ^ 31 →
        ∀ n h, (atoi (bufferString run.m buf n h)).toInt = i.toNat) := by
  obtain ⟨run, l, hrun, hwrites⟩ := exists_itoa_writes hk i hlo hhi tbuf buf m
  refine ⟨run, l, hrun, hwrites, fun h10 hi n h => toInt_atoi ?_ hi⟩
  have hnumeral : IsNumeral 10 l i.toNat := by
    have hbase : base.toNat = 10 := by rw [h10]; rfl
    exact hbase ▸ hwrites.numeral
  have hne : ∀ c ∈ l, c ≠ 0 := fun c hc => (hnumeral.digits c hc).ne_zero
  rwa [content_bufferString hwrites.text hne]

theorem itoa_hex : ∃ run l, itoa 33 0xbeef 16 (fun _ => 0) 0 ⟨fun _ => 0x78, []⟩ = some run ∧
    run.Writes 0 16 0xbeef l ∧ ((16 : Word) = 10 → 0xbeef < 2 ^ 31 →
      ∀ n h, (atoi (bufferString run.m 0 n h)).toInt = 0xbeef) :=
  itoa_correct (by decide) 0xbeef (by decide) (by decide) _ 0 _

end Scorch
