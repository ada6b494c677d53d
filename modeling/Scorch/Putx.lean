import Scorch.Itoa

/-!
# Printing hexadecimal numbers

`putx` of `scrn.c` writes a number with `itoa` and fills it up to four digits with `pad`, which
builds the text in an array of its own and copies it back. `putlx` sends two halves of a
number one behind the other, so it sends its low 32 bits, in eight digits
(`putlx_sends`).

`pad` copies from a place of the array that depends on the length of the text, and a text that is
long enough is left as it is.
-/

open ByteMemory

namespace Scorch

/-! ## Functions -/

/-- The last loop of `pad` and the write behind it, with `n` rounds left. -/
def padLoop (temp : Bytes) (instr : ℕ) : ℕ → ℕ → StoreLog Byte → StoreLog Byte
  | 0, i, m => m.store (instr + i) 0
  | n + 1, i, m => padLoop temp instr n (i + 1) (m.store (instr + i) (temp i))

/-- `pad (instr, padnum, padchar)`, with `n` bytes from `instr` on to a terminator. The array
`temp` holds anything before. -/
def pad (m : StoreLog Byte) (instr n padnum : ℕ) (padchar : Byte) (temp : Bytes) :
    StoreLog Byte :=
  let len := strlenFrom (fun i => m.mem (instr + i)) n 0
  if len ≥ padnum then m
  else
    let temp := memsetBytes temp padchar 64
    let temp := copyBytes (padnum - len) (fun j => m.mem (instr + j)) len 0 temp
    padLoop (Function.update temp padnum 0) instr padnum 0 m

/-- `putx (n)` : the characters that are sent to `putch` and `tbuf` behind it, if the loop of
`itoa` ends within `k` tests. -/
def putx (k : ℕ) (n : Word) (tbuf tembuf temp : Bytes) : Option (List Byte × Bytes) :=
  (itoa k n 16 tbuf 0 ⟨tembuf, []⟩).map fun run =>
    let m := pad run.m 0 63 4 0x30 temp
    ((List.range (strlenFrom m.mem 63 0)).map m.mem, run.tbuf.mem)

/-- `putlx (n)` : the characters that are sent to `putch`. The arrays of the two calls of `putx`
hold anything before. -/
def putlx (k : ℕ) (n : BitVec 64) (tbuf : Bytes) (arrays : ℕ → Bytes) : Option (List Byte) :=
  let low : Word := (n &&& 0xffff).setWidth 32
  let high : Word := (n.sshiftRight 16 &&& 0xffff).setWidth 32
  (putx k high tbuf (arrays 0) (arrays 1)).bind fun (first, tbuf) =>
    (putx k low tbuf (arrays 2) (arrays 3)).map fun (second, _) => first ++ second

/-! ## Padding -/

section Padding

variable {m : StoreLog Byte} {dst n : ℕ} {l : List Byte}

/-- The search for the end of a string in memory. -/
theorem HoldsString.strlenFrom_eq (h : HoldsString m dst l) (hl : ∀ c ∈ l, c ≠ 0)
    (hn : l.length ≤ n) : strlenFrom (fun i => m.mem (dst + i)) n 0 = l.length :=
  (h.endsAt hl).strlenFrom_eq (hn.trans_eq (Nat.zero_add n).symm)

/-- The bytes before the end of a string in memory. -/
theorem HoldsString.map_range_eq (h : HoldsString m dst l) :
    (List.range l.length).map (fun i => m.mem (dst + i)) = l :=
  (map_range_eq_iff rfl).2 fun i hi => h i hi.le

/-- The loop copies the digits behind the zeros, and a terminator. -/
theorem padLoop_eq (temp : Bytes) (instr n i : ℕ) (m : StoreLog Byte) :
    padLoop temp instr n i m =
      m.storeList (instr + i) ((List.range' i n).map temp ++ [0]) := by
  induction n generalizing i m with
  | zero => rfl
  | succ n ih =>
    rw [padLoop, ih, List.range'_succ, List.map_cons, List.cons_append, StoreLog.storeList,
      Nat.add_assoc]

/-- What the array of `pad` holds behind its first loop. -/
theorem map_range_padded {src temp : Bytes} {padnum : ℕ} (c : Byte)
    (hsrc : ∀ j < l.length, src j = l.getD j 0) (hle : l.length ≤ padnum) (hlen : padnum ≤ 64) :
    (List.range padnum).map (Function.update
      (copyBytes (padnum - l.length) src l.length 0 (memsetBytes temp c 64)) padnum 0) =
        l.leftpad padnum c := by
  have hlength : (l.leftpad padnum c).length = padnum := by
    rw [List.length_leftpad, Nat.max_eq_left hle]
  refine (map_range_eq_iff hlength).2 fun i hi => ?_
  rw [Function.update_of_ne hi.ne, copyBytes_apply, memsetBytes_apply,
    if_pos (hi.trans_le hlen), List.leftpad]
  by_cases hfront : i < padnum - l.length
  · rw [if_neg (by omega), List.getD_append _ _ _ _ (by rwa [List.length_replicate]),
      List.getD_replicate _ hfront]
  · rw [if_pos (by omega), List.getD_append_right _ _ _ _ (by rw [List.length_replicate]; omega),
      List.length_replicate, hsrc _ (by omega)]

/-- `pad` fills a string up from the left. -/
theorem HoldsString.pad (h : HoldsString m dst l) (hl : ∀ c ∈ l, c ≠ 0) (hn : l.length ≤ n)
    {padnum : ℕ} (hlen : padnum ≤ 64) (c : Byte) (temp : Bytes) :
    HoldsString (pad m dst n padnum c temp) dst (l.leftpad padnum c) := by
  unfold Scorch.pad
  rw [h.strlenFrom_eq hl hn]
  dsimp only
  split_ifs with hlong
  · have hsame : l.leftpad padnum c = l := by
      rw [List.leftpad, Nat.sub_eq_zero_of_le hlong, List.replicate_zero, List.nil_append]
    rw [hsame]
    exact h
  · rw [padLoop_eq, ← List.range_eq_range', map_range_padded c (fun j hj => h j hj.le) (by omega)
      hlen]
    exact holdsString_storeList m dst _

end Padding

/-! ## What is sent -/

section Sent

variable {k : ℕ}

/-- Zeros are digits. -/
theorem isDigit_of_mem_leftpad {base n : ℕ} {l : List Byte} (hbase : 0 < base)
    (hl : ∀ c ∈ l, IsDigit base c) : ∀ c ∈ l.leftpad n 0x30, IsDigit base c := by
  intro c hc
  rcases List.mem_append.1 hc with hzero | hc
  · rw [List.eq_of_mem_replicate hzero]
    exact ⟨by decide, hbase⟩
  · exact hl c hc

/-- `putx` sends its number, with zeros in front of it up to four digits. -/
theorem exists_putx (hk : 32 < k) (n : Word) (tbuf tembuf temp : Bytes) :
    ∃ l t, putx k n tbuf tembuf temp = some (l.leftpad 4 0x30, t) ∧ IsNumeral 16 l n.toNat := by
  have hbase : (16 : Word).toNat = 16 := rfl
  obtain ⟨run, l, hrun, hwrites⟩ :=
    exists_itoa_writes hk n (by rw [hbase]; decide) hbase.le tbuf 0 ⟨tembuf, []⟩
  have hnumeral : IsNumeral 16 l n.toNat := hwrites.numeral
  have hlen : l.length ≤ 8 := hnumeral.length_le (by decide) (by decide) n.isLt
  have hne : ∀ c ∈ l, c ≠ 0 := fun c hc => (hnumeral.digits c hc).ne_zero
  have hpad : HoldsString (pad run.m 0 63 4 0x30 temp) 0 (l.leftpad 4 0x30) :=
    hwrites.text.pad hne (by omega) (by decide) 0x30 temp
  have hpadlen : (l.leftpad 4 0x30).length ≤ 63 := by
    rw [List.length_leftpad]
    omega
  have hdigits := isDigit_of_mem_leftpad (n := 4) (by decide) hnumeral.digits
  have hend := hpad.strlenFrom_eq (fun c hc => (hdigits c hc).ne_zero) hpadlen
  have hsent := hpad.map_range_eq
  simp only [Nat.zero_add] at hend hsent
  refine ⟨l, run.tbuf.mem, ?_, hnumeral⟩
  rw [putx, hrun, Option.map_some]
  simp only [hend, hsent]

/-- The high half that `putlx` takes. The shift brings in the sign, which the mask takes off. -/
theorem toNat_high (n : BitVec 64) :
    (n.sshiftRight 16 &&& 0xffff).toNat = n.toNat / 2 ^ 16 % 2 ^ 16 := by
  have hshift : (n.sshiftRight 16).toNat % 2 ^ 16 = n.toNat / 2 ^ 16 % 2 ^ 16 := by
    rw [BitVec.toNat_sshiftRight, Nat.shiftRight_eq_div_pow, Nat.shiftRight_eq_div_pow]
    split_ifs
    · omega
    · rfl
  rw [toNat_and_low (k := 16) _ rfl, hshift]

/-- A number of 16 bits is sent in four digits. -/
theorem exists_putx_half (hk : 32 < k) {x : BitVec 64} {v : ℕ} (hx : x.toNat = v % 2 ^ 16)
    (tbuf tembuf temp : Bytes) : ∃ l t, putx k (x.setWidth 32) tbuf tembuf temp = some (l, t) ∧
      l.length = 4 ∧ (∀ c ∈ l, IsDigit 16 c) ∧ numeralValue 16 0 l = v % 2 ^ 16 := by
  obtain ⟨l, t, hputx, hnumeral⟩ := exists_putx hk (x.setWidth 32) tbuf tembuf temp
  have hv : v % 2 ^ 16 < 16 ^ 4 := Nat.mod_lt _ (by decide)
  have hvalue : (x.setWidth 32).toNat = v % 2 ^ 16 := by
    rw [BitVec.toNat_setWidth, hx]
    omega
  rw [hvalue] at hnumeral
  have hlen : l.length ≤ 4 := hnumeral.length_le (by decide) (by decide) hv
  refine ⟨_, t, hputx, ?_, isDigit_of_mem_leftpad (by decide) hnumeral.digits, ?_⟩
  · rw [List.length_leftpad, Nat.max_eq_left hlen]
  · rw [numeralValue_leftpad, hnumeral.value]

/-- `putlx` sends the low 32 bits of its number in eight digits. -/
theorem putlx_sends (hk : 32 < k) (n : BitVec 64) (tbuf : Bytes) (arrays : ℕ → Bytes) :
    ∃ l, putlx k n tbuf arrays = some l ∧ l.length = 8 ∧ (∀ c ∈ l, IsDigit 16 c) ∧
      numeralValue 16 0 l = n.toNat % 2 ^ 32 := by
  obtain ⟨high, t, hputx, hlen, hdigits, hvalue⟩ :=
    exists_putx_half hk (toNat_high n) tbuf (arrays 0) (arrays 1)
  have hlow : (n &&& 0xffff).toNat = n.toNat % 2 ^ 16 := toNat_and_low n rfl
  obtain ⟨low, t', hputx', hlen', hdigits', hvalue'⟩ :=
    exists_putx_half hk hlow t (arrays 2) (arrays 3)
  refine ⟨high ++ low, ?_, ?_, fun c hc => ?_, ?_⟩
  · simp only [putlx, hputx, hputx', Option.bind_some, Option.map_some]
  · rw [List.length_append, hlen, hlen']
  · exact (List.mem_append.1 hc).elim (hdigits c) (hdigits' c)
  · rw [numeralValue_append, hvalue, hvalue', hlen']
    omega

/-- A number with zeros in its low half. -/
theorem putlx_high_zeros : ∃ l, putlx 33 0x1000f000a (fun _ => 0) (fun _ _ => 0x78) = some l ∧
    l.length = 8 ∧ (∀ c ∈ l, IsDigit 16 c) ∧
      numeralValue 16 0 l = (0x1000f000a : BitVec 64).toNat % 2 ^ 32 :=
  putlx_sends (by decide) 0x1000f000a _ _

end Sent

end Scorch
