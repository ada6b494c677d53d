import Mathlib.Data.List.GetD
import Scorch.Lib.ByteMemory
import Scorch.Lib.StoreLog

/-!
# Strings

The functions of `string.c` and `ctype.h` that the drivers use, on the bytes from an address
on. The loops that look for a terminator recurse on the number of bytes before a
terminator that is known to be there. `content` is the string without its terminator, and
`strcmp_eq_zero_iff` says that a comparison compares contents.

`strcpy` writes to a memory that logs its writes. It looks for the terminator from the
second byte on, and does not copy it.

`CString` carries the place of a terminator, so that every loop over a string has a bound on its
rounds and the loops are structural recursions. What the functions return does not depend on it.
-/

open ByteMemory

namespace Scorch

/-! ## Bytes -/

/-- The bytes from an address on. -/
abbrev Bytes := ℕ → Byte

/-- The 16-bit number at byte `i`. -/
def load16 (b : Bytes) (i : ℕ) : BitVec 16 :=
  b (i + 1) ++ b i

/-- The 32-bit number at byte `i`. -/
def loadWord (b : Bytes) (i : ℕ) : Word :=
  b (i + 3) ++ b (i + 2) ++ b (i + 1) ++ b i

theorem toNat_load16 (b : Bytes) (i : ℕ) :
    (load16 b i).toNat = (b (i + 1)).toNat * 256 + (b i).toNat :=
  toNat_append_byte (b (i + 1)) (b i)

/-- The value that was stored byte by byte is loaded again. -/
theorem load16_eq {b : Bytes} {i : ℕ} {w : BitVec 16} (hlo : b i = w.setWidth 8)
    (hhi : b (i + 1) = (w >>> 8).setWidth 8) : load16 b i = w := by
  rw [load16, hlo, hhi, append_bytes]

theorem load16_congr {b b' : Bytes} {i : ℕ} (h : ∀ k, i ≤ k → k < i + 2 → b k = b' k) :
    load16 b i = load16 b' i := by
  rw [load16, load16, h i le_rfl (by omega), h (i + 1) (by omega) (by omega)]

/-- The value that was stored byte by byte is loaded again. -/
theorem loadWord_eq {b : Bytes} {i : ℕ} {w : Word} (h0 : b i = w.setWidth 8)
    (h1 : b (i + 1) = (w >>> 8).setWidth 8) (h2 : b (i + 2) = (w >>> 16).setWidth 8)
    (h3 : b (i + 3) = (w >>> 24).setWidth 8) : loadWord b i = w := by
  apply BitVec.eq_of_toNat_eq
  rw [loadWord, toNat_append_byte, toNat_append_byte, toNat_append_byte, h0, h1, h2, h3]
  bv_omega

/-- A load of a double word reads four bytes. -/
theorem loadWord_congr {b b' : Bytes} {i : ℕ} (h : ∀ k, i ≤ k → k < i + 4 → b k = b' k) :
    loadWord b i = loadWord b' i := by
  rw [loadWord, loadWord, h i le_rfl (by omega), h (i + 1) (by omega) (by omega),
    h (i + 2) (by omega) (by omega), h (i + 3) (by omega) (by omega)]

/-! ## Functions -/

/-- A string with a terminator at `bound`, if not before. -/
structure CString where
  bytes : Bytes
  bound : ℕ
  terminated : bytes bound = 0

/-- The string with the given bytes and a terminator. -/
def CString.ofList (l : List Byte) : CString where
  bytes i := l.getD i 0
  bound := l.length
  terminated := by simp

/-- The loop of `memcpy`, with `n` bytes left from the `i`-th on. -/
def copyBytes (off : ℕ) (src : Bytes) : ℕ → ℕ → Bytes → Bytes
  | 0, _, dst => dst
  | n + 1, i, dst => copyBytes off src n (i + 1) (Function.update dst (off + i) (src i))

/-- `memcpy (dst + off, src, len)`. -/
def memcpy (dst : Bytes) (off : ℕ) (src : Bytes) (len : ℕ) : Bytes :=
  copyBytes off src len 0 dst

/-- `memset (dst, val, len)` on bytes, whose loop is the same with one byte for all. -/
def memsetBytes (dst : Bytes) (val : Byte) (len : ℕ) : Bytes :=
  copyBytes 0 (fun _ => val) len 0 dst

/-- The loop of `strlen`, with `n` bytes left before the terminator. -/
def strlenFrom (s : Bytes) : ℕ → ℕ → ℕ
  | 0, i => i
  | n + 1, i => if s i ≠ 0 then strlenFrom s n (i + 1) else i

/-- `strlen` : the number of bytes before the terminator. -/
def strlen (s : CString) : ℕ :=
  strlenFrom s.bytes s.bound 0

/-- The loop of `strcmp`, with `n` bytes left before the terminator of `s1`. -/
def strcmpFrom (s1 s2 : Bytes) : ℕ → ℕ → ℤ
  | 0, i => if s1 i = s2 i then 0 else if s1 i < s2 i then -1 else 1
  | n + 1, i =>
    if s1 i = s2 i then if s1 i = 0 then 0 else strcmpFrom s1 s2 n (i + 1)
    else if s1 i < s2 i then -1 else 1

/-- `strcmp`, from the first bytes on. -/
def strcmp (s1 s2 : CString) : ℤ :=
  strcmpFrom s1.bytes s2.bytes s1.bound 0

/-- The loop of `strchr`, from the `i`-th byte on. There is no result when `n` bytes hold
neither the character nor a terminator. -/
def strchrFrom (s : Bytes) (c : Byte) : ℕ → ℕ → Option (Option ℕ)
  | 0, _ => none
  | n + 1, i => if s i = c then some (some i) else if s i = 0 then some none
    else strchrFrom s c n (i + 1)

/-- The bytes that `strchr` reads. -/
def strchrReads (s : Bytes) (c : Byte) : ℕ → ℕ → List ℕ
  | 0, _ => []
  | n + 1, i => i :: if s i = c ∨ s i = 0 then [] else strchrReads s c n (i + 1)

/-- `strchr (s, c)` : the place of the character, if the search comes to it. -/
def strchr (s : CString) (c : Byte) : Option ℕ :=
  (strchrFrom s.bytes c (s.bound + 1) 0).join

/-- A string with a zero behind its first byte, so that `strcpy` ends. -/
structure CopySource extends CString where
  bound_pos : 0 < bound

/-- The string with the given first byte and other bytes. -/
def CopySource.ofCons (c : Byte) (l : List Byte) : CopySource where
  toCString := CString.ofList (c :: l)
  bound_pos := Nat.zero_lt_succ l.length

/-- The string with the given bytes, a terminator and a zero behind it. -/
def constant (l : List Byte) : CopySource where
  bytes i := l.getD i 0
  bound := l.length + 1
  terminated := by simp
  bound_pos := Nat.zero_lt_succ l.length

/-- The loop of `strcpy`, from the `i`-th byte on, with `n` bytes left between it and a
terminator. -/
def strcpyFrom (dest : ℕ) (src : Bytes) : ℕ → ℕ → StoreLog Byte → StoreLog Byte
  | 0, i, m => m.store (dest + i) (src i)
  | n + 1, i, m =>
    let m := m.store (dest + i) (src i)
    if src (i + 1) ≠ 0 then strcpyFrom dest src n (i + 1) m else m

/-- `strcpy (dest, src)`, where `dest` is a place in the memory `m`. -/
def strcpy (m : StoreLog Byte) (dest : ℕ) (src : CopySource) : StoreLog Byte :=
  strcpyFrom dest src.bytes (src.bound - 1) 0 m

/-- `toupper` of `ctype.h`. -/
def toupper (c : Byte) : Byte :=
  c - 0x20 * if 0x61 ≤ c ∧ c ≤ 0x7a then 1 else 0

/-! ## Copies -/

/-- Each byte after a copy of `n` bytes, of which `i` are done. -/
theorem copyBytes_apply (off : ℕ) (src : Bytes) (n i : ℕ) (dst : Bytes) (k : ℕ) :
    copyBytes off src n i dst k =
      if off + i ≤ k ∧ k < off + i + n then src (k - off) else dst k := by
  induction n generalizing i dst with
  | zero => simp [copyBytes, show ¬(off + i ≤ k ∧ k < off + i) by omega]
  | succ n ih =>
    rw [copyBytes, ih, Function.update_apply]
    by_cases hk : k = off + i
    · simp [hk]
    · rw [if_neg hk]
      refine if_congr ?_ rfl rfl
      omega

/-- A copy replaces the bytes it covers and no others. -/
theorem memcpy_apply (dst : Bytes) (off : ℕ) (src : Bytes) (len k : ℕ) :
    memcpy dst off src len k = if off ≤ k ∧ k < off + len then src (k - off) else dst k :=
  copyBytes_apply off src len 0 dst k

theorem memsetBytes_apply (dst : Bytes) (val : Byte) (len k : ℕ) :
    memsetBytes dst val len k = if k < len then val else dst k := by
  rw [memsetBytes, copyBytes_apply]
  refine if_congr ?_ rfl rfl
  omega

/-! ## Contents -/

/-- The first bytes are the list when each of them is. -/
theorem map_range_eq_iff {f : Bytes} {n : ℕ} {l : List Byte} (hl : l.length = n) :
    (List.range n).map f = l ↔ ∀ k < n, f k = l.getD k 0 := by
  subst hl
  constructor
  · intro h k hk
    have hget := congrArg (fun l => l.getD k 0) h
    simpa [List.getD_eq_getElem?_getD, hk] using hget
  · intro h
    refine List.ext_getElem (by simp) fun k hk hk' => ?_
    rw [List.getElem_map, List.getElem_range, h k hk', List.getD_eq_getElem _ _ hk']

namespace CString

/-- `k` is the first byte from `i` on that is zero. -/
def EndsAt (s : Bytes) (i k : ℕ) : Prop :=
  i ≤ k ∧ s k = 0 ∧ ∀ j, i ≤ j → j < k → s j ≠ 0

theorem EndsAt.unique {s : Bytes} {i k l : ℕ} (hk : EndsAt s i k) (hl : EndsAt s i l) : k = l := by
  rcases Nat.lt_trichotomy k l with h | h | h
  · exact absurd hk.2.1 (hl.2.2 k hk.1 h)
  · exact h
  · exact absurd hl.2.1 (hk.2.2 l hl.1 h)

/-- `strlen` stops at the terminator, when there is one within its rounds. -/
theorem endsAt_strlenFrom {s : Bytes} (n i : ℕ) (h : s (i + n) = 0) :
    EndsAt s i (strlenFrom s n i) := by
  induction n generalizing i with
  | zero => exact ⟨le_rfl, h, fun j hij hji => absurd hij (by rw [strlenFrom] at hji; omega)⟩
  | succ n ih =>
    rw [strlenFrom]
    split_ifs with hi
    · have hrest := ih (i + 1) (by rw [← h]; congr 1; omega)
      refine ⟨by have := hrest.1; omega, hrest.2.1, fun j hij hj => ?_⟩
      rcases Nat.eq_or_lt_of_le hij with rfl | hlt
      · exact hi
      · exact hrest.2.2 j hlt hj
    · exact ⟨le_rfl, not_not.1 hi, fun j hij hji => absurd hij (by omega)⟩

/-- The loop stops at the first terminator when it comes to it. -/
theorem EndsAt.strlenFrom_eq {s : Bytes} {n i k : ℕ} (h : EndsAt s i k) (hk : k ≤ i + n) :
    strlenFrom s n i = k := by
  induction n generalizing i with
  | zero => exact Nat.le_antisymm h.1 hk
  | succ n ih =>
    rw [strlenFrom]
    rcases Nat.eq_or_lt_of_le h.1 with rfl | hlt
    · rw [if_neg (not_not.2 h.2.1)]
    · rw [if_pos (h.2.2 i le_rfl hlt)]
      exact ih ⟨hlt, h.2.1, fun j hij hj => h.2.2 j (by omega) hj⟩ (by omega)

/-- The length is the place of the first terminator. -/
theorem endsAt_strlen (s : CString) : EndsAt s.bytes 0 (strlen s) :=
  endsAt_strlenFrom s.bound 0 (by rw [Nat.zero_add]; exact s.terminated)

/-- A string with its first zero at `n` has that length. -/
theorem strlen_eq_of_ne_zero {s : CString} {n : ℕ} (hend : s.bytes n = 0)
    (h : ∀ k < n, s.bytes k ≠ 0) : strlen s = n :=
  s.endsAt_strlen.unique ⟨Nat.zero_le _, hend, fun k _ hk => h k hk⟩

/-- The bytes before the terminator. -/
def content (s : CString) : List Byte :=
  (List.range (strlen s)).map s.bytes

/-- Strings with the same content are equally long and have the same bytes. -/
theorem content_eq_iff (s t : CString) :
    s.content = t.content ↔ strlen s = strlen t ∧ ∀ i < strlen s, s.bytes i = t.bytes i := by
  constructor
  · intro h
    have hlen : strlen s = strlen t := by simpa [content] using congrArg List.length h
    refine ⟨hlen, fun i hi => ?_⟩
    have hget := congrArg (fun l => l[i]?) h
    simpa [content, hi, hlen ▸ hi] using hget
  · rintro ⟨hlen, hbytes⟩
    rw [content, content, ← hlen]
    exact List.map_congr_left fun i hi => hbytes i (List.mem_range.1 hi)

/-- The content is as long as `strlen` says. -/
theorem strlen_of_content {s : CString} {l : List Byte} (h : s.content = l) :
    strlen s = l.length := by
  rw [← h, content, List.length_map, List.length_range]

/-- The bytes up to the terminator, from the content. -/
theorem bytes_of_content {s : CString} {l : List Byte} (h : s.content = l) {i : ℕ}
    (hi : i ≤ l.length) : s.bytes i = l.getD i 0 := by
  have hlen := strlen_of_content h
  rcases Nat.eq_or_lt_of_le hi with rfl | hlt
  · rw [List.getD_eq_getElem?_getD, List.getElem?_eq_none le_rfl, ← hlen]
    exact s.endsAt_strlen.2.1
  · have hget := congrArg (fun l => l.getD i 0) h
    simpa [content, List.getD_eq_getElem?_getD, hlen, hlt] using hget

/-- From `i` on the strings agree up to a terminator they share. -/
def SameFrom (s1 s2 : Bytes) (i : ℕ) : Prop :=
  ∃ k, EndsAt s1 i k ∧ EndsAt s2 i k ∧ ∀ j, i ≤ j → j < k → s1 j = s2 j

/-- Strings that end at the same place agree from there on. -/
theorem sameFrom_of_zero {s1 s2 : Bytes} {i : ℕ} (heq : s1 i = s2 i) (h0 : s1 i = 0) :
    SameFrom s1 s2 i := by
  have hnone : ∀ j, i ≤ j → ¬j < i := fun j hij => by omega
  exact ⟨i, ⟨le_rfl, h0, fun j hij hj => absurd hj (hnone j hij)⟩,
    ⟨le_rfl, heq ▸ h0, fun j hij hj => absurd hj (hnone j hij)⟩,
    fun j hij hj => absurd hj (hnone j hij)⟩

/-- Strings that differ in a byte before the end do not agree. -/
theorem not_sameFrom_of_ne {s1 s2 : Bytes} {i : ℕ} (hne : s1 i ≠ s2 i) : ¬SameFrom s1 s2 i := by
  rintro ⟨k, ⟨hik, h1, -⟩, ⟨-, h2, -⟩, hsame⟩
  rcases Nat.eq_or_lt_of_le hik with rfl | hlt
  · exact hne (h1.trans h2.symm)
  · exact hne (hsame i le_rfl hlt)

/-- A byte that is not zero does not end a string. -/
theorem endsAt_succ_iff {s : Bytes} {i k : ℕ} (h : s i ≠ 0) :
    EndsAt s i k ↔ EndsAt s (i + 1) k := by
  constructor
  · rintro ⟨hik, hk, hbefore⟩
    rcases Nat.eq_or_lt_of_le hik with rfl | hlt
    · exact absurd hk h
    · exact ⟨hlt, hk, fun j hij hj => hbefore j (by omega) hj⟩
  · rintro ⟨hik, hk, hbefore⟩
    refine ⟨by omega, hk, fun j hij hj => ?_⟩
    rcases Nat.eq_or_lt_of_le hij with rfl | hlt
    · exact h
    · exact hbefore j hlt hj

/-- Of strings with the same first byte, the rests are compared. -/
theorem sameFrom_succ_iff {s1 s2 : Bytes} {i : ℕ} (heq : s1 i = s2 i) (h : s1 i ≠ 0) :
    SameFrom s1 s2 i ↔ SameFrom s1 s2 (i + 1) := by
  have h2 : s2 i ≠ 0 := heq ▸ h
  refine exists_congr fun k => ?_
  rw [endsAt_succ_iff h, endsAt_succ_iff h2]
  refine and_congr_right fun _ => and_congr_right fun _ =>
    ⟨fun hs j hij hj => hs j (by omega) hj, fun hs j hij hj => ?_⟩
  rcases Nat.eq_or_lt_of_le hij with rfl | hlt
  · exact heq
  · exact hs j hlt hj

/-- The loop decides, when one of the strings has ended by its last round. -/
theorem strcmpFrom_eq_zero_iff {s1 s2 : Bytes} (n i : ℕ) (h : s1 (i + n) = 0 ∨ s2 (i + n) = 0) :
    strcmpFrom s1 s2 n i = 0 ↔ SameFrom s1 s2 i := by
  induction n generalizing i with
  | zero =>
    rw [strcmpFrom]
    split_ifs with heq hlt
    · exact iff_of_true rfl (sameFrom_of_zero heq (h.elim id fun h2 => heq.trans h2))
    · exact iff_of_false (by decide) (not_sameFrom_of_ne heq)
    · exact iff_of_false (by decide) (not_sameFrom_of_ne heq)
  | succ n ih =>
    rw [strcmpFrom]
    split_ifs with heq h0 hlt
    · exact iff_of_true rfl (sameFrom_of_zero heq h0)
    · rw [ih (i + 1) (by rwa [Nat.add_assoc, Nat.add_comm 1 n]), sameFrom_succ_iff heq h0]
    · exact iff_of_false (by decide) (not_sameFrom_of_ne heq)
    · exact iff_of_false (by decide) (not_sameFrom_of_ne heq)

/-- Agreeing from the start on is having the same content. -/
theorem sameFrom_zero_iff (s t : CString) :
    SameFrom s.bytes t.bytes 0 ↔ s.content = t.content := by
  have hs := s.endsAt_strlen
  have ht := t.endsAt_strlen
  rw [content_eq_iff]
  constructor
  · rintro ⟨k, hk, hl, hsame⟩
    obtain rfl := hk.unique hs
    exact ⟨hl.unique ht, fun i hi => hsame i (Nat.zero_le i) hi⟩
  · rintro ⟨hlen, hbytes⟩
    exact ⟨strlen s, hs, hlen ▸ ht, fun j _ hj => hbytes j hj⟩

end CString

/-- Two strings compare equal when they have the same content. -/
theorem strcmp_eq_zero_iff (s t : CString) : strcmp s t = 0 ↔ s.content = t.content := by
  have hend : s.bytes (0 + s.bound) = 0 ∨ t.bytes (0 + s.bound) = 0 :=
    Or.inl (by rw [Nat.zero_add, s.terminated])
  rw [strcmp, CString.strcmpFrom_eq_zero_iff s.bound 0 hend, CString.sameFrom_zero_iff]

/-! ## Searches for a character -/

/-- The search stops at the first place with the character or the terminator, when it gets so
far. -/
theorem strchrFrom_eq {s : Bytes} {c : Byte} {k : ℕ} (n i : ℕ) (hi : i ≤ k)
    (hbefore : ∀ j, i ≤ j → j < k → s j ≠ c ∧ s j ≠ 0) (hk : s k = c ∨ s k = 0) :
    strchrFrom s c n i = if k < i + n then some (if s k = c then some k else none) else none := by
  induction n generalizing i with
  | zero => rw [strchrFrom, if_neg (by omega)]
  | succ n ih =>
    rw [strchrFrom]
    rcases Nat.eq_or_lt_of_le hi with rfl | hlt
    · rw [if_pos (show i < i + (n + 1) by omega)]
      split_ifs with hc h0
      · rfl
      · rfl
      · exact absurd hk (not_or.2 ⟨hc, h0⟩)
    · obtain ⟨hc, h0⟩ := hbefore i le_rfl hlt
      rw [if_neg hc, if_neg h0, ih (i + 1) hlt fun j hj => hbefore j (by omega),
        show i + 1 + n = i + (n + 1) by omega]

theorem le_of_mem_strchrReads {s : Bytes} {c : Byte} {k : ℕ} (n i : ℕ) (hi : i ≤ k)
    (hk : s k = c ∨ s k = 0) {j : ℕ} (hj : j ∈ strchrReads s c n i) : j ≤ k := by
  induction n generalizing i with
  | zero => simp [strchrReads] at hj
  | succ n ih =>
    rw [strchrReads] at hj
    rcases List.mem_cons.1 hj with rfl | hj
    · exact hi
    · split_ifs at hj with hend
      · simp at hj
      · have hne : i ≠ k := fun h => hend (h ▸ hk)
        exact ih (i + 1) (by omega) hj

/-- From every place of a string on, the search comes to the character or to the end. -/
theorem exists_strchr_stop (s : CString) (c : Byte) {i : ℕ} (hi : i ≤ strlen s) :
    ∃ k, i ≤ k ∧ k ≤ strlen s ∧ (∀ j, i ≤ j → j < k → s.bytes j ≠ c ∧ s.bytes j ≠ 0) ∧
      (s.bytes k = c ∨ s.bytes k = 0) := by
  have hend := s.endsAt_strlen
  have hex : ∃ k, i ≤ k ∧ (s.bytes k = c ∨ s.bytes k = 0) := ⟨strlen s, hi, Or.inr hend.2.1⟩
  refine ⟨Nat.find hex, (Nat.find_spec hex).1, Nat.find_min' hex ⟨hi, Or.inr hend.2.1⟩,
    fun j hij hj => ?_, (Nat.find_spec hex).2⟩
  exact not_or.1 fun hstop => Nat.find_min hex hj ⟨hij, hstop⟩

/-- A string is no longer than its bound. -/
theorem strlen_le_bound (s : CString) : strlen s ≤ s.bound := by
  by_contra hlt
  exact s.endsAt_strlen.2.2 s.bound (Nat.zero_le _) (Nat.lt_of_not_le hlt) s.terminated

/-- A character is found when it is one of the content. -/
theorem strchr_isSome_iff {s : CString} {c : Byte} (hc : c ≠ 0) :
    (strchr s c).isSome ↔ c ∈ s.content := by
  obtain ⟨k, -, hk, hbefore, hstop⟩ := exists_strchr_stop s c (Nat.zero_le _)
  have hbound := strlen_le_bound s
  rw [strchr, strchrFrom_eq _ 0 (Nat.zero_le k) hbefore hstop, if_pos (by omega),
    CString.content, List.mem_map]
  split_ifs with hfound
  · have hlt : k < strlen s :=
      hk.lt_of_ne fun heq => hc (hfound.symm.trans (heq ▸ s.endsAt_strlen.2.1))
    exact iff_of_true rfl ⟨k, List.mem_range.2 hlt, hfound⟩
  · refine iff_of_false Bool.false_ne_true ?_
    rintro ⟨j, hj, hjc⟩
    have hends : CString.EndsAt s.bytes 0 k :=
      ⟨Nat.zero_le k, hstop.resolve_left hfound, fun i hi hik => (hbefore i hi hik).2⟩
    have hend : k = strlen s := hends.unique s.endsAt_strlen
    exact (hbefore j (Nat.zero_le j) (hend ▸ List.mem_range.1 hj)).1 hjc

/-! ## What strcpy writes -/

/-- The number of bytes that are copied : up to the first zero behind the first byte. -/
def CopySource.copied (src : CopySource) : ℕ :=
  strlenFrom src.bytes (src.bound - 1) 1

theorem le_strlenFrom (s : Bytes) (n i : ℕ) : i ≤ strlenFrom s n i := by
  induction n generalizing i with
  | zero => exact le_rfl
  | succ n ih =>
    rw [strlenFrom]
    split_ifs
    · exact (Nat.le_succ i).trans (ih (i + 1))
    · exact le_rfl

theorem strlenFrom_le (s : Bytes) (n i : ℕ) : strlenFrom s n i ≤ i + n := by
  induction n generalizing i with
  | zero => exact le_rfl
  | succ n ih =>
    rw [strlenFrom]
    split_ifs
    · exact (ih (i + 1)).trans_eq (by omega)
    · exact Nat.le_add_right i (n + 1)

theorem strlenFrom_congr {s t : Bytes} (n i : ℕ) (h : ∀ k, i ≤ k → k < i + n → s k = t k) :
    strlenFrom s n i = strlenFrom t n i := by
  induction n generalizing i with
  | zero => rfl
  | succ n ih =>
    rw [strlenFrom, strlenFrom, h i le_rfl (by omega),
      ih (i + 1) fun k hlo hhi => h k (by omega) (by omega)]

theorem mem_store_byte (dest i : ℕ) (src : Bytes) (m : StoreLog Byte) (k : ℕ) :
    (m.store (dest + i) (src i)).mem k =
      if dest + i ≤ k ∧ k < dest + (i + 1) then src (k - dest) else m.mem k := by
  rw [StoreLog.mem_store_apply]
  by_cases hk : k = dest + i
  · rw [if_pos hk, if_pos (by omega), hk, Nat.add_sub_cancel_left]
  · rw [if_neg hk, if_neg (by omega)]

/-- Each byte after the loop of `strcpy` : one that is copied, or what was there. -/
theorem mem_strcpyFrom (dest : ℕ) (src : Bytes) (n i : ℕ) (m : StoreLog Byte) (k : ℕ) :
    (strcpyFrom dest src n i m).mem k =
      if dest + i ≤ k ∧ k < dest + strlenFrom src n (i + 1) then src (k - dest) else m.mem k := by
  induction n generalizing i m with
  | zero => exact mem_store_byte dest i src m k
  | succ n ih =>
    rw [strcpyFrom, strlenFrom]
    by_cases hnext : src (i + 1) ≠ 0
    · have hle := le_strlenFrom src n (i + 1 + 1)
      rw [if_pos hnext, if_pos hnext, ih, mem_store_byte]
      by_cases hlate : dest + (i + 1) ≤ k
      · rw [if_neg (show ¬(dest + i ≤ k ∧ k < dest + (i + 1)) by omega)]
        refine if_congr ?_ rfl rfl
        omega
      · rw [if_neg (by omega)]
        refine if_congr ?_ rfl rfl
        omega
    · rw [if_neg hnext, if_neg hnext, mem_store_byte]

/-- The places that the loop stores to, in order. -/
theorem stores_strcpyFrom (dest : ℕ) (src : Bytes) (n i : ℕ) (m : StoreLog Byte) :
    (strcpyFrom dest src n i m).stores =
      m.stores ++ List.range' (dest + i) (strlenFrom src n (i + 1) - i) := by
  induction n generalizing i m with
  | zero =>
    rw [strcpyFrom, strlenFrom, Nat.add_sub_cancel_left]
    rfl
  | succ n ih =>
    rw [strcpyFrom, strlenFrom]
    by_cases hnext : src (i + 1) ≠ 0
    · have hle := le_strlenFrom src n (i + 1 + 1)
      have hlen : strlenFrom src n (i + 1 + 1) - i =
          strlenFrom src n (i + 1 + 1) - (i + 1) + 1 := by omega
      rw [if_pos hnext, if_pos hnext, ih, hlen, List.range'_succ]
      simp [StoreLog.store, Nat.add_assoc]
    · rw [if_neg hnext, if_neg hnext, Nat.add_sub_cancel_left]
      rfl

/-- `strcpy` copies the first byte always and the others up to the terminator, which it leaves
out. -/
theorem mem_strcpy (m : StoreLog Byte) (dest : ℕ) (src : CopySource) (k : ℕ) :
    (strcpy m dest src).mem k =
      if dest ≤ k ∧ k < dest + src.copied then src.bytes (k - dest) else m.mem k :=
  mem_strcpyFrom dest src.bytes (src.bound - 1) 0 m k

/-- `strcpy` stays within a set of places when all that it copies to are in it. -/
theorem within_strcpy {p : ℕ → Prop} {m : StoreLog Byte} {dest : ℕ} {src : CopySource} :
    (strcpy m dest src).Within p ↔
      m.Within p ∧ ∀ k, dest ≤ k → k < dest + src.copied → p k := by
  rw [StoreLog.Within, strcpy, stores_strcpyFrom]
  simp [StoreLog.Within, CopySource.copied, or_imp, forall_and, List.mem_range'_1]

/-- All writes stay below `b` when the last one does. -/
theorem within_strcpy_lt_iff {b : ℕ} {m : StoreLog Byte} {dest : ℕ} {src : CopySource} :
    (strcpy m dest src).Within (· < b) ↔ m.Within (· < b) ∧ dest + src.copied ≤ b := by
  have hpos : 1 ≤ src.copied := le_strlenFrom src.bytes (src.bound - 1) 1
  rw [within_strcpy]
  refine and_congr_right fun _ => ⟨fun h => ?_, fun h k _ hk => Nat.lt_of_lt_of_le hk h⟩
  have hlast := h (dest + (src.copied - 1)) (by omega) (by omega)
  omega

/-- A string that is not empty is copied without its terminator. -/
theorem CopySource.copied_eq_strlen {src : CopySource} (h : 0 < strlen src.toCString) :
    src.copied = strlen src.toCString := by
  have hend := src.endsAt_strlen
  have hfirst : src.bytes 0 ≠ 0 := hend.2.2 0 le_rfl h
  have hbound : src.bytes (1 + (src.bound - 1)) = 0 := by
    rw [Nat.add_sub_cancel' src.bound_pos, src.terminated]
  exact (CString.endsAt_strlenFrom (src.bound - 1) 1 hbound).unique
    ((CString.endsAt_succ_iff hfirst).1 hend)

end Scorch
