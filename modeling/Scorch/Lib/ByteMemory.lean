import Mathlib.Data.BitVec
import Mathlib.Tactic.IntervalCases

/-!
# Byte-addressed memory of a 32-bit machine

A memory is a byte for every 32-bit address. Words are four bytes, least significant
first, at any address, and addresses wrap at `2^32`.

`store32_apply` and `fill_apply` say what a store leaves at every address, and the load
rules are read off them : a load sees a store to the same address
(`load32_store32_self`) and no store whose four bytes are apart from its own
(`load32_store32_of_apart`), and a block fill is seen inside the block and nowhere else
(`fill_of_mem`, `load32_fill_of_apart`).
-/

namespace ByteMemory

/-- A byte. -/
abbrev Byte := BitVec 8

/-- A word of 32 bits, which is also an address. -/
abbrev Word := BitVec 32

/-- A mask for the low `k` bits takes the remainder. -/
theorem toNat_and_low {w k : ℕ} (x : BitVec w) {mask : BitVec w} (hmask : mask.toNat = 2 ^ k - 1) :
    (x &&& mask).toNat = x.toNat % 2 ^ k := by
  rw [BitVec.toNat_and, hmask, Nat.and_two_pow_sub_one_eq_mod]

/-- The complement of a mask for the low `k` bits rounds down. -/
theorem toNat_and_not_low {w k : ℕ} (x mask : BitVec w)
    (hmask : ∀ t < w, mask.getLsbD t = decide (t < k)) :
    (x &&& ~~~mask).toNat = x.toNat / 2 ^ k * 2 ^ k := by
  have h : x &&& ~~~mask = x >>> k <<< k := by
    refine BitVec.eq_of_getLsbD_eq fun t ht => ?_
    rw [BitVec.getLsbD_and, BitVec.getLsbD_not, hmask t ht, BitVec.getLsbD_shiftLeft,
      BitVec.getLsbD_ushiftRight]
    by_cases hlow : t < k
    · simp [hlow]
    · simp [hlow, ht, show k + (t - k) = t by omega]
  rw [h, BitVec.toNat_shiftLeft, BitVec.toNat_ushiftRight, Nat.shiftRight_eq_div_pow,
    Nat.shiftLeft_eq, Nat.mod_eq_of_lt (Nat.lt_of_le_of_lt (Nat.div_mul_le_self _ _) x.isLt)]

/-- A byte below other bits. -/
theorem toNat_append_byte {k : ℕ} (x : BitVec k) (y : Byte) :
    (x ++ y).toNat = x.toNat * 256 + y.toNat := by
  rw [BitVec.toNat_append, ← Nat.shiftLeft_add_eq_or_of_lt y.isLt, Nat.shiftLeft_eq]

/-- A 16-bit number from its bytes. -/
theorem append_bytes (w : BitVec 16) :
    ((w >>> 8).setWidth 8 : Byte) ++ (w.setWidth 8 : Byte) = w := by
  apply BitVec.eq_of_toNat_eq
  rw [toNat_append_byte]
  bv_omega

/-- A number below `2 ^ 32` as a word. -/
theorem toNat_ofNat_of_lt {n : ℕ} (h : n < 2 ^ 32) : (BitVec.ofNat 32 n).toNat = n := by
  rw [BitVec.toNat_ofNat, Nat.mod_eq_of_lt h]

/-- A word is such a number when their values agree. -/
theorem ofNat_eq_iff_eq_toNat {n : ℕ} {w : Word} (h : n < 2 ^ 32) :
    BitVec.ofNat 32 n = w ↔ n = w.toNat := by
  rw [← BitVec.toNat_inj, toNat_ofNat_of_lt h]

/-- A byte for every address. -/
abbrev Mem := Word → Byte

namespace Mem

/-- Write one byte. -/
def store8 (m : Mem) (a : Word) (b : Byte) : Mem :=
  fun x => if x = a then b else m x

/-- The little-endian word at `a`. -/
def load32 (m : Mem) (a : Word) : Word :=
  m (a + 3) ++ m (a + 2) ++ m (a + 1) ++ m a

/-- Byte `k` of a word, least significant first. -/
def byteOf (w : Word) (k : ℕ) : Byte :=
  w.extractLsb' (8 * k) 8

/-- Write the little-endian word `w` at `a`. -/
def store32 (m : Mem) (a w : Word) : Mem :=
  (((m.store8 a (byteOf w 0)).store8 (a + 1) (byteOf w 1)).store8 (a + 2) (byteOf w 2)).store8
    (a + 3) (byteOf w 3)

/-- Write `n` copies of the byte `b`, from `a` upwards. -/
def fill (m : Mem) (a : Word) (b : Byte) : ℕ → Mem
  | 0 => m
  | n + 1 => fill (m.store8 a b) (a + 1) b n

/-- The addresses `a`, …, `a + n - 1`. -/
def block (a : Word) (n : ℕ) : Set Word :=
  {x | (x - a).toNat < n}

/-- A place in a block, by its distance from the start. -/
theorem mem_block {a x : Word} {n : ℕ} : x ∈ block a n ↔ (x - a).toNat < n :=
  Iff.rfl

instance (a x : Word) (n : ℕ) : Decidable (x ∈ block a n) :=
  inferInstanceAs (Decidable ((x - a).toNat < n))

/-- A block that ends before another begins shares no address with it. -/
theorem notMem_block_of_le {a b x : Word} {n k : ℕ} (hle : a.toNat + n ≤ b.toNat)
    (hend : b.toNat + k ≤ 2 ^ 32) (hx : x ∈ block a n) : x ∉ block b k := by
  rw [mem_block] at hx ⊢
  bv_omega

/-- The four bytes of the words at `a` and `b` have no address in common. -/
def Apart (a b : Word) : Prop :=
  4 ≤ (b - a).toNat ∧ 4 ≤ (a - b).toNat

theorem Apart.symm {a b : Word} (h : Apart a b) : Apart b a :=
  ⟨h.2, h.1⟩

/-- Two aligned words are one or apart. -/
theorem eq_or_apart {a b : Word} (ha : a.toNat % 4 = 0) (hb : b.toNat % 4 = 0) :
    a = b ∨ Apart a b := by
  by_cases h : a = b
  · exact Or.inl h
  · have h' := BitVec.toNat_ne_iff_ne.2 h
    refine Or.inr ⟨?_, ?_⟩ <;> bv_omega

/-! ## Words and their bytes -/

theorem load32_eq_of_bytes {m m' : Mem} {a : Word} (h : ∀ x ∈ block a 4, m x = m' x) :
    m.load32 a = m'.load32 a := by
  have h0 : m a = m' a := h a (by rw [mem_block]; bv_omega)
  have h1 : m (a + 1) = m' (a + 1) := h _ (by rw [mem_block]; bv_omega)
  have h2 : m (a + 2) = m' (a + 2) := h _ (by rw [mem_block]; bv_omega)
  have h3 : m (a + 3) = m' (a + 3) := h _ (by rw [mem_block]; bv_omega)
  simp only [load32, h0, h1, h2, h3]

/-- Bit `8 k + t` of a word is bit `t` of its byte `k`. -/
theorem getLsbD_load32 (m : Mem) (a : Word) {k t : ℕ} (hk : k < 4) (ht : t < 8) :
    (m.load32 a).getLsbD (8 * k + t) = (m (a + BitVec.ofNat 32 k)).getLsbD t := by
  unfold load32
  simp only [BitVec.getLsbD_append]
  interval_cases k
  · simp [ht]
  · simp [show ¬8 * 1 + t < 8 by omega, show 8 * 1 + t - 8 = t by omega, ht]
  · simp [show ¬8 * 2 + t < 8 by omega, show ¬8 * 2 + t - 8 < 8 by omega,
      show 8 * 2 + t - 8 - 8 = t by omega, ht]
  · simp [show ¬8 * 3 + t < 8 by omega, show ¬8 * 3 + t - 8 < 8 by omega,
      show ¬8 * 3 + t - 8 - 8 < 8 by omega, show 8 * 3 + t - 8 - 8 - 8 = t by omega]

/-- A word is zero exactly when its four bytes are. -/
theorem load32_eq_zero_iff (m : Mem) (a : Word) :
    m.load32 a = 0 ↔ ∀ x ∈ block a 4, m x = 0 := by
  constructor
  · intro h x hx
    obtain ⟨k, hk, rfl⟩ : ∃ k < 4, x = a + BitVec.ofNat 32 k :=
      ⟨(x - a).toNat, hx, by rw [BitVec.ofNat_toNat, BitVec.setWidth_eq]; bv_omega⟩
    refine BitVec.eq_of_getLsbD_eq fun t ht => ?_
    rw [← getLsbD_load32 m a hk ht, h]
    simp
  · intro h
    have hm : m.load32 a = load32 (fun _ => 0) a :=
      load32_eq_of_bytes fun x hx => h x hx
    rw [hm]
    show (0#8 ++ 0#8 ++ 0#8 ++ 0#8 : Word) = 0
    decide

/-! ## Stores -/

/-- What a word store leaves at every address. -/
theorem store32_apply (m : Mem) (a w x : Word) :
    m.store32 a w x = if (x - a).toNat < 4 then byteOf w (x - a).toNat else m x := by
  obtain ⟨d, rfl⟩ : ∃ d, x = a + d := ⟨x - a, by bv_omega⟩
  have hd : a + d - a = d := by bv_omega
  have hself : ∀ k : Word, (a + d = a + k) = (d = k) := fun k => by simp
  have hzero : (a + d = a) = (d = 0) := by simp
  simp only [store32, store8, hd, hself, hzero]
  by_cases h3 : d = 3
  · simp [h3]
  by_cases h2 : d = 2
  · simp [h2]
  by_cases h1 : d = 1
  · simp [h1]
  by_cases h0 : d = 0
  · simp [h0]
  have hge : ¬d.toNat < 4 := by bv_omega
  rw [if_neg h3, if_neg h2, if_neg h1, if_neg h0, if_neg hge]

/-- A store leaves the other bytes alone. -/
theorem store32_of_notMem {m : Mem} {a w x : Word} (h : x ∉ block a 4) :
    m.store32 a w x = m x := by
  rw [store32_apply, if_neg (mt mem_block.2 h)]

/-- A load sees the word stored at its own address. -/
@[simp] theorem load32_store32_self (m : Mem) (a w : Word) : (m.store32 a w).load32 a = w := by
  refine BitVec.eq_of_getLsbD_eq fun i hi => ?_
  obtain ⟨k, t, hk, ht, rfl⟩ : ∃ k t, k < 4 ∧ t < 8 ∧ i = 8 * k + t :=
    ⟨i / 8, i % 8, by omega, by omega, by omega⟩
  have hk' : (a + BitVec.ofNat 32 k - a).toNat = k := by
    simp
    omega
  rw [getLsbD_load32 _ _ hk ht, store32_apply, hk', if_pos hk, byteOf]
  simp [ht]

/-- A load sees no store to a word apart from its own. -/
theorem load32_store32_of_apart {m : Mem} {a b w : Word} (h : Apart a b) :
    (m.store32 a w).load32 b = m.load32 b := by
  refine load32_eq_of_bytes fun x hx => store32_of_notMem fun hxa => ?_
  obtain ⟨h1, h2⟩ := h
  rw [mem_block] at hx hxa
  bv_omega

/-- The second of two stores to one address stays. -/
theorem store32_store32_self (m : Mem) (a v w : Word) :
    (m.store32 a v).store32 a w = m.store32 a w := by
  funext x
  rw [store32_apply, store32_apply, store32_apply]
  split_ifs <;> rfl

/-- Storing what a load read changes nothing. -/
theorem store32_load32_self (m : Mem) (a : Word) : m.store32 a (m.load32 a) = m := by
  funext x
  rw [store32_apply]
  split_ifs with h
  · have hx : a + BitVec.ofNat 32 (x - a).toNat = x := by
      rw [BitVec.ofNat_toNat, BitVec.setWidth_eq]
      bv_omega
    refine BitVec.eq_of_getLsbD_eq fun t ht => ?_
    have hbit := getLsbD_load32 m a h ht
    rw [hx] at hbit
    simpa [byteOf, ht] using hbit
  · rfl

/-! ## Block fills -/

/-- What a fill leaves at every address. -/
theorem fill_apply (b : Byte) :
    ∀ (n : ℕ) (m : Mem) (a x : Word), n ≤ 2 ^ 32 →
      m.fill a b n x = if (x - a).toNat < n then b else m x
  | 0, m, a, x, _ => by simp [fill]
  | n + 1, m, a, x, hn => by
    rw [fill, fill_apply b n _ _ _ (by omega)]
    by_cases hxa : x = a
    · subst hxa
      simp [store8]
    · have hlt : (x - (a + 1)).toNat < n ↔ (x - a).toNat < n + 1 := by
        have hne := BitVec.toNat_ne_iff_ne.2 hxa
        bv_omega
      simp only [hlt, store8, if_neg hxa]

theorem fill_of_notMem {m : Mem} {a x : Word} {b : Byte} {n : ℕ} (hn : n ≤ 2 ^ 32)
    (h : x ∉ block a n) : m.fill a b n x = m x := by
  rw [fill_apply b n m a x hn, if_neg (mt mem_block.2 h)]

theorem fill_of_mem {m : Mem} {a x : Word} {b : Byte} {n : ℕ} (hn : n ≤ 2 ^ 32)
    (h : x ∈ block a n) : m.fill a b n x = b := by
  rw [fill_apply b n m a x hn, if_pos (mem_block.1 h)]

/-- A load that meets no byte of a filled block does not see the fill. -/
theorem load32_fill_of_apart {m : Mem} {a c : Word} {b : Byte} {n : ℕ} (hn : n ≤ 2 ^ 32)
    (h : ∀ x ∈ block c 4, x ∉ block a n) : (m.fill a b n).load32 c = m.load32 c :=
  load32_eq_of_bytes fun x hx => fill_of_notMem hn (h x hx)

/-! ## Memory from words -/

/-- The memory whose aligned words are given. -/
def ofWords (w : ℕ → Word) : Mem := fun a =>
  byteOf (w (a.toNat / 4)) (a.toNat % 4)

/-- Memory made of words, read at a multiple of four. -/
theorem load32_ofWords (w : ℕ → Word) {a : Word} (ha : a.toNat % 4 = 0) :
    (ofWords w).load32 a = w (a.toNat / 4) := by
  have hbytes : ∀ x ∈ block a 4, ofWords w x = (ofWords w).store32 a (w (a.toNat / 4)) x := by
    intro x hx
    rw [mem_block] at hx
    have hdiv : x.toNat / 4 = a.toNat / 4 := by bv_omega
    have hmod : x.toNat % 4 = (x - a).toNat := by bv_omega
    rw [store32_apply, if_pos hx, ofWords, hdiv, hmod]
  rw [load32_eq_of_bytes hbytes, load32_store32_self]

end Mem

end ByteMemory
