import Scorch.Lib.MemoryFrame

/-!
# Copying in memory

A copy from one block to another, a word at a time (`copyWords`) or a byte at a time
(`copyBytes`), upwards. When the two blocks have no address in common, the copy leaves in the
one what the other holds, and nothing else changes (`copyWords_apply`, `copyBytes_apply`).
-/

namespace ByteMemory

namespace Mem

/-- Copy `n` words from `src` to `dst`, one behind the other. -/
def copyWords (m : Mem) (dst src : Word) : ℕ → Mem
  | 0 => m
  | n + 1 => copyWords (m.store32 dst (m.load32 src)) (dst + 4) (src + 4) n

/-- Copy `n` bytes from `src` to `dst`, one behind the other. -/
def copyBytes (m : Mem) (dst src : Word) : ℕ → Mem
  | 0 => m
  | n + 1 => copyBytes (m.store8 dst (m src)) (dst + 1) (src + 1) n

variable {m : Mem} {dst src x : Word} {n : ℕ}

/-- The bytes of a word that was read. -/
theorem byteOf_load32 (m : Mem) (a : Word) {k : ℕ} (hk : k < 4) :
    byteOf (m.load32 a) k = m (a + BitVec.ofNat 32 k) := by
  refine BitVec.eq_of_getLsbD_eq fun t ht => ?_
  rw [← getLsbD_load32 m a hk ht, byteOf]
  simp [ht]

/-- A word copied, as all addresses see it. -/
theorem store32_load32_apply (m : Mem) (dst src x : Word) :
    m.store32 dst (m.load32 src) x =
      if (x - dst).toNat < 4 then m (src + (x - dst)) else m x := by
  rw [store32_apply]
  split_ifs with hx
  · rw [byteOf_load32 m src hx, BitVec.ofNat_toNat, BitVec.setWidth_eq]
  · rfl

/-- Each byte after a copy of words between blocks that do not overlap. -/
theorem copyWords_apply (hn : 4 * n ≤ 2 ^ 32) (h : ∀ x ∈ block src (4 * n), x ∉ block dst (4 * n))
    (x : Word) : m.copyWords dst src n x =
      if (x - dst).toNat < 4 * n then m (src + (x - dst)) else m x := by
  induction n generalizing m dst src with
  | zero => rw [copyWords, if_neg (by omega)]
  | succ n ih =>
    have hsrc : ∀ d : Word, d.toNat < 4 * n → m.store32 dst (m.load32 src) (src + 4 + d) =
        m (src + 4 + d) := fun d hd => by
      have hnot := h (src + 4 + d) (mem_block.2 (by bv_omega))
      rw [mem_block] at hnot
      rw [store32_load32_apply, if_neg (by omega)]
    have hrest : ∀ y ∈ block (src + 4) (4 * n), y ∉ block (dst + 4) (4 * n) := fun y hy hyd => by
      rw [mem_block] at hy hyd
      refine h y (mem_block.2 ?_) (mem_block.2 ?_)
      · bv_omega
      · bv_omega
    rw [copyWords, ih (by omega) hrest]
    rcases Nat.lt_or_ge (x - (dst + 4)).toNat (4 * n) with hx | hx
    · rw [if_pos hx, if_pos (by bv_omega), hsrc _ hx]
      congr 1
      bv_omega
    · rw [if_neg (Nat.not_lt.2 hx), store32_load32_apply]
      refine if_congr ?_ rfl rfl
      bv_omega

theorem copyBytes_apply (hn : n ≤ 2 ^ 32) (h : ∀ x ∈ block src n, x ∉ block dst n) (x : Word) :
    m.copyBytes dst src n x = if (x - dst).toNat < n then m (src + (x - dst)) else m x := by
  induction n generalizing m dst src with
  | zero => rw [copyBytes, if_neg (by omega)]
  | succ n ih =>
    have hstore : ∀ y, m.store8 dst (m src) y = if y = dst then m src else m y := fun y => rfl
    have hsrc : ∀ d : Word, d.toNat < n → m.store8 dst (m src) (src + 1 + d) = m (src + 1 + d) :=
      fun d hd => by
        have hnot := h (src + 1 + d) (mem_block.2 (by bv_omega))
        rw [mem_block] at hnot
        rw [hstore, if_neg]
        intro heq
        exact hnot (by rw [heq]; simp)
    have hrest : ∀ y ∈ block (src + 1) n, y ∉ block (dst + 1) n := fun y hy hyd => by
      rw [mem_block] at hy hyd
      refine h y (mem_block.2 ?_) (mem_block.2 ?_)
      · bv_omega
      · bv_omega
    rw [copyBytes, ih (by omega) hrest]
    rcases Nat.lt_or_ge (x - (dst + 1)).toNat n with hx | hx
    · rw [if_pos hx, if_pos (by bv_omega), hsrc _ hx]
      congr 1
      bv_omega
    · rw [if_neg (Nat.not_lt.2 hx), hstore]
      rcases eq_or_ne x dst with rfl | hne
      · rw [if_pos rfl, if_pos (by simp)]
        simp
      · rw [if_neg hne, if_neg]
        bv_omega

/-- Words first, and then bytes behind them. -/
theorem copyWords_copyBytes_apply {r : ℕ} {d : Word} (hd : d.toNat = 4 * n)
    (hn : 4 * n + r < 2 ^ 32) (h : ∀ x ∈ block src (4 * n + r), x ∉ block dst (4 * n + r))
    (x : Word) : (m.copyWords dst src n).copyBytes (dst + d) (src + d) r x =
      if (x - dst).toNat < 4 * n + r then m (src + (x - dst)) else m x := by
  have hwords : ∀ y ∈ block src (4 * n), y ∉ block dst (4 * n) := fun y hy hyd => by
    rw [mem_block] at hy hyd
    exact h y (mem_block.2 (by omega)) (mem_block.2 (by omega))
  have hbytes : ∀ y ∈ block (src + d) r, y ∉ block (dst + d) r := fun y hy hyd => by
    rw [mem_block] at hy hyd
    exact h y (mem_block.2 (by bv_omega)) (mem_block.2 (by bv_omega))
  rw [copyBytes_apply (by omega) hbytes, copyWords_apply (by omega) hwords,
    copyWords_apply (by omega) hwords]
  rcases Nat.lt_or_ge (x - (dst + d)).toNat r with hx | hx
  · have heq : src + d + (x - (dst + d)) = src + (x - dst) := by bv_omega
    have hsrc := h (src + (x - dst)) (mem_block.2 (by bv_omega))
    rw [mem_block] at hsrc
    rw [if_pos hx, heq, if_neg (by omega), if_pos (by bv_omega)]
  · rw [if_neg (Nat.not_lt.2 hx)]
    refine if_congr ?_ rfl rfl
    bv_omega

end Mem

end ByteMemory
