import Scorch.FirstFit

/-!
# One block

What `pmmngr_alloc_block` does when its search finds a frame, undone by `pmmngr_free_block`,
and compared with `pmmngr_alloc_blocks (1)`.

Clearing the bit that was set gives the word of the map back as it was
(`mmapUnset_mmapSet`), so a free undoes an allocation just when the address it is given is
in the frame that was found (`pmmngrFreeBlock_granted_iff`). An address keeps 20 bits of the
frame number : below frame `2^20` the address returned is always such an address
(`pmmngrAllocBlock_first_fit`).

The guards of the two allocators are `<= 0` and `<= size`. They differ when one frame is
free, and nothing else does (`pmmngrAllocBlocks_one_iff`).
-/

open ByteMemory

namespace Scorch

namespace Pmm

/-! ## Words of the map put back -/

theorem setMapWord_setMapWord (s : Pmm) (i v w : Word) :
    (s.setMapWord i v).setMapWord i w = s.setMapWord i w := by
  simp only [setMapWord, Mem.store32_store32_self]

/-- Storing what is there changes nothing. -/
theorem setMapWord_mapWord (s : Pmm) (i : Word) : s.setMapWord i (s.mapWord i) = s := by
  simp only [setMapWord, mapWord, Mem.store32_load32_self]

/-- Clearing a bit that was clear before it was set. -/
theorem mmapUnset_mmapSet {s : Pmm} {bit : Word} (h : s.frameUsed (bitNumber bit) = false) :
    mmapUnset (mmapSet s bit) bit = s := by
  rw [frameUsed_bitNumber] at h
  have hsame : (s.mapWord (bit.sdiv 32) ||| bitMask (bit.srem 32)) &&& ~~~bitMask (bit.srem 32) =
      s.mapWord (bit.sdiv 32) := by
    refine BitVec.eq_of_getLsbD_eq fun t ht => ?_
    rw [BitVec.getLsbD_and, BitVec.getLsbD_or, BitVec.getLsbD_not, getLsbD_bitMask _ ht]
    by_cases hbit : t = (bit.srem 32).toNat % 32
    · rw [hbit, h, decide_eq_true rfl, Bool.not_true, Bool.and_false, Bool.and_false]
    · rw [decide_eq_false hbit, decide_eq_true ht, Bool.or_false, Bool.not_false, Bool.and_true,
        Bool.and_true]
  rw [mmapUnset, mmapSet, setMapWord_setMapWord, mapWord_setMapWord_self _ _ rfl, hsame,
    setMapWord_mapWord]

/-! ## Allocation and free -/

/-- A free undoes the allocation of the least clear frame just when it is given an address in
that frame. -/
theorem pmmngrFreeBlock_granted_iff {s : Pmm} {f : ℕ} (hf : IsLeast s.clear f) (p : Word) :
    pmmngrFreeBlock (s.granted f 1) p = s ↔ p.toNat / 4096 = f := by
  have hp : p.toNat / 4096 < 2 ^ 20 := by omega
  have hlim := lt_frameLimit_of_isLeast hf
  constructor
  · intro heq
    have hused : insert (bitNumber (BitVec.ofNat 32 f)) s.used \ {p.toNat / 4096} = s.used := by
      rw [← used_granted_one, ← used_pmmngrFreeBlock, heq]
    by_contra hne
    rcases Nat.lt_or_gt_of_ne hne with hlt | hgt
    · -- The frame freed lies below the least clear one : its bit was set before.
      have hmem : p.toNat / 4096 ∈ s.used := by
        refine ⟨by simp only [frameLimit]; omega, ?_⟩
        by_contra hclear
        have := hf.2 ⟨hlt.trans hf.1.1, by simpa using hclear⟩
        omega
      rw [← hused] at hmem
      exact hmem.2 rfl
    · -- The frame freed lies above : the bit of `f` stays set.
      have hmem : f ∈ s.used := by
        rw [← hused, bitNumber_ofNat (by omega)]
        exact ⟨Set.mem_insert f _, fun h => hne (Set.mem_singleton_iff.1 h).symm⟩
      have := hf.1.2
      simp [hmem.2] at this
  · intro heq
    have hbit : p / pmmngrBlockSize = BitVec.ofNat 32 f := by rw [align_eq, heq]
    have hclear : s.frameUsed (bitNumber (BitVec.ofNat 32 f)) = false := by
      rw [bitNumber_ofNat (by omega)]
      exact hf.1.2
    have hcount : s.mmngrUsedBlocks + 1 - 1 = s.mmngrUsedBlocks := by bv_omega
    have hset : s.granted f 1 = { mmapSet s (BitVec.ofNat 32 f) with
        mmngrUsedBlocks := s.mmngrUsedBlocks + 1 } := rfl
    have hunset : pmmngrFreeBlock (s.granted f 1) p =
        { mmapUnset (mmapSet s (BitVec.ofNat 32 f)) (BitVec.ofNat 32 f) with
          mmngrUsedBlocks := s.mmngrUsedBlocks + 1 - 1 } := by
      rw [hset, pmmngrFreeBlock, hbit]
      rfl
    rw [hunset, mmapUnset_mmapSet hclear, hcount]

/-- First fit : the least clear frame is handed out by its address, its bit is the only one
that changes, and freeing the address undoes the call. -/
theorem pmmngrAllocBlock_first_fit {s : Pmm} {f : ℕ} (hfree : pmmngrGetFreeBlockCount s ≠ 0)
    (hf : IsLeast s.clear f) (hlt : f < 2 ^ 20) :
    (pmmngrAllocBlock s).1.toNat = f * 4096 ∧ (pmmngrAllocBlock s).2.used = insert f s.used ∧
      (pmmngrAllocBlock s).2.mmngrUsedBlocks = s.mmngrUsedBlocks + 1 ∧
      pmmngrFreeBlock (pmmngrAllocBlock s).2 (pmmngrAllocBlock s).1 = s := by
  rw [pmmngrAllocBlock_of_isLeast hf (by omega) hfree]
  refine ⟨?_, ?_, rfl, (pmmngrFreeBlock_granted_iff hf _).2 (frameAddr_div hlt)⟩
  · rw [toNat_frameAddr, Nat.mod_eq_of_lt hlt]
  · rw [used_granted_one, bitNumber_ofNat (by omega)]

/-- One word of map with only frame `1` clear, and a free count of one. -/
def lastFramePmm : Pmm where
  mem a := if a = 0 then 0xfd else 0xff
  mmngrMemorySize := 0
  mmngrUsedBlocks := 31
  mmngrMaxBlocks := 32
  mmngrMemoryMap := 0

/-- One frame is clear, the last of the word. -/
theorem isLeast_clear_lastFramePmm : IsLeast lastFramePmm.clear 1 := by
  refine ⟨⟨by decide, by decide⟩, fun f hf => ?_⟩
  have hzero : f ≠ 0 := by
    rintro rfl
    exact absurd hf.2 (by decide)
  omega

theorem pmmngrAllocBlock_first_fit_lastFrame :
    (pmmngrAllocBlock lastFramePmm).1.toNat = 1 * 4096 ∧
      (pmmngrAllocBlock lastFramePmm).2.used = insert 1 lastFramePmm.used ∧
      (pmmngrAllocBlock lastFramePmm).2.mmngrUsedBlocks = lastFramePmm.mmngrUsedBlocks + 1 ∧
      pmmngrFreeBlock (pmmngrAllocBlock lastFramePmm).2 (pmmngrAllocBlock lastFramePmm).1 =
        lastFramePmm :=
  pmmngrAllocBlock_first_fit (by decide) isLeast_clear_lastFramePmm (by norm_num)

/-! ## Two entry points -/

/-- A run of one block is the least clear frame, unless its number reads as the error. -/
theorem finds_one_iff {s : Pmm} {f : ℕ} :
    s.Finds 1 f ↔ IsLeast s.clear f ∧ BitVec.ofNat 32 f ≠ (-1 : Word) := by
  rw [Finds, runStarts_one]

/-- `pmmngr_alloc_blocks (1)` and `pmmngr_alloc_block` do the same except when one frame is
free and a frame is clear, of an index that is not taken for `-1`. -/
theorem pmmngrAllocBlocks_one_iff (s : Pmm) :
    ((pmmngrAllocBlocks s 1).1 = (pmmngrAllocBlock s).1 ∧
        (pmmngrAllocBlocks s 1).2.mem = (pmmngrAllocBlock s).2.mem ∧
        (pmmngrAllocBlocks s 1).2.mmngrUsedBlocks = (pmmngrAllocBlock s).2.mmngrUsedBlocks) ↔
      pmmngrGetFreeBlockCount s ≠ 1 ∨
        ∀ f, IsLeast s.clear f → BitVec.ofNat 32 f = (-1 : Word) := by
  have hfinds : (∀ f, IsLeast s.clear f → BitVec.ofNat 32 f = (-1 : Word)) ↔
      ∀ f, ¬s.Finds 1 f := by
    simp only [finds_one_iff, not_and, not_not]
  rw [hfinds]
  rcases pmmngrAllocBlock_cases s with ⟨hone, h⟩ | ⟨f, hfree, hf, hone⟩
  · rcases pmmngrAllocBlocks_cases s 1 with ⟨hblocks, -⟩ | ⟨g, hguard, -, hg, -⟩
    · rw [hone, hblocks]
      refine iff_of_true ⟨rfl, rfl, rfl⟩ (h.imp_left fun h0 => ?_)
      rw [h0]
      decide
    · rcases h with h0 | h0
      · rw [h0] at hguard
        exact absurd hguard (by decide)
      · exact absurd hg (h0 g)
  · have hright : (pmmngrGetFreeBlockCount s ≠ 1 ∨ ∀ f, ¬s.Finds 1 f) ↔
        pmmngrGetFreeBlockCount s ≠ 1 :=
      or_iff_left fun h => h f hf
    rw [hright]
    rcases pmmngrAllocBlocks_cases s 1 with ⟨hblocks, h⟩ | ⟨g, hguard, -, hg, hblocks⟩
    · have hle : pmmngrGetFreeBlockCount s ≤ 1 := by
        rcases h with h | h | h
        · exact h
        · exact absurd h (by decide)
        · exact absurd hf (h f)
      have heq : pmmngrGetFreeBlockCount s = 1 := by bv_omega
      rw [hone, hblocks]
      refine iff_of_false (fun h => ?_) (not_not.2 heq)
      have hcount : s.mmngrUsedBlocks = s.mmngrUsedBlocks + 1 := h.2.2
      bv_omega
    · rw [hone, hblocks, hg.unique hf]
      refine iff_of_true ⟨rfl, rfl, rfl⟩ fun heq => ?_
      rw [heq] at hguard
      exact absurd hguard (by decide)

/-- With frame `1` free and no other, one call returns its address and the other null. -/
theorem pmmngrAllocBlocks_one_lastFrame :
    (pmmngrAllocBlock lastFramePmm).1 = 4096 ∧ (pmmngrAllocBlocks lastFramePmm 1).1 = 0 := by
  decide

end Pmm

end Scorch
