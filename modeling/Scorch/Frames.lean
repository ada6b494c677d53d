import Mathlib.Data.Set.Insert
import Mathlib.Data.Set.Card
import Mathlib.Order.CompletePartialOrder
import Mathlib.Order.Interval.Set.Nat
import Scorch.Pmm

/-!
# The frames of the physical memory manager

The bit array as a set of frame numbers. `used s` holds the frames whose bit is set; a
32-bit address space has room for `2^30` words of map, so frame numbers run below `2^35`.
`clear s` holds the frames `mmap_first_free` looks at and finds clear, all those of
the `max_blocks` words it scans.

Each operation of `pmm.c` is given by what it does to `used` : `mmap_set` inserts a
frame, `mmap_unset` removes one, the region loops take or add a range (`used_initBlocks`,
`used_deinitBlocks`). `frameUsed_pmmngrInit` says which bits `pmmngr_init` sets.

The functions that set and clear a range of frames do so bit by bit. Their effect on the set of
frames in use is a union or a difference with an interval, as long as the frame counter does not
turn negative (`used_initBlocks`, `used_deinitBlocks`).
-/

open ByteMemory

namespace Scorch

namespace Pmm

/-- The number of frames the map has room for in a 32-bit address space. -/
abbrev frameLimit : ℕ := 2 ^ 35

/-- The bit of frame `f`. -/
def frameUsed (s : Pmm) (f : ℕ) : Bool :=
  (s.mapWord (BitVec.ofNat 32 (f / 32))).getLsbD (f % 32)

/-- The frames whose bit is set. -/
def used (s : Pmm) : Set ℕ :=
  {f | f < frameLimit ∧ s.frameUsed f = true}

/-- The clear frames among the words the searches scan. -/
def clear (s : Pmm) : Set ℕ :=
  {f | f < s.mmngrMaxBlocks.toNat * 32 ∧ s.frameUsed f = false}

/-- The frame number of the bit that `mmap_set (bit)` sets : the word index is signed
division, the bit index signed remainder, cut to what the address and the shift keep. -/
def bitNumber (bit : Word) : ℕ :=
  (bit.sdiv 32).toNat % 2 ^ 30 * 32 + (bit.srem 32).toNat % 32

/-- A frame is in use when it is within the map and its bit is set. -/
theorem mem_used {s : Pmm} {f : ℕ} : f ∈ s.used ↔ f < frameLimit ∧ s.frameUsed f = true :=
  Iff.rfl

/-- A frame can be handed out when it is below `mmngr_max_blocks` words of the map and its bit
is clear. -/
theorem mem_clear {s : Pmm} {f : ℕ} :
    f ∈ s.clear ↔ f < s.mmngrMaxBlocks.toNat * 32 ∧ s.frameUsed f = false :=
  Iff.rfl

/-! ## Words of the map -/

/-- The address of a word wraps : only the low 30 bits of its index count. -/
theorem mapWord_congr (s : Pmm) {i j : Word} (h : i.toNat % 2 ^ 30 = j.toNat % 2 ^ 30) :
    s.mapWord i = s.mapWord j := by
  have h4 : 4 * i = 4 * j := by bv_omega
  simp only [mapWord, h4]

/-- A word that was stored is read back, also under another index of the same address. -/
theorem mapWord_setMapWord_self (s : Pmm) {i j : Word} (w : Word)
    (h : i.toNat % 2 ^ 30 = j.toNat % 2 ^ 30) : (s.setMapWord i w).mapWord j = w := by
  rw [mapWord_congr _ h.symm]
  simp [mapWord, setMapWord]

/-- A store leaves the words at other addresses alone. -/
theorem mapWord_setMapWord_of_ne (s : Pmm) {i j : Word} (w : Word)
    (h : i.toNat % 2 ^ 30 ≠ j.toNat % 2 ^ 30) :
    (s.setMapWord i w).mapWord j = s.mapWord j := by
  have hapart : Mem.Apart (s.mmngrMemoryMap + 4 * i) (s.mmngrMemoryMap + 4 * j) := by
    constructor <;> bv_omega
  exact Mem.load32_store32_of_apart hapart

/-- The bit of a frame is the bit of its number within the map. -/
theorem frameUsed_mod (s : Pmm) (f : ℕ) : s.frameUsed (f % frameLimit) = s.frameUsed f := by
  have hword : s.mapWord (BitVec.ofNat 32 (f % frameLimit / 32)) =
      s.mapWord (BitVec.ofNat 32 (f / 32)) := by
    apply mapWord_congr
    simp only [BitVec.toNat_ofNat, frameLimit]
    omega
  have hbit : f % frameLimit % 32 = f % 32 := by
    simp only [frameLimit]
    omega
  simp only [frameUsed, hword, hbit]

end Pmm

/-- `1 << (bit % 32)` has just that one bit. -/
theorem getLsbD_bitMask (n : Word) {t : ℕ} (ht : t < 32) :
    (bitMask n).getLsbD t = decide (t = n.toNat % 32) := by
  rw [bitMask, BitVec.getLsbD_shiftLeft, BitVec.getLsbD_one]
  have hn : n.toNat % 32 < 32 := Nat.mod_lt _ (by decide)
  by_cases h : t = n.toNat % 32
  · simp [h, hn]
  · have : t < n.toNat % 32 ∨ t - n.toNat % 32 ≠ 0 := by omega
    rcases this with hlt | hne <;> simp [*]

/-- A test of a word with the mask reads one bit of it. -/
theorem and_bitMask_eq_zero_iff (w n : Word) :
    w &&& bitMask n = 0 ↔ w.getLsbD (n.toNat % 32) = false := by
  have hn : n.toNat % 32 < 32 := Nat.mod_lt _ (by decide)
  refine ⟨fun h => ?_, fun h => BitVec.eq_of_getLsbD_eq fun t ht => ?_⟩
  · have hbit := congrArg (fun w : Word => w.getLsbD (n.toNat % 32)) h
    simp only [BitVec.getLsbD_and, getLsbD_bitMask _ hn, decide_true, Bool.and_true] at hbit
    exact hbit.trans BitVec.getLsbD_zero
  · rw [BitVec.getLsbD_and, getLsbD_bitMask _ ht]
    by_cases htn : t = n.toNat % 32
    · rw [htn, h, Bool.false_and]
      simp
    · simp [htn]

namespace Pmm

/-! ## Setting and clearing a bit -/

/-- Replacing the word of `bit` by one that differs at its own bit only. -/
theorem frameUsed_setMapWord (s : Pmm) (bit w : Word) (b : Bool)
    (hw : ∀ t < 32, w.getLsbD t =
      if t = (bit.srem 32).toNat % 32 then b else (s.mapWord (bit.sdiv 32)).getLsbD t) (f : ℕ) :
    (s.setMapWord (bit.sdiv 32) w).frameUsed f =
      if f % frameLimit = bitNumber bit then b else s.frameUsed f := by
  have hr : (bit.srem 32).toNat % 32 < 32 := Nat.mod_lt _ (by decide)
  have hf : (BitVec.ofNat 32 (f / 32)).toNat % 2 ^ 30 = f / 32 % 2 ^ 30 := by
    rw [BitVec.toNat_ofNat]
    omega
  unfold frameUsed
  by_cases hword : (bit.sdiv 32).toNat % 2 ^ 30 = f / 32 % 2 ^ 30
  · rw [mapWord_setMapWord_self s w (hword.trans hf.symm), hw _ (Nat.mod_lt _ (by decide)),
      mapWord_congr s (hword.trans hf.symm)]
    have hiff : f % 32 = (bit.srem 32).toNat % 32 ↔ f % frameLimit = bitNumber bit := by
      simp only [bitNumber, frameLimit]
      omega
    simp only [hiff]
  · rw [mapWord_setMapWord_of_ne s w fun h => hword (h.trans hf)]
    have hne : f % frameLimit ≠ bitNumber bit := by
      simp only [bitNumber, frameLimit]
      omega
    rw [if_neg hne]

/-- `mmap_set` sets the bit it is asked for and no other. -/
theorem frameUsed_mmapSet (s : Pmm) (bit : Word) (f : ℕ) :
    (mmapSet s bit).frameUsed f =
      if f % frameLimit = bitNumber bit then true else s.frameUsed f := by
  refine frameUsed_setMapWord s bit _ true (fun t ht => ?_) f
  rw [BitVec.getLsbD_or, getLsbD_bitMask _ ht]
  by_cases h : t = (bit.srem 32).toNat % 32
  · rw [if_pos h, decide_eq_true h, Bool.or_true]
  · rw [if_neg h, decide_eq_false h, Bool.or_false]

/-- `mmap_unset` clears the bit it is asked for and no other. -/
theorem frameUsed_mmapUnset (s : Pmm) (bit : Word) (f : ℕ) :
    (mmapUnset s bit).frameUsed f =
      if f % frameLimit = bitNumber bit then false else s.frameUsed f := by
  refine frameUsed_setMapWord s bit _ false (fun t ht => ?_) f
  rw [BitVec.getLsbD_and, BitVec.getLsbD_not, getLsbD_bitMask _ ht]
  by_cases h : t = (bit.srem 32).toNat % 32
  · rw [if_pos h, decide_eq_true h, Bool.not_true, Bool.and_false, Bool.and_false]
  · rw [if_neg h, decide_eq_false h, decide_eq_true ht, Bool.not_false, Bool.true_and,
      Bool.and_true]

/-- The bit that a frame number reaches is within the map. -/
theorem bitNumber_lt (bit : Word) : bitNumber bit < frameLimit := by
  simp only [bitNumber, frameLimit]
  omega

/-- The word and the shift that the signed division and remainder give are those of the bit. -/
theorem frameUsed_bitNumber (s : Pmm) (bit : Word) : s.frameUsed (bitNumber bit) =
    (s.mapWord (bit.sdiv 32)).getLsbD ((bit.srem 32).toNat % 32) := by
  have hdiv : bitNumber bit / 32 = (bit.sdiv 32).toNat % 2 ^ 30 := by
    simp only [bitNumber]
    omega
  have hmod : bitNumber bit % 32 = (bit.srem 32).toNat % 32 := by
    simp only [bitNumber]
    omega
  rw [frameUsed, hdiv, hmod, mapWord_congr s (j := bit.sdiv 32)]
  rw [BitVec.toNat_ofNat]
  omega

theorem mmapTest_eq (s : Pmm) (bit : Word) : mmapTest s bit = s.frameUsed (bitNumber bit) := by
  rw [frameUsed_bitNumber, mmapTest, Bool.eq_iff_iff, bne_iff_ne, Ne, and_bitMask_eq_zero_iff,
    Bool.not_eq_false]

/-- A frame number that is not negative as an `int` is its own bit. -/
theorem bitNumber_of_lt {bit : Word} (h : bit.toNat < 2 ^ 31) : bitNumber bit = bit.toNat := by
  have hmsb : bit.msb = false := BitVec.msb_eq_false_iff_two_mul_lt.2 (by omega)
  have hdiv : bit.sdiv 32 = bit / 32 := by
    rw [BitVec.sdiv_eq, hmsb]
    rfl
  have hrem : bit.srem 32 = bit % 32 := by
    rw [BitVec.srem_eq, hmsb]
    rfl
  have h32 : (32 : Word).toNat = 32 := rfl
  rw [bitNumber, hdiv, hrem, BitVec.toNat_udiv, BitVec.toNat_umod, h32]
  omega

/-- For a frame number that is not negative as an `int` it is the frame itself. -/
theorem bitNumber_ofNat {f : ℕ} (h : f < 2 ^ 31) : bitNumber (BitVec.ofNat 32 f) = f := by
  have hf : (BitVec.ofNat 32 f).toNat = f := by
    rw [BitVec.toNat_ofNat]
    omega
  rw [bitNumber_of_lt (by omega), hf]

/-- `mmap_set` inserts one frame. -/
theorem used_mmapSet (s : Pmm) (bit : Word) :
    (mmapSet s bit).used = insert (bitNumber bit) s.used := by
  ext f
  rw [mem_used, Set.mem_insert_iff, mem_used, frameUsed_mmapSet]
  have hlt := bitNumber_lt bit
  by_cases hf : f < frameLimit
  · rw [Nat.mod_eq_of_lt hf]
    by_cases h : f = bitNumber bit <;> simp [h, hf, hlt]
  · have : f ≠ bitNumber bit := by omega
    simp [hf, this]

/-- `mmap_unset` removes one frame. -/
theorem used_mmapUnset (s : Pmm) (bit : Word) :
    (mmapUnset s bit).used = s.used \ {bitNumber bit} := by
  ext f
  rw [mem_used, Set.mem_sdiff, mem_used, Set.mem_singleton_iff, frameUsed_mmapUnset]
  by_cases hf : f < frameLimit
  · rw [Nat.mod_eq_of_lt hf]
    by_cases h : f = bitNumber bit <;> simp [h, hf]
  · simp [hf]

/-- `mmap_set` takes a frame into use. -/
theorem used_mmapSet_ofNat (s : Pmm) {f : ℕ} (h : f < 2 ^ 31) :
    (mmapSet s (BitVec.ofNat 32 f)).used = insert f s.used := by
  rw [used_mmapSet, bitNumber_ofNat h]

/-! ## What the operations leave alone -/

@[simp] theorem mmngrMaxBlocks_setBlocks :
    ∀ (n : ℕ) (frame : Word) (s : Pmm), (setBlocks n frame s).mmngrMaxBlocks = s.mmngrMaxBlocks
  | 0, _, _ => rfl
  | n + 1, frame, s => mmngrMaxBlocks_setBlocks n (frame + 1) (mmapSet s frame)

@[simp] theorem mmngrUsedBlocks_setBlocks :
    ∀ (n : ℕ) (frame : Word) (s : Pmm), (setBlocks n frame s).mmngrUsedBlocks = s.mmngrUsedBlocks
  | 0, _, _ => rfl
  | n + 1, frame, s => mmngrUsedBlocks_setBlocks n (frame + 1) (mmapSet s frame)

@[simp] theorem mmngrMaxBlocks_unsetBlocks :
    ∀ (n : ℕ) (frame : Word) (s : Pmm),
      (unsetBlocks n frame s).mmngrMaxBlocks = s.mmngrMaxBlocks
  | 0, _, _ => rfl
  | n + 1, frame, s => mmngrMaxBlocks_unsetBlocks n (frame + 1) (mmapUnset s frame)

@[simp] theorem mmngrUsedBlocks_unsetBlocks :
    ∀ (n : ℕ) (frame : Word) (s : Pmm),
      (unsetBlocks n frame s).mmngrUsedBlocks = s.mmngrUsedBlocks
  | 0, _, _ => rfl
  | n + 1, frame, s => mmngrUsedBlocks_unsetBlocks n (frame + 1) (mmapUnset s frame)

/-! ## Ranges of frames -/

/-- The frame counter of a loop goes up by one. -/
theorem ofNat_succ (f : ℕ) : (BitVec.ofNat 32 f + 1 : Word) = BitVec.ofNat 32 (f + 1) :=
  (BitVec.ofNat_add f 1).symm

/-- A range of frames is its first and the rest. -/
theorem Ico_succ_left {f n : ℕ} :
    Set.Ico f (f + (n + 1)) = insert f (Set.Ico (f + 1) (f + 1 + n)) := by
  ext g
  simp only [Set.mem_Ico, Set.mem_insert_iff]
  omega

theorem Ico_one_toNat (f : ℕ) : Set.Ico f (f + (1 : Word).toNat) = {f} := by
  have h1 : (1 : Word).toNat = 1 := rfl
  ext g
  rw [h1, Set.mem_Ico, Set.mem_singleton_iff]
  omega

/-- Setting a range inserts its frames. -/
theorem used_setBlocks :
    ∀ (n f : ℕ) (s : Pmm), f + n ≤ 2 ^ 31 →
      (setBlocks n (BitVec.ofNat 32 f) s).used = s.used ∪ Set.Ico f (f + n)
  | 0, f, s, _ => by simp [setBlocks]
  | n + 1, f, s, h => by
    rw [setBlocks, ofNat_succ, used_setBlocks n (f + 1) _ (by omega),
      used_mmapSet_ofNat _ (by omega), Ico_succ_left, Set.insert_union, Set.union_insert]

/-- Clearing a range removes its frames. -/
theorem used_unsetBlocks :
    ∀ (n f : ℕ) (s : Pmm), f + n ≤ 2 ^ 31 →
      (unsetBlocks n (BitVec.ofNat 32 f) s).used = s.used \ Set.Ico f (f + n)
  | 0, f, s, _ => by simp [unsetBlocks]
  | n + 1, f, s, h => by
    rw [unsetBlocks, ofNat_succ, used_unsetBlocks n (f + 1) _ (by omega), used_mmapUnset,
      bitNumber_ofNat (by omega), Ico_succ_left, Set.sdiff_sdiff, Set.singleton_union]

/-- Setting frames, wherever an `int` sends them, only adds used frames. -/
theorem used_subset_setBlocks :
    ∀ (n : ℕ) (frame : Word) (s : Pmm), s.used ⊆ (setBlocks n frame s).used
  | 0, _, _ => subset_rfl
  | n + 1, frame, s => by
    have hset : s.used ⊆ (mmapSet s frame).used := by
      rw [used_mmapSet]
      exact Set.subset_insert _ _
    exact hset.trans (used_subset_setBlocks n (frame + 1) (mmapSet s frame))

/-- The loop of `pmmngr_init_region` clears a range of frames, and counts each of them as free,
whether it was in use or not. -/
theorem used_initBlocks :
    ∀ (n f : ℕ) (s : Pmm), f + n ≤ 2 ^ 31 →
      (initBlocks n (BitVec.ofNat 32 f) s).used = s.used \ Set.Ico f (f + n) ∧
        (initBlocks n (BitVec.ofNat 32 f) s).mmngrUsedBlocks =
          s.mmngrUsedBlocks - BitVec.ofNat 32 n ∧
        (initBlocks n (BitVec.ofNat 32 f) s).mmngrMaxBlocks = s.mmngrMaxBlocks
  | 0, f, s, _ => by simp [initBlocks]
  | n + 1, f, s, h => by
    set s₁ : Pmm := { mmapUnset s (BitVec.ofNat 32 f) with
      mmngrUsedBlocks := s.mmngrUsedBlocks - 1 }
    obtain ⟨hused, hcount, hmax⟩ := used_initBlocks n (f + 1) s₁ (by omega)
    have hs₁ : s₁.used = s.used \ {f} := by
      rw [← bitNumber_ofNat (show f < 2 ^ 31 by omega)]
      exact used_mmapUnset s _
    rw [initBlocks, ofNat_succ]
    refine ⟨hused.trans ?_, hcount.trans ?_, hmax⟩
    · rw [hs₁, Ico_succ_left, Set.sdiff_sdiff, Set.singleton_union]
    · rw [BitVec.ofNat_add]
      show s.mmngrUsedBlocks - 1 - _ = _
      bv_omega

/-- The loop of `pmmngr_deinit_region` sets a range of frames, and counts each of them as in
use, whether it was free or not. -/
theorem used_deinitBlocks :
    ∀ (n f : ℕ) (s : Pmm), f + n ≤ 2 ^ 31 →
      (deinitBlocks n (BitVec.ofNat 32 f) s).used = s.used ∪ Set.Ico f (f + n) ∧
        (deinitBlocks n (BitVec.ofNat 32 f) s).mmngrUsedBlocks =
          s.mmngrUsedBlocks + BitVec.ofNat 32 n ∧
        (deinitBlocks n (BitVec.ofNat 32 f) s).mmngrMaxBlocks = s.mmngrMaxBlocks
  | 0, f, s, _ => by simp [deinitBlocks]
  | n + 1, f, s, h => by
    set s₁ : Pmm := { mmapSet s (BitVec.ofNat 32 f) with
      mmngrUsedBlocks := s.mmngrUsedBlocks + 1 }
    obtain ⟨hused, hcount, hmax⟩ := used_deinitBlocks n (f + 1) s₁ (by omega)
    have hs₁ : s₁.used = insert f s.used := used_mmapSet_ofNat s (by omega)
    rw [deinitBlocks, ofNat_succ]
    refine ⟨hused.trans ?_, hcount.trans ?_, hmax⟩
    · rw [hs₁, Ico_succ_left, Set.insert_union, Set.union_insert]
    · rw [BitVec.ofNat_add]
      show s.mmngrUsedBlocks + 1 + _ = _
      bv_omega

/-! ## Regions -/

/-- The number of blocks the region loops run over : whole blocks of a size read as an
`int`, none when it is negative. -/
def blockCount (size : Word) : ℕ :=
  rounds (size.sdiv pmmngrBlockSize)

/-- The frames the region loops run over. -/
def regionFrames (base size : Word) : Set ℕ :=
  Set.Ico (base.toNat / 4096) (base.toNat / 4096 + blockCount size)

/-- A size from `2 ^ 31` on is negative as an `int`, and the loops do nothing. -/
theorem blockCount_eq (size : Word) :
    blockCount size = if size.toNat < 2 ^ 31 then size.toNat / 4096 else 0 := by
  have h4096 : (pmmngrBlockSize : Word).toInt = 4096 := rfl
  have hlt := size.isLt
  rw [blockCount, rounds, BitVec.toInt_sdiv, h4096, BitVec.toInt_eq_toNat_cond]
  split_ifs with h1 h2 h2
  · rw [Int.tdiv_eq_ediv_of_nonneg (by omega), Int.bmod_eq_of_le (by omega) (by omega)]
    omega
  · omega
  · omega
  · have hneg : (size.toNat : ℤ) - (2 ^ 32 : ℕ) = -((2 ^ 32 : ℕ) - (size.toNat : ℤ)) := by omega
    rw [hneg, Int.neg_tdiv, Int.tdiv_eq_ediv_of_nonneg (by omega),
      Int.bmod_eq_of_le (by omega) (by omega)]
    omega

/-- The frames of a region may lie behind the last one of the address space. -/
theorem regionFrames_lt {base size : Word} {f : ℕ} (h : f ∈ regionFrames base size) :
    f < 2 ^ 20 + 2 ^ 19 := by
  have h2 := h.2
  rw [blockCount_eq] at h2
  split_ifs at h2 <;> omega

/-- The first frame of a region is its base, rounded down. -/
theorem align_eq (base : Word) : base / pmmngrBlockSize = BitVec.ofNat 32 (base.toNat / 4096) := by
  apply BitVec.eq_of_toNat_eq
  have h4096 : pmmngrBlockSize.toNat = 4096 := rfl
  rw [BitVec.toNat_udiv, BitVec.toNat_ofNat, h4096]
  omega

/-- The frame counter of the two loops does not turn negative. -/
theorem base_add_blockCount_le (base size : Word) :
    base.toNat / 4096 + blockCount size ≤ 2 ^ 31 := by
  rw [blockCount_eq]
  split_ifs <;> omega

/-- Frame `0` stays in use whatever region is freed. -/
theorem used_pmmngrInitRegion (s : Pmm) (base size : Word) :
    (pmmngrInitRegion s base size).used = insert 0 (s.used \ regionFrames base size) := by
  have h := used_initBlocks (blockCount size) (base.toNat / 4096) s (base_add_blockCount_le _ _)
  rw [pmmngrInitRegion, align_eq]
  refine (used_mmapSet_ofNat _ (by norm_num : 0 < 2 ^ 31)).trans ?_
  exact congrArg _ h.1

/-- The frames of the region are in use afterwards, and frame `0`. -/
theorem used_pmmngrDeinitRegion (s : Pmm) (base size : Word) :
    (pmmngrDeinitRegion s base size).used = insert 0 (s.used ∪ regionFrames base size) := by
  have h := used_deinitBlocks (blockCount size) (base.toNat / 4096) s (base_add_blockCount_le _ _)
  rw [pmmngrDeinitRegion, align_eq]
  refine (used_mmapSet_ofNat _ (by norm_num : 0 < 2 ^ 31)).trans ?_
  exact congrArg _ h.1

@[simp] theorem mmngrMaxBlocks_pmmngrInitRegion (s : Pmm) (base size : Word) :
    (pmmngrInitRegion s base size).mmngrMaxBlocks = s.mmngrMaxBlocks := by
  rw [pmmngrInitRegion, align_eq]
  exact (used_initBlocks _ _ s (base_add_blockCount_le base size)).2.2

@[simp] theorem mmngrMaxBlocks_pmmngrDeinitRegion (s : Pmm) (base size : Word) :
    (pmmngrDeinitRegion s base size).mmngrMaxBlocks = s.mmngrMaxBlocks := by
  rw [pmmngrDeinitRegion, align_eq]
  exact (used_deinitBlocks _ _ s (base_add_blockCount_le base size)).2.2

/-- The counter goes down by the whole region. -/
theorem mmngrUsedBlocks_pmmngrInitRegion (s : Pmm) (base size : Word) :
    (pmmngrInitRegion s base size).mmngrUsedBlocks =
      s.mmngrUsedBlocks - BitVec.ofNat 32 (blockCount size) := by
  rw [pmmngrInitRegion, align_eq]
  exact (used_initBlocks _ _ s (base_add_blockCount_le base size)).2.1

/-- The counter goes up by the whole region. -/
theorem mmngrUsedBlocks_pmmngrDeinitRegion (s : Pmm) (base size : Word) :
    (pmmngrDeinitRegion s base size).mmngrUsedBlocks =
      s.mmngrUsedBlocks + BitVec.ofNat 32 (blockCount size) := by
  rw [pmmngrDeinitRegion, align_eq]
  exact (used_deinitBlocks _ _ s (base_add_blockCount_le base size)).2.1

/-! ## Initialisation -/

/-- The bit of frame `f` is bit `f % 8` of byte `f / 8` of the map. -/
theorem frameUsed_eq_byte (s : Pmm) (f : ℕ) :
    s.frameUsed f = (s.mem (s.mmngrMemoryMap + BitVec.ofNat 32 (f / 8))).getLsbD (f % 8) := by
  have hbit : f % 32 = 8 * (f / 8 % 4) + f % 8 := by omega
  have haddr : s.mmngrMemoryMap + 4 * BitVec.ofNat 32 (f / 32) + BitVec.ofNat 32 (f / 8 % 4) =
      s.mmngrMemoryMap + BitVec.ofNat 32 (f / 8) := by
    have hf : f / 8 = 4 * (f / 32) + f / 8 % 4 := by omega
    conv_rhs => rw [hf, BitVec.ofNat_add, BitVec.ofNat_mul]
    rw [BitVec.add_assoc]
    rfl
  rw [frameUsed, mapWord, hbit, Mem.getLsbD_load32 _ _ (by omega) (by omega), haddr]

/-- `max_blocks` after `pmmngr_init` : the product wraps as an `int` before the signed
division. -/
def initBlockCount (memSize : Word) : Word :=
  (memSize * 1024).sdiv pmmngrBlockSize

/-- `max_blocks` is below `2^19`, or negative as an `int`. -/
theorem initBlockCount_bounds (memSize : Word) :
    (initBlockCount memSize).toNat < 2 ^ 19 ∨ 2 ^ 32 - 2 ^ 19 ≤ (initBlockCount memSize).toNat := by
  have h4096 : (pmmngrBlockSize : Word).toInt = 4096 := rfl
  have hint := BitVec.toInt_sdiv (memSize * 1024) pmmngrBlockSize
  have hlo := (memSize * 1024).le_toInt
  have hhi := (memSize * 1024).toInt_lt
  rw [h4096] at hint
  have hdiv : -2 ^ 19 ≤ (memSize * 1024).toInt.tdiv 4096 ∧
      (memSize * 1024).toInt.tdiv 4096 < 2 ^ 19 := by
    rcases le_or_gt 0 (memSize * 1024).toInt with hpos | hneg
    · rw [Int.tdiv_eq_ediv_of_nonneg hpos]
      omega
    · have hdiv := Int.neg_tdiv (-(memSize * 1024).toInt) 4096
      have hneg' : 0 ≤ -(memSize * 1024).toInt := by omega
      rw [neg_neg, Int.tdiv_eq_ediv_of_nonneg hneg'] at hdiv
      omega
  rw [Int.bmod_eq_of_le (by omega) (by omega), BitVec.toInt_eq_toNat_cond] at hint
  have hlt := (initBlockCount memSize).isLt
  rw [initBlockCount] at hlt ⊢
  split_ifs at hint <;> omega

/-- While the size in bytes fits an `int`, there is a block for every four kilobytes. -/
theorem toNat_initBlockCount_of_lt {memSize : Word} (h : memSize.toNat < 2 ^ 21) :
    (initBlockCount memSize).toNat = memSize.toNat / 4 := by
  have h1024 : (1024 : Word).toNat = 1024 := rfl
  have h4096 : pmmngrBlockSize.toNat = 4096 := rfl
  have hmul : (memSize * 1024).toNat = memSize.toNat * 1024 := by
    rw [BitVec.toNat_mul, h1024]
    omega
  have hmsb : (memSize * 1024).msb = false := BitVec.msb_eq_false_iff_two_mul_lt.2 (by omega)
  have hdiv : initBlockCount memSize = memSize * 1024 / pmmngrBlockSize := by
    rw [initBlockCount, BitVec.sdiv_eq, hmsb]
    rfl
  rw [hdiv, BitVec.toNat_udiv, hmul, h4096]
  omega

@[simp] theorem mmngrMaxBlocks_pmmngrInit (s : Pmm) (memSize bitmap : Word) :
    (pmmngrInit s memSize bitmap).mmngrMaxBlocks = initBlockCount memSize :=
  rfl

@[simp] theorem mmngrUsedBlocks_pmmngrInit (s : Pmm) (memSize bitmap : Word) :
    (pmmngrInit s memSize bitmap).mmngrUsedBlocks = initBlockCount memSize :=
  rfl

/-- The `memset` of `pmmngr_init` writes `0x0f` : of every eight frames it covers it marks
the first four used and the last four free, and it leaves the others as they were. -/
theorem frameUsed_pmmngrInit (s : Pmm) (memSize bitmap : Word) {f : ℕ} (hf : f < frameLimit) :
    (pmmngrInit s memSize bitmap).frameUsed f =
      if f / 8 < (initBlockCount memSize).toNat / 8 then decide (f % 8 < 4)
      else { s with mmngrMemoryMap := bitmap }.frameUsed f := by
  have hlen : (initBlockCount memSize / pmmngrBlocksPerByte).toNat =
      (initBlockCount memSize).toNat / 8 := BitVec.toNat_udiv
  have hoff : (bitmap + BitVec.ofNat 32 (f / 8) - bitmap).toNat = f / 8 := by
    have : f / 8 < 2 ^ 32 := by
      simp only [frameLimit] at hf
      omega
    bv_omega
  rw [frameUsed_eq_byte, frameUsed_eq_byte]
  show (memset s.mem bitmap 0xf (initBlockCount memSize / pmmngrBlocksPerByte)
    (bitmap + BitVec.ofNat 32 (f / 8))).getLsbD (f % 8) = _
  have hle := (initBlockCount memSize / pmmngrBlocksPerByte).isLt
  rw [memset, Mem.fill_apply _ _ _ _ _ (by omega), hoff, hlen]
  have hbyte : ∀ t < 8, ((0xf : Word).setWidth 8).getLsbD t = decide (t < 4) := by decide
  split_ifs with h
  · exact hbyte _ (Nat.mod_lt _ (by decide))
  · rfl

/-- A map with every bit set. -/
def fullPmm : Pmm where
  mem _ := 0xff
  mmngrMemorySize := 0
  mmngrUsedBlocks := 0
  mmngrMaxBlocks := 0
  mmngrMemoryMap := 0

/-- In the full map every frame is in use. -/
theorem mem_used_fullPmm {f : ℕ} (hf : f < frameLimit) : f ∈ fullPmm.used := by
  refine ⟨hf, ?_⟩
  have hones : ∀ t < 8, (0xff : Byte).getLsbD t = true := by decide
  rw [frameUsed_eq_byte]
  exact hones _ (Nat.mod_lt _ (by decide))

end Pmm

end Scorch
