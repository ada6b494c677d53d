import Scorch.Frames

/-!
# Searches and allocations

`mmap_first_free` returns the least clear frame of the words it scans
(`mmapFirstFree_spec`), and `mmap_first_free_s (size)` the least clear frame whose probe
succeeds (`mmapFirstFreeS_spec`, `runStarts`), each as an `int`. The probe of
`mmap_first_free_s` is not about the frames it returns : it starts at frame
`32 * i + 2 ^ j` for the candidate `32 * i + j`.

`pmmngrAllocBlock_cases` and `pmmngrAllocBlocks_cases` are the inversion lemmas of the
two allocators. Either the state is unchanged and the address is null, or the frame
found is granted and its run of frames marked.
-/

open ByteMemory

namespace Scorch

namespace Pmm

/-! ## The searches -/

/-- The test of a bit within a word of the map. -/
theorem mapBitClear_eq (s : Pmm) {i j : ℕ} (hj : j < 32) :
    mapBitClear s i j = !s.frameUsed (i * 32 + j) := by
  have hdiv : (i * 32 + j) / 32 = i := by omega
  have hmod : (i * 32 + j) % 32 = j := by omega
  have hjn : (BitVec.ofNat 32 j).toNat % 32 = j := by
    rw [BitVec.toNat_ofNat]
    omega
  rw [mapBitClear, frameUsed, hdiv, hmod, Bool.eq_iff_iff, beq_iff_eq, Bool.not_eq_true',
    and_bitMask_eq_zero_iff, hjn]

/-- A full word has no clear bit, so it can be skipped. -/
theorem mapBitClear_of_mapWordFull (s : Pmm) {i : ℕ} (h : mapWordFull s i = true) {j : ℕ}
    (hj : j < 32) : mapBitClear s i j = false := by
  rw [mapWordFull, beq_iff_eq] at h
  have hdiv : (i * 32 + j) / 32 = i := by omega
  have hmod : (i * 32 + j) % 32 = j := by omega
  rw [mapBitClear_eq s hj, frameUsed, hdiv, hmod, h]
  interval_cases j <;> rfl

/-- A clear bit that the search finds is a free frame. -/
theorem mem_clear_of_mapBitClear {s : Pmm} {i j : ℕ} (hi : i < s.mmngrMaxBlocks.toNat) (hj : j < 32)
    (h : mapBitClear s i j = true) : i * 32 + j ∈ s.clear := by
  rw [mapBitClear_eq s hj, Bool.not_eq_true'] at h
  exact ⟨by omega, h⟩

/-- The searches do not skip the word of a clear frame. -/
theorem mapBitClear_of_mem_clear {s : Pmm} {g : ℕ} (hg : g ∈ s.clear) :
    g / 32 < s.mmngrMaxBlocks.toNat ∧ mapWordFull s (g / 32) = false ∧
      mapBitClear s (g / 32) (g % 32) = true := by
  have hcol : g % 32 < 32 := Nat.mod_lt _ (by norm_num)
  have hsplit : g / 32 * 32 + g % 32 = g := by omega
  have hbit : mapBitClear s (g / 32) (g % 32) = true := by
    rw [mapBitClear_eq s hcol, hsplit, hg.2]
    rfl
  refine ⟨?_, ?_, hbit⟩
  · have := hg.1
    omega
  · by_contra hfull
    have := mapBitClear_of_mapWordFull s (by simpa using hfull) hcol
    rw [hbit] at this
    exact absurd this (by decide)

/-- The positions that the search goes over are the free frames. -/
theorem positions_mapBitClear (s : Pmm) :
    FirstMatch.positions (pmmngrGetBlockCount s).toNat 32 (mapBitClear s) = s.clear := by
  ext f
  have hf : f / 32 * 32 + f % 32 = f := by omega
  show f < _ ∧ mapBitClear s (f / 32) (f % 32) = true ↔ _
  rw [mapBitClear_eq s (Nat.mod_lt _ (by decide)), hf, mem_clear, Bool.not_eq_true']
  rfl

/-- The clear frames at which a request for `size` frames may be granted. -/
def runStarts (s : Pmm) (size : Word) : Set ℕ :=
  {f | f ∈ s.clear ∧ (size = 1 ∨ runFree s size (f / 32) (f % 32) = true)}

/-- A run of one frame starts at every free frame. -/
theorem runStarts_one (s : Pmm) : s.runStarts 1 = s.clear := by
  simp [runStarts]

theorem runStarts_subset (s : Pmm) (size : Word) : s.runStarts size ⊆ s.clear :=
  fun _ h => h.1

theorem frameIndex_some (i j : ℕ) : frameIndex (some (i, j)) = BitVec.ofNat 32 (i * 32 + j) := by
  simp only [frameIndex, BitVec.ofNat_add, BitVec.ofNat_mul, BitVec.mul_assoc]
  rfl

/-- A word that is skipped holds no match. -/
theorem eq_false_of_mapWordFull (s : Pmm) {p : ℕ → ℕ → Bool}
    (hp : ∀ i j, p i j = true → mapBitClear s i j = true) :
    ∀ i < (pmmngrGetBlockCount s).toNat, mapWordFull s i = true → ∀ j < 32, p i j = false := by
  intro i _ hi j hj
  have := mapBitClear_of_mapWordFull s hi hj
  by_contra hpij
  simp [hp i j (by simpa using hpij)] at this

/-- The positions that `mmap_first_free_s` accepts are the starts of runs. -/
theorem positions_runFree (s : Pmm) {size : Word} (h1 : size ≠ 1) :
    FirstMatch.positions (pmmngrGetBlockCount s).toNat 32
      (fun i j => mapBitClear s i j && runFree s size i j) = s.runStarts size := by
  ext f
  rw [runStarts, ← positions_mapBitClear]
  simp only [FirstMatch.positions, Bool.and_eq_true, Set.mem_ofPred_eq, h1, false_or, and_assoc]

/-- What a scan for `p` returns. -/
theorem frameIndex_scan (s : Pmm) {p : ℕ → ℕ → Bool}
    (hp : ∀ i j, p i j = true → mapBitClear s i j = true) :
    let P := FirstMatch.positions (pmmngrGetBlockCount s).toNat 32 p
    let r := frameIndex (FirstMatch.scan (pmmngrGetBlockCount s).toNat 32 (mapWordFull s) p)
    (∃ f, IsLeast P f ∧ r = BitVec.ofNat 32 f) ∨ P = ∅ ∧ r = -1 := by
  intro P r
  have hskip := eq_false_of_mapWordFull s hp
  cases hscan : FirstMatch.scan (pmmngrGetBlockCount s).toNat 32 (mapWordFull s) p with
  | none =>
    refine Or.inr ⟨(FirstMatch.scan_eq_none_iff hskip).1 hscan, ?_⟩
    simp only [r, hscan, frameIndex]
  | some b =>
    obtain ⟨i, j⟩ := b
    refine Or.inl ⟨i * 32 + j, ((FirstMatch.scan_eq_some_iff hskip).1 hscan).2, ?_⟩
    simp only [r, hscan, frameIndex_some]

/-- `mmap_first_free` returns the least clear frame it scans, as an `int`. -/
theorem mmapFirstFree_spec (s : Pmm) :
    (∃ f, IsLeast s.clear f ∧ mmapFirstFree s = BitVec.ofNat 32 f) ∨
      s.clear = ∅ ∧ mmapFirstFree s = -1 := by
  have h := frameIndex_scan s (p := mapBitClear s) fun _ _ h => h
  rwa [positions_mapBitClear] at h

/-- `mmap_first_free_s` returns the least run start, as an `int`. -/
theorem mmapFirstFreeS_spec (s : Pmm) {size : Word} (hsize : size ≠ 0) :
    (∃ f, IsLeast (s.runStarts size) f ∧ mmapFirstFreeS s size = BitVec.ofNat 32 f) ∨
      s.runStarts size = ∅ ∧ mmapFirstFreeS s size = -1 := by
  by_cases h1 : size = 1
  · have hs : mmapFirstFreeS s size = mmapFirstFree s := by
      rw [mmapFirstFreeS, if_neg hsize, if_pos h1]
    rw [hs, h1, runStarts_one]
    exact mmapFirstFree_spec s
  · have h := frameIndex_scan s (p := fun i j => mapBitClear s i j && runFree s size i j)
      fun i j h => (Bool.and_eq_true_iff.1 h).1
    rw [positions_runFree s h1] at h
    rw [mmapFirstFreeS, if_neg hsize, if_neg h1]
    exact h

/-- The least clear frame is a bit the map has room for. -/
theorem lt_frameLimit_of_isLeast {s : Pmm} {f : ℕ} (h : IsLeast s.clear f) : f < frameLimit := by
  by_contra hge
  have hmod : f % frameLimit ∈ s.clear :=
    ⟨(Nat.mod_le _ _).trans_lt h.1.1, (s.frameUsed_mod f).trans h.1.2⟩
  have := h.2 hmod
  have : f % frameLimit < frameLimit := Nat.mod_lt _ (by decide)
  omega

/-! ## The allocators -/

/-- The state after the frames from `f` on are marked for a request of `size` frames. -/
def granted (s : Pmm) (f : ℕ) (size : Word) : Pmm :=
  { setBlocks size.toNat (BitVec.ofNat 32 f) s with
    mmngrUsedBlocks := s.mmngrUsedBlocks + size }

/-- The search for `size` frames finds `f`, which the caller does not mistake for `-1`. -/
def Finds (s : Pmm) (size : Word) (f : ℕ) : Prop :=
  IsLeast (s.runStarts size) f ∧ BitVec.ofNat 32 f ≠ (-1 : Word)

/-- No frame of the map is taken for the error `-1`. -/
theorem ofNat_ne_neg_one {f : ℕ} (h : f < 2 ^ 32 - 1) : BitVec.ofNat 32 f ≠ (-1 : Word) :=
  mt (ofNat_eq_iff_eq_toNat (by omega)).1 h.ne

/-- One block is found at the least clear frame. -/
theorem Finds.isLeast_clear {s : Pmm} {f : ℕ} (h : s.Finds 1 f) : IsLeast s.clear f :=
  s.runStarts_one ▸ h.1

/-- The address of frame `f`. -/
def frameAddr (f : ℕ) : Word :=
  BitVec.ofNat 32 (f * 4096)

/-- The address of a frame, as the allocator computes it. -/
theorem ofNat_mul_blockSize (f : ℕ) : BitVec.ofNat 32 f * pmmngrBlockSize = frameAddr f :=
  (BitVec.ofNat_mul f 4096).symm

/-- All that `pmmngr_alloc_block` can do. -/
theorem pmmngrAllocBlock_cases (s : Pmm) :
    (pmmngrAllocBlock s = (0, s) ∧
        (pmmngrGetFreeBlockCount s = 0 ∨ ∀ f, ¬s.Finds 1 f)) ∨
      ∃ f, pmmngrGetFreeBlockCount s ≠ 0 ∧ s.Finds 1 f ∧
        pmmngrAllocBlock s = (frameAddr f, s.granted f 1) := by
  by_cases hfree : pmmngrGetFreeBlockCount s = 0
  · refine Or.inl ⟨?_, Or.inl hfree⟩
    rw [pmmngrAllocBlock, hfree]
    rfl
  have hguard : ¬pmmngrGetFreeBlockCount s ≤ 0 :=
    fun h => hfree (BitVec.le_zero_iff.1 h)
  rw [pmmngrAllocBlock, if_neg hguard]
  rcases mmapFirstFree_spec s with ⟨f, hf, hidx⟩ | ⟨hempty, hidx⟩
  · rw [hidx]
    by_cases hneg : BitVec.ofNat 32 f = (-1 : Word)
    · refine Or.inl ⟨by rw [hneg]; rfl, Or.inr fun g hg => hg.2 ?_⟩
      rw [hg.isLeast_clear.unique hf, hneg]
    · refine Or.inr ⟨f, hfree, ⟨by rwa [runStarts_one], hneg⟩, ?_⟩
      simp only [if_neg hneg, ofNat_mul_blockSize]
      rfl
  · refine Or.inl ⟨by rw [hidx]; rfl, Or.inr fun g hg => ?_⟩
    have := hg.isLeast_clear.1
    rwa [hempty] at this

/-- All that `pmmngr_alloc_blocks` can do. -/
theorem pmmngrAllocBlocks_cases (s : Pmm) (size : Word) :
    (pmmngrAllocBlocks s size = (0, s) ∧
        (pmmngrGetFreeBlockCount s ≤ size ∨ size = 0 ∨ ∀ f, ¬s.Finds size f)) ∨
      ∃ f, size < pmmngrGetFreeBlockCount s ∧ size ≠ 0 ∧ s.Finds size f ∧
        pmmngrAllocBlocks s size = (frameAddr f, s.granted f size) := by
  by_cases hguard : pmmngrGetFreeBlockCount s ≤ size
  · exact Or.inl ⟨by rw [pmmngrAllocBlocks, if_pos hguard], Or.inl hguard⟩
  rw [pmmngrAllocBlocks, if_neg hguard]
  by_cases hsize : size = 0
  · refine Or.inl ⟨?_, Or.inr (Or.inl hsize)⟩
    rw [hsize]
    rfl
  rcases mmapFirstFreeS_spec s hsize with ⟨f, hf, hidx⟩ | ⟨hempty, hidx⟩
  · rw [hidx]
    by_cases hneg : BitVec.ofNat 32 f = (-1 : Word)
    · refine Or.inl ⟨by rw [hneg]; rfl, Or.inr (Or.inr fun g hg => hg.2 ?_)⟩
      rw [hg.1.unique hf, hneg]
    · refine Or.inr ⟨f, BitVec.not_le.1 hguard, hsize, ⟨hf, hneg⟩, ?_⟩
      simp only [if_neg hneg, ofNat_mul_blockSize, granted, mmngrUsedBlocks_setBlocks]
  · refine Or.inl ⟨by rw [hidx]; rfl, Or.inr (Or.inr fun g hg => ?_)⟩
    have := hg.1.1
    rwa [hempty] at this

/-- A request for blocks that gets no address : too few blocks are free, none are asked
for, or the search finds nothing but a frame whose address is null. -/
def Refuses (s : Pmm) (size : Word) : Prop :=
  pmmngrGetFreeBlockCount s ≤ size ∨ size = 0 ∨ ∀ f, s.Finds size f → frameAddr f = 0

/-- The search finds one frame at most : the least. -/
theorem Finds.unique {s : Pmm} {size : Word} {f g : ℕ} (hf : s.Finds size f)
    (hg : s.Finds size g) : f = g :=
  hf.1.unique hg.1

/-- A refused request, with blocks free and some asked for, found a frame whose address is null. -/
theorem Refuses.frameAddr_eq_zero {s : Pmm} {size : Word} (h : s.Refuses size)
    (hfree : size < pmmngrGetFreeBlockCount s) (hsize : size ≠ 0) {f : ℕ} (hf : s.Finds size f) :
    frameAddr f = 0 := by
  rcases h with h | h | h
  · exact absurd h (BitVec.not_le.2 hfree)
  · exact absurd h hsize
  · exact h f hf

/-- The null pointer comes back exactly for the requests that are refused. -/
theorem pmmngrAllocBlocks_eq_zero_iff (s : Pmm) (size : Word) :
    (pmmngrAllocBlocks s size).1 = 0 ↔ s.Refuses size := by
  rcases pmmngrAllocBlocks_cases s size with ⟨heq, h | h | h⟩ | ⟨f, hfree, hsize, hf, heq⟩
  · exact iff_of_true (congrArg Prod.fst heq) (Or.inl h)
  · exact iff_of_true (congrArg Prod.fst heq) (Or.inr (Or.inl h))
  · exact iff_of_true (congrArg Prod.fst heq) (Or.inr (Or.inr fun g hg => absurd hg (h g)))
  · rw [heq]
    exact ⟨fun h0 => Or.inr (Or.inr fun g hg => hg.unique hf ▸ h0),
      fun h => h.frameAddr_eq_zero hfree hsize hf⟩

/-! ## Granted runs -/

@[simp] theorem mmngrMaxBlocks_granted (s : Pmm) (f : ℕ) (size : Word) :
    (s.granted f size).mmngrMaxBlocks = s.mmngrMaxBlocks :=
  mmngrMaxBlocks_setBlocks _ _ _

@[simp] theorem mmngrUsedBlocks_granted (s : Pmm) (f : ℕ) (size : Word) :
    (s.granted f size).mmngrUsedBlocks = s.mmngrUsedBlocks + size :=
  rfl

theorem used_granted (s : Pmm) {f : ℕ} {size : Word} (h : f + size.toNat ≤ 2 ^ 31) :
    (s.granted f size).used = s.used ∪ Set.Ico f (f + size.toNat) :=
  used_setBlocks _ _ s h

theorem used_granted_one (s : Pmm) (f : ℕ) :
    (s.granted f 1).used = insert (bitNumber (BitVec.ofNat 32 f)) s.used :=
  used_mmapSet s _

theorem used_subset_granted (s : Pmm) (f : ℕ) (size : Word) :
    s.used ⊆ (s.granted f size).used :=
  used_subset_setBlocks _ _ s

/-! ## Addresses of frames -/

/-- Addresses wrap at `2 ^ 20` frames. -/
theorem toNat_frameAddr (f : ℕ) : (frameAddr f).toNat = f % 2 ^ 20 * 4096 := by
  rw [frameAddr, BitVec.toNat_ofNat]
  omega

theorem frameAddr_eq_zero_iff (f : ℕ) : frameAddr f = 0 ↔ f % 2 ^ 20 = 0 := by
  rw [← BitVec.toNat_inj, toNat_frameAddr]
  have h0 : (0 : Word).toNat = 0 := rfl
  omega

/-- The frame of an address is found again. -/
theorem frameAddr_div {f : ℕ} (h : f < 2 ^ 20) : (frameAddr f).toNat / 4096 = f := by
  rw [toNat_frameAddr]
  omega

/-! ## Frees -/

@[simp] theorem mmngrMaxBlocks_pmmngrFreeBlocks (s : Pmm) (p size : Word) :
    (pmmngrFreeBlocks s p size).mmngrMaxBlocks = s.mmngrMaxBlocks :=
  mmngrMaxBlocks_unsetBlocks _ _ _

/-- A free is counted in full, whatever was in use. -/
@[simp] theorem mmngrUsedBlocks_pmmngrFreeBlocks (s : Pmm) (p size : Word) :
    (pmmngrFreeBlocks s p size).mmngrUsedBlocks = s.mmngrUsedBlocks - size := by
  rw [pmmngrFreeBlocks, mmngrUsedBlocks_unsetBlocks]

/-- `pmmngr_free_block` clears the bit of the frame that the address lies in. -/
theorem used_pmmngrFreeBlock (s : Pmm) (p : Word) :
    (pmmngrFreeBlock s p).used = s.used \ {p.toNat / 4096} := by
  have h : (pmmngrFreeBlock s p).used = s.used \ {bitNumber (p / pmmngrBlockSize)} :=
    used_mmapUnset s _
  rw [h, align_eq, bitNumber_ofNat (by omega)]

/-- `pmmngr_free_blocks` clears those of the range. -/
theorem used_pmmngrFreeBlocks (s : Pmm) {p size : Word}
    (h : p.toNat / 4096 + size.toNat ≤ 2 ^ 31) :
    (pmmngrFreeBlocks s p size).used =
      s.used \ Set.Ico (p.toNat / 4096) (p.toNat / 4096 + size.toNat) := by
  rw [← used_unsetBlocks _ _ s h, ← align_eq]
  rfl

end Pmm

end Scorch
