import Mathlib.Data.Int.Notation
import Mathlib.Order.Lattice.Nat
import Scorch.Allocation

/-!
# Runs of free frames

What `mmap_first_free_s (size)` is for is the least of the runs of `size` clear frames below
`max_blocks` (`freeRuns`). What it returns is the least of its candidates : the clear frames
`f = 32 * i + j` such that at most one of the `size + 1` frames from `32 * i + 2 ^ j` on is
used (`candidates`, `runFree_iff`).

The tested frames depend on `f` modulo `2^32` only, so the `int` that is returned does not
confuse a candidate past the address space with a run (`mem_candidates_of_mod_eq`). The two
searches agree just when the least run is a candidate and no candidate comes before every
run (`isFirstRun_mmapFirstFreeS_iff`).
-/

open ByteMemory

namespace Scorch

namespace Pmm

/-! ## The frames that are tested -/

/-- `startingBit`, for the candidate `f`. -/
def startingBit (f : ℕ) : Word :=
  BitVec.ofNat 32 (f / 32) * 32 + bitMask (BitVec.ofNat 32 (f % 32))

/-- The frame the inner loop tests in round `c`, for the candidate `f`. -/
def testedFrame (f c : ℕ) : ℕ :=
  bitNumber (startingBit f + BitVec.ofNat 32 c)

/-- The number of used frames among those tested for the candidate `f`. -/
def usedTests (s : Pmm) (size : Word) (f : ℕ) : ℕ :=
  (List.range (size.toNat + 1)).countP fun c => s.frameUsed (testedFrame f c)

/-- The clear frames for which the inner loop counts `size` clear bits. -/
def candidates (s : Pmm) (size : Word) : Set ℕ :=
  {f | f ∈ s.clear ∧ (size = 1 ∨ s.usedTests size f ≤ 1)}

/-- The inner loop counts the clear bits up to `size`. -/
theorem countFree_iff (s : Pmm) (size start : Word) :
    ∀ n k free : ℕ, free < size.toNat →
      (countFree s size start n (BitVec.ofNat 32 k) (BitVec.ofNat 32 free) = true ↔
        size.toNat ≤
          free + (List.range' k n).countP fun c => !mmapTest s (start + BitVec.ofNat 32 c))
  | 0, k, free, hfree => by
    refine iff_of_false (by simp [countFree]) ?_
    simp only [List.range'_zero, List.countP_nil]
    omega
  | n + 1, k, free, hfree => by
    have hsize := size.isLt
    rw [countFree, List.range'_succ, List.countP_cons, ofNat_succ, ofNat_succ]
    cases htest : mmapTest s (start + BitVec.ofNat 32 k) with
    | true =>
      have hne : BitVec.ofNat 32 free ≠ size := mt (ofNat_eq_iff_eq_toNat (by omega)).1 hfree.ne
      have ih := countFree_iff s size start n (k + 1) free hfree
      simpa [hne] using ih
    | false =>
      have hiff : BitVec.ofNat 32 (free + 1) = size ↔ free + 1 = size.toNat :=
        ofNat_eq_iff_eq_toNat (by omega)
      by_cases hlast : free + 1 = size.toNat
      · refine iff_of_true (by simp [hiff.2 hlast]) ?_
        simp only [Bool.not_false, if_true]
        omega
      · have ih := countFree_iff s size start n (k + 1) (free + 1) (by omega)
        simp only [Bool.false_eq_true, if_false, mt hiff.1 hlast, ih, Bool.not_false, if_true]
        omega

/-- The inner loop succeeds when at most one of the frames it tests is used. -/
theorem runFree_iff (s : Pmm) {size : Word} (hsize : size ≠ 0) (f : ℕ) :
    runFree s size (f / 32) (f % 32) = true ↔ s.usedTests size f ≤ 1 := by
  have hpos : 0 < size.toNat := by bv_omega
  set used : ℕ → Bool := fun c => s.frameUsed (testedFrame f c)
  have hlength := List.length_eq_countP_add_countP used (l := List.range (size.toNat + 1))
  have hcount := countFree_iff s size (startingBit f) (size.toNat + 1) 0 0 hpos
  simp only [mmapTest_eq, ← List.range_eq_range'] at hcount
  have hclear : (List.range (size.toNat + 1)).countP (fun c => !used c) =
      (List.range (size.toNat + 1)).countP (fun c => decide (¬used c = true)) :=
    List.countP_congr fun c _ => by simp
  rw [List.length_range, ← hclear] at hlength
  refine hcount.trans ?_
  show size.toNat ≤ 0 + (List.range (size.toNat + 1)).countP (fun c => !used c) ↔
    (List.range (size.toNat + 1)).countP used ≤ 1
  omega

/-- The frames that the search accepts, as the code tests them. -/
theorem runStarts_eq_candidates (s : Pmm) {size : Word} (hsize : size ≠ 0) :
    s.runStarts size = s.candidates size := by
  ext f
  simp only [runStarts, candidates, Set.mem_ofPred_eq, runFree_iff s hsize f]

/-- The tested frame wraps with the frame number. -/
theorem testedFrame_mod (f c : ℕ) : testedFrame (f % 2 ^ 32) c = testedFrame f c := by
  have hrow : BitVec.ofNat 32 (f % 2 ^ 32 / 32) * 32 = BitVec.ofNat 32 (f / 32) * (32 : Word) := by
    bv_omega
  have hcol : f % 2 ^ 32 % 32 = f % 32 := by omega
  rw [testedFrame, testedFrame, startingBit, startingBit, hrow, hcol]

/-- Of two clear frames with one index, both are candidates or none is. -/
theorem mem_candidates_of_mod_eq {s : Pmm} {size : Word} {f g : ℕ} (hf : f ∈ s.candidates size)
    (hg : g ∈ s.clear) (h : f % 2 ^ 32 = g % 2 ^ 32) : g ∈ s.candidates size := by
  have htested : testedFrame g = testedFrame f := by
    ext c
    rw [← testedFrame_mod, ← h, testedFrame_mod]
  have hused : s.usedTests size g = s.usedTests size f := by
    rw [usedTests, usedTests, htested]
  exact ⟨hg, hf.2.imp_right fun hle => hused.trans_le hle⟩

/-! ## The runs that are meant -/

/-- The frames from which on `size` frames below `max_blocks` are clear. -/
def freeRuns (s : Pmm) (size : Word) : Set ℕ :=
  {f | f + size.toNat ≤ s.mmngrMaxBlocks.toNat ∧
    ∀ g ∈ Set.Ico f (f + size.toNat), s.frameUsed g = false}

/-- `r` is the index of the least run, `-1` when there is none. -/
def IsFirstRun (s : Pmm) (size r : Word) : Prop :=
  (∃ f, IsLeast (s.freeRuns size) f ∧ r = BitVec.ofNat 32 f) ∨ s.freeRuns size = ∅ ∧ r = -1

section Runs

variable {s : Pmm} {size r : Word} {f : ℕ}

/-- A free run starts with a clear frame. -/
theorem mem_clear_of_mem_freeRuns (hsize : size ≠ 0) (hf : f ∈ s.freeRuns size) : f ∈ s.clear := by
  have hpos : 0 < size.toNat := by bv_omega
  have hmax := hf.1
  exact ⟨by omega, hf.2 f ⟨le_rfl, by omega⟩⟩

/-- No run begins at the frame whose index is `-1`. -/
theorem lt_of_mem_freeRuns (hsize : size ≠ 0) (hf : f ∈ s.freeRuns size) : f < 2 ^ 32 - 1 := by
  have hpos : 0 < size.toNat := by bv_omega
  have hmax := hf.1
  have := s.mmngrMaxBlocks.isLt
  omega

/-- With a free run, its first frame is to be returned. -/
theorem isFirstRun_iff_of_isLeast (hf : IsLeast (s.freeRuns size) f) :
    s.IsFirstRun size r ↔ r = BitVec.ofNat 32 f := by
  constructor
  · rintro (⟨g, hg, hr⟩ | ⟨hempty, -⟩)
    · rw [hr, hg.unique hf]
    · rw [hempty] at hf
      exact absurd hf.1 (Set.notMem_empty f)
  · exact fun hr => Or.inl ⟨f, hf, hr⟩

theorem isFirstRun_iff_of_eq_empty (h : s.freeRuns size = ∅) : s.IsFirstRun size r ↔ r = -1 := by
  constructor
  · rintro (⟨g, hg, -⟩ | ⟨-, hr⟩)
    · rw [h] at hg
      exact absurd hg.1 (Set.notMem_empty g)
    · exact hr
  · exact fun hr => Or.inr ⟨h, hr⟩

/-- The least candidate has the index of the least run just when the run is a candidate and
no run is needed before it. -/
theorem ofNat_eq_iff (hsize : size ≠ 0) {p r : ℕ} (hp : IsLeast (s.candidates size) p)
    (hr : IsLeast (s.freeRuns size) r) :
    BitVec.ofNat 32 p = BitVec.ofNat 32 r ↔ r ∈ s.candidates size ∧
      (BitVec.ofNat 32 p ≠ (-1 : Word) → ∃ t ∈ s.freeRuns size, t ≤ p) := by
  have hlt := lt_of_mem_freeRuns hsize hr.1
  constructor
  · intro heq
    have hmod : p % 2 ^ 32 = r % 2 ^ 32 := by
      simpa only [BitVec.toNat_ofNat] using congrArg BitVec.toNat heq
    have hmem := mem_candidates_of_mod_eq hp.1 (mem_clear_of_mem_freeRuns hsize hr.1) hmod
    have hle := hp.2 hmem
    exact ⟨hmem, fun _ => ⟨r, hr.1, by omega⟩⟩
  · rintro ⟨hmem, hrun⟩
    have hle := hp.2 hmem
    obtain ⟨t, ht, htp⟩ := hrun (ofNat_ne_neg_one (by omega))
    rw [le_antisymm hle ((hr.2 ht).trans htp)]

end Runs

/-- `mmap_first_free_s` returns the least free run just when that run, if there is one, is a
candidate, and no candidate is before all runs. -/
theorem isFirstRun_mmapFirstFreeS_iff (s : Pmm) {size : Word} (hsize : 0 < size.toInt) :
    s.IsFirstRun size (mmapFirstFreeS s size) ↔
      (∀ r, IsLeast (s.freeRuns size) r → r ∈ s.candidates size) ∧
        ∀ f, IsLeast (s.candidates size) f → BitVec.ofNat 32 f ≠ (-1 : Word) →
          ∃ r ∈ s.freeRuns size, r ≤ f := by
  have hne : size ≠ 0 := by
    rintro rfl
    exact absurd hsize (by decide)
  have hspec := mmapFirstFreeS_spec s hne
  rw [runStarts_eq_candidates s hne] at hspec
  rcases (s.freeRuns size).eq_empty_or_nonempty with hempty | hnonempty
  · rw [isFirstRun_iff_of_eq_empty hempty, hempty]
    rcases hspec with ⟨p, hp, hres⟩ | ⟨hnone, hres⟩
    · rw [hres]
      constructor
      · intro hneg
        refine ⟨fun r hr => absurd hr.1 (Set.notMem_empty r), fun f hf hf' => ?_⟩
        exact absurd (hf.unique hp ▸ hneg) hf'
      · rintro ⟨-, hall⟩
        by_contra hneg
        obtain ⟨r, hr, -⟩ := hall p hp hneg
        exact absurd hr (Set.notMem_empty r)
    · rw [hnone]
      refine iff_of_true hres ⟨fun r hr => absurd hr.1 (Set.notMem_empty r), fun f hf => ?_⟩
      exact absurd hf.1 (Set.notMem_empty f)
  · have hr := isLeast_csInf hnonempty
    set r := sInf (s.freeRuns size)
    have hleast : (∀ t, IsLeast (s.freeRuns size) t → t ∈ s.candidates size) ↔
        r ∈ s.candidates size :=
      ⟨fun h => h r hr, fun h t ht => ht.unique hr ▸ h⟩
    rw [isFirstRun_iff_of_isLeast hr, hleast]
    rcases hspec with ⟨p, hp, hres⟩ | ⟨hnone, hres⟩
    · rw [hres, ofNat_eq_iff hne hp hr]
      exact and_congr_right fun _ =>
        ⟨fun h f hf => hf.unique hp ▸ h, fun h => h p hp⟩
    · rw [hres, hnone]
      refine iff_of_false (fun hneg => ?_) fun h => Set.notMem_empty r h.1
      exact ofNat_ne_neg_one (lt_of_mem_freeRuns hne hr.1) hneg.symm

/-- One word of map, with the frames `1`, `3` and `4` clear. -/
def gapPmm : Pmm where
  mem a := if a = 0 then 0xe5 else 0xff
  mmngrMemorySize := 0
  mmngrUsedBlocks := 0
  mmngrMaxBlocks := 32
  mmngrMemoryMap := 0

/-- The condition on a map with a gap of one frame. -/
theorem isFirstRun_mmapFirstFreeS_iff_gap :
    gapPmm.IsFirstRun 2 (mmapFirstFreeS gapPmm 2) ↔
      (∀ r, IsLeast (gapPmm.freeRuns 2) r → r ∈ gapPmm.candidates 2) ∧
        ∀ f, IsLeast (gapPmm.candidates 2) f → BitVec.ofNat 32 f ≠ (-1 : Word) →
          ∃ r ∈ gapPmm.freeRuns 2, r ≤ f :=
  isFirstRun_mmapFirstFreeS_iff gapPmm (by decide)

/-- The search for two frames returns frame `1`, which frame `2` does not follow : the frames
tested for it are `2`, `3` and `4`. -/
theorem mmapFirstFreeS_gap :
    mmapFirstFreeS gapPmm 2 = 1 ∧ gapPmm.frameUsed 2 = true ∧ IsLeast (gapPmm.freeRuns 2) 3 := by
  refine ⟨by decide, by decide, ⟨by decide, fun g hg => ?_⟩, fun f hf => ?_⟩
  · obtain ⟨h3, h5⟩ : 3 ≤ g ∧ g < 5 := hg
    interval_cases g <;> decide
  · by_contra hlt
    have hcases : f = 0 ∨ f = 1 ∨ f = 2 := by omega
    rcases hcases with rfl | rfl | rfl
    · exact absurd (hf.2 0 ⟨by decide, by decide⟩) (by decide)
    · exact absurd (hf.2 2 ⟨by decide, by decide⟩) (by decide)
    · exact absurd (hf.2 2 ⟨by decide, by decide⟩) (by decide)

end Pmm

end Scorch
