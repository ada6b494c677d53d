import Mathlib.Data.Nat.Notation
import Scorch.Frames

/-!
# Initialisation and regions

`pmmngr_init` fills the map with `0x0f`, a byte for eight blocks, so that of every eight
frames four are clear, and the last `max_blocks % 8` frames keep the bits they had. All
frames below `max_blocks` are used after it just when there are fewer than eight of them and
they were used before (`pmmngrInit_allUsed_iff`). From 2 GiB on `max_blocks` is not the
number of frames either.

The region loops run over `size / 4096` frames from `base / 4096` on. Releasing should round
inward, to the frames that lie in the region (`InRegion`), and reserving outward, to the
frames the region meets (`MeetsRegion`). `regionLoops_exact_iff` says for which bitmaps the
loops do, and for which regions they do on every bitmap : those on frame boundaries of less
than 2 GiB, apart from the regions that reach no frame but frame `0`.
-/

open ByteMemory

namespace Scorch

namespace Pmm

/-! ## Initialisation -/

/-- `pmmngr_init` reports and marks all of memory used just below eight blocks, if it was
marked before. -/
theorem pmmngrInit_allUsed_iff (s : Pmm) (m bitmap : Word) (hm : m.toNat < 2 ^ 22) :
    ((pmmngrInit s m bitmap).mmngrMaxBlocks.toNat = m.toNat / 4 ∧
        (pmmngrInit s m bitmap).mmngrUsedBlocks = (pmmngrInit s m bitmap).mmngrMaxBlocks ∧
        ∀ f < (pmmngrInit s m bitmap).mmngrMaxBlocks.toNat,
          (pmmngrInit s m bitmap).frameUsed f = true) ↔
      m.toNat < 32 ∧
        ∀ f < m.toNat / 4, { s with mmngrMemoryMap := bitmap }.frameUsed f = true := by
  rw [mmngrMaxBlocks_pmmngrInit, mmngrUsedBlocks_pmmngrInit]
  have hbounds := initBlockCount_bounds m
  by_cases hsmall : m.toNat < 2 ^ 21
  · have hcount := toNat_initBlockCount_of_lt hsmall
    have hframe : ∀ f < m.toNat / 4, (pmmngrInit s m bitmap).frameUsed f =
        if f / 8 < m.toNat / 4 / 8 then decide (f % 8 < 4)
        else { s with mmngrMemoryMap := bitmap }.frameUsed f := fun f hf => by
      rw [frameUsed_pmmngrInit s m bitmap (by simp only [frameLimit]; omega), hcount]
    rw [hcount]
    constructor
    · rintro ⟨-, -, hall⟩
      have h32 : m.toNat < 32 := by
        -- Otherwise the first byte is filled, and frame `4` is clear.
        by_contra hge
        have hfour := hall 4 (by omega)
        rw [hframe 4 (by omega), if_pos (by omega)] at hfour
        exact absurd hfour (by decide)
      refine ⟨h32, fun f hf => ?_⟩
      rw [← hall f hf, hframe f hf, if_neg (by omega)]
    · rintro ⟨h32, hall⟩
      refine ⟨rfl, rfl, fun f hf => ?_⟩
      rw [hframe f hf, if_neg (by omega)]
      exact hall f hf
  · refine iff_of_false (fun h => ?_) fun h => ?_
    · have := h.1
      omega
    · omega

theorem pmmngrInit_allUsed_iff_small :
    ((pmmngrInit fullPmm 31 0).mmngrMaxBlocks.toNat = (31 : Word).toNat / 4 ∧
        (pmmngrInit fullPmm 31 0).mmngrUsedBlocks = (pmmngrInit fullPmm 31 0).mmngrMaxBlocks ∧
        ∀ f < (pmmngrInit fullPmm 31 0).mmngrMaxBlocks.toNat,
          (pmmngrInit fullPmm 31 0).frameUsed f = true) ↔
      (31 : Word).toNat < 32 ∧
        ∀ f < (31 : Word).toNat / 4, { fullPmm with mmngrMemoryMap := 0 }.frameUsed f = true :=
  pmmngrInit_allUsed_iff fullPmm 31 0 (by decide)

/-- With 128 MiB, frame `4` is clear whatever the map was, and with 2 GiB `max_blocks` is
negative. -/
theorem pmmngrInit_frame_four :
    (pmmngrInit fullPmm 131072 0).mmngrMaxBlocks = 32768 ∧
      (pmmngrInit fullPmm 131072 0).frameUsed 4 = false ∧
      (pmmngrInit fullPmm 0x200000 0).mmngrMaxBlocks = 0xfff80000 := by
  refine ⟨by decide, ?_, by decide⟩
  rw [frameUsed_pmmngrInit fullPmm 131072 0 (by norm_num), toNat_initBlockCount_of_lt (by decide)]
  rfl

/-! ## Regions -/

/-- The addresses of frame `f`. -/
def frameRange (f : ℕ) : Set ℕ :=
  Set.Ico (f * 4096) (f * 4096 + 4096)

/-- The addresses of a region. -/
def regionRange (base size : Word) : Set ℕ :=
  Set.Ico base.toNat (base.toNat + size.toNat)

/-- The frame lies wholly in the region. -/
def InRegion (base size : Word) (f : ℕ) : Prop :=
  frameRange f ⊆ regionRange base size

/-- The frame and the region have an address in common. -/
def MeetsRegion (base size : Word) (f : ℕ) : Prop :=
  (frameRange f ∩ regionRange base size).Nonempty

/-- Releasing the region clears the frames in it, and no others but frame `0`. -/
def ReleasesExactly (s : Pmm) (base size : Word) : Prop :=
  ∀ f > 0, f ∉ (pmmngrInitRegion s base size).used ↔ f ∉ s.used ∨ InRegion base size f

/-- Reserving the region marks the frames it meets, and no others but frame `0`. -/
def ReservesExactly (s : Pmm) (base size : Word) : Prop :=
  ∀ f > 0, f ∈ (pmmngrDeinitRegion s base size).used ↔ f ∈ s.used ∨ MeetsRegion base size f

section Region

variable {base size : Word} {f : ℕ}

/-- A frame that lies in the region, by its ends. -/
theorem inRegion_iff : InRegion base size f ↔
    base.toNat ≤ f * 4096 ∧ f * 4096 + 4096 ≤ base.toNat + size.toNat :=
  Set.Ico_subset_Ico_iff (by omega)

/-- A frame that shares a byte with it. -/
theorem meetsRegion_iff : MeetsRegion base size f ↔
    f * 4096 < base.toNat + size.toNat ∧ base.toNat < f * 4096 + 4096 ∧ 0 < size.toNat := by
  rw [MeetsRegion, frameRange, regionRange, Set.Ico_inter_Ico, Set.nonempty_Ico]
  omega

/-- Releasing is exact when the loop runs over the used frames in the region. -/
theorem releasesExactly_iff (s : Pmm) : s.ReleasesExactly base size ↔
    ∀ f > 0, f ∈ s.used → (f ∈ regionFrames base size ↔ InRegion base size f) := by
  refine forall₂_congr fun f hf => ?_
  rw [used_pmmngrInitRegion, Set.mem_insert_iff, Set.mem_sdiff, or_iff_right (by omega)]
  tauto

/-- Reserving is exact when the loop runs over the clear frames the region meets. -/
theorem reservesExactly_iff (s : Pmm) : s.ReservesExactly base size ↔
    ∀ f > 0, f ∉ s.used → (f ∈ regionFrames base size ↔ MeetsRegion base size f) := by
  refine forall₂_congr fun f hf => ?_
  rw [used_pmmngrDeinitRegion, Set.mem_insert_iff, Set.mem_union, or_iff_right (by omega)]
  tauto

/-- The frames in the region, those it meets and those of the loop are the same, but for
frame `0`, for an empty region, one that ends in frame `0`, and one on frame boundaries whose
size is not negative. -/
theorem regionFrames_exact_iff (base size : Word) :
    (∀ f > 0, (f ∈ regionFrames base size ↔ InRegion base size f) ∧
        (f ∈ regionFrames base size ↔ MeetsRegion base size f)) ↔
      size = 0 ∨ base.toNat + size.toNat ≤ 4096 ∨
        4096 ∣ base.toNat ∧ 4096 ∣ size.toNat ∧ size.toNat < 2 ^ 31 := by
  have hzero : size = 0 ↔ size.toNat = 0 := by bv_omega
  have hcount := blockCount_eq size
  simp only [regionFrames, Set.mem_Ico, inRegion_iff, meetsRegion_iff, hzero]
  constructor
  · intro h
    by_contra hcond
    rw [not_or, not_or] at hcond
    obtain ⟨hsize, hend, hne⟩ := hcond
    -- The frame of the last byte, and that of the first.
    have hlast := h ((base.toNat + size.toNat - 1) / 4096) (by omega)
    have hfirst := h (base.toNat / 4096)
    split_ifs at hcount <;> omega
  · rintro hcond f hf
    split_ifs at hcount <;> omega

end Region

/-- A map with every bit clear. -/
def emptyPmm : Pmm where
  mem _ := 0
  mmngrMemorySize := 0
  mmngrUsedBlocks := 0
  mmngrMaxBlocks := 0
  mmngrMemoryMap := 0

/-- In the empty map no frame is in use. -/
theorem notMem_used_emptyPmm (f : ℕ) : f ∉ emptyPmm.used := by
  rintro ⟨-, h⟩
  rw [frameUsed_eq_byte] at h
  simp [emptyPmm] at h

/-- A frame of a region is a frame of the map. -/
theorem inRegion_lt {base size : Word} {f : ℕ} (h : InRegion base size f) : f < frameLimit := by
  have := (inRegion_iff.1 h).2
  simp only [frameLimit]
  omega

/-- The region loops round inward and outward on a bitmap just when they run over the used
frames in the region, and over the clear frames it meets. On every bitmap they do for the
regions on frame boundaries below 2 GiB, and those that reach no frame but `0`. -/
theorem regionLoops_exact_iff (base size : Word) :
    (∀ s : Pmm, s.ReleasesExactly base size ∧ s.ReservesExactly base size ↔
      (∀ f > 0, f ∈ s.used → (f ∈ regionFrames base size ↔ InRegion base size f)) ∧
        ∀ f > 0, f ∉ s.used → (f ∈ regionFrames base size ↔ MeetsRegion base size f)) ∧
    ((∀ s : Pmm, s.ReleasesExactly base size ∧ s.ReservesExactly base size) ↔
      size = 0 ∨ base.toNat + size.toNat ≤ 4096 ∨
        4096 ∣ base.toNat ∧ 4096 ∣ size.toNat ∧ size.toNat < 2 ^ 31) := by
  refine ⟨fun s => and_congr (releasesExactly_iff s) (reservesExactly_iff s), ?_⟩
  rw [← regionFrames_exact_iff]
  constructor
  · intro h f hf
    refine ⟨?_, (reservesExactly_iff emptyPmm).1 (h emptyPmm).2 f hf (notMem_used_emptyPmm f)⟩
    by_cases hlim : f < frameLimit
    · exact (releasesExactly_iff fullPmm).1 (h fullPmm).1 f hf (mem_used_fullPmm hlim)
    · refine iff_of_false (fun hmem => ?_) fun hin => hlim (inRegion_lt hin)
      have := regionFrames_lt hmem
      simp only [frameLimit] at hlim
      omega
  · intro h s
    rw [releasesExactly_iff, reservesExactly_iff]
    exact ⟨fun f hf _ => (h f hf).1, fun f hf _ => (h f hf).2⟩

/-- Of the region from `0x1800` to `0x2800` frame `1` is released, which the region does not
hold, and frame `2` is not reserved, which it meets. -/
theorem regionLoops_unaligned :
    1 ∉ (pmmngrInitRegion fullPmm 0x1800 0x1000).used ∧ 1 ∈ fullPmm.used ∧
      ¬InRegion 0x1800 0x1000 1 ∧
      2 ∉ (pmmngrDeinitRegion emptyPmm 0x1800 0x1000).used ∧ MeetsRegion 0x1800 0x1000 2 := by
  have hregion : regionFrames 0x1800 0x1000 = Set.Ico 1 2 := by
    rw [regionFrames, blockCount_eq]
    rfl
  refine ⟨?_, mem_used_fullPmm (by norm_num), ?_, ?_, ?_⟩
  · rw [used_pmmngrInitRegion, hregion]
    simp
  · rw [inRegion_iff]
    decide
  · rw [used_pmmngrDeinitRegion, hregion]
    simp [notMem_used_emptyPmm]
  · rw [meetsRegion_iff]
    decide

end Pmm

end Scorch
