import Mathlib.Data.Finset.Card
import Mathlib.Order.Interval.Finset.Nat
import Scorch.Ownership

/-!
# The used count and the bit map

`_mmngr_used_blocks` is meant to be the number of used frames below `max_blocks`
(`Balanced`). Each operation moves the count by the number of frames it is asked about,
whatever their bits were, so the two stay together only where every one of those frames
changes its bit.

`pmmngr_init` does not start balanced : it counts every block as used, and its `memset`
marks half of them. Only below eight blocks, where the `memset` has no byte to write, can
the bits be all set (`balanced_pmmngrInit_iff`). From a balanced state with frame `0` used
the operations keep the balance when a region enabled is used throughout and has no frame
`0`, a region disabled is free throughout, a run granted is free and inside managed
memory, and an allocation given back is still marked (`Counted`).
`balanced_of_counted` is the induction over a run. `pmmngr_alloc_block` has no condition
(`Steady.allocBlock`).
-/

open ByteMemory GuardedRun

namespace Scorch

open Pmm

/-- The operations of the interface after `pmmngr_init`. -/
inductive PmmOp where
  | initRegion (base size : Word)
  | deinitRegion (base size : Word)
  | call (c : PmmCall)

/-- One operation. -/
def Ledger.perform (l : Ledger) : PmmOp → Ledger
  | .initRegion base size => ⟨pmmngrInitRegion l.pmm base size, l.live⟩
  | .deinitRegion base size => ⟨pmmngrDeinitRegion l.pmm base size, l.live⟩
  | .call c => l.step c

namespace Pmm

/-- The used frames of managed memory. -/
def usedFrames (s : Pmm) : Finset ℕ :=
  (Finset.range s.mmngrMaxBlocks.toNat).filter fun f => s.frameUsed f = true

/-- The used count is the number of used frames of managed memory. -/
def Balanced (s : Pmm) : Prop :=
  s.mmngrUsedBlocks.toNat = s.usedFrames.card

/-- The frames that the counter should count : managed and in use. -/
theorem mem_usedFrames {s : Pmm} {f : ℕ} :
    f ∈ s.usedFrames ↔ f < s.mmngrMaxBlocks.toNat ∧ f ∈ s.used := by
  rw [usedFrames, Finset.mem_filter, Finset.mem_range, mem_used]
  have := s.mmngrMaxBlocks.isLt
  simp only [frameLimit]
  refine ⟨fun h => ⟨h.1, by omega, h.2⟩, fun h => ⟨h.1, h.2.2⟩⟩

/-- There are no more of them than managed blocks. -/
theorem card_usedFrames_le (s : Pmm) : s.usedFrames.card ≤ s.mmngrMaxBlocks.toNat :=
  (Finset.card_filter_le _ _).trans (Finset.card_range _).le

/-- A balanced count stays within `max_blocks`, and the free count does not wrap. -/
theorem Balanced.freeCount {s : Pmm} (h : s.Balanced) :
    s.mmngrUsedBlocks.toNat ≤ s.mmngrMaxBlocks.toNat ∧
      (pmmngrGetFreeBlockCount s).toNat = s.mmngrMaxBlocks.toNat - s.usedFrames.card := by
  have hle : s.mmngrUsedBlocks.toNat ≤ s.mmngrMaxBlocks.toNat := h.trans_le s.card_usedFrames_le
  refine ⟨hle, ?_⟩
  have hfree : (pmmngrGetFreeBlockCount s).toNat =
      s.mmngrMaxBlocks.toNat - s.mmngrUsedBlocks.toNat :=
    BitVec.toNat_sub_of_le (BitVec.le_def.2 hle)
  rw [hfree, h]

/-- What the operations preserve : the balance, frame `0` reserved, and a managed memory
that ends inside the address space. -/
structure Steady (s : Pmm) : Prop where
  balanced : s.Balanced
  frame_zero : 0 < s.mmngrMaxBlocks.toNat → 0 ∈ s.used
  max_le : s.mmngrMaxBlocks.toNat ≤ 2 ^ 20

/-- Frames added to the map and to the count together. -/
theorem Steady.add {s s' : Pmm} (h : s.Steady) {R : Finset ℕ} {n : Word}
    (hmax : s'.mmngrMaxBlocks = s.mmngrMaxBlocks)
    (hcount : s'.mmngrUsedBlocks = s.mmngrUsedBlocks + n) (hn : n.toNat = R.card)
    (hused : ∀ f < s.mmngrMaxBlocks.toNat, f ∈ s'.used ↔ f ∈ s.used ∨ f ∈ R)
    (hR : ∀ f ∈ R, f < s.mmngrMaxBlocks.toNat ∧ f ∉ s.used) : s'.Steady := by
  have heq : s'.usedFrames = s.usedFrames ∪ R := by
    ext f
    rw [Finset.mem_union, mem_usedFrames, mem_usedFrames, hmax]
    refine ⟨fun hf => ?_, ?_⟩
    · rcases (hused f hf.1).1 hf.2 with hu | hr
      · exact Or.inl ⟨hf.1, hu⟩
      · exact Or.inr hr
    · rintro (hf | hr)
      · exact ⟨hf.1, (hused f hf.1).2 (Or.inl hf.2)⟩
      · exact ⟨(hR f hr).1, (hused f (hR f hr).1).2 (Or.inr hr)⟩
  have hdisj : Disjoint s.usedFrames R :=
    Finset.disjoint_left.2 fun f hf hr => (hR f hr).2 (mem_usedFrames.1 hf).2
  have hle := s'.card_usedFrames_le
  refine ⟨?_, fun hpos => ?_, by rw [hmax]; exact h.max_le⟩
  · have hbal := h.balanced
    rw [hmax] at hle
    have hmaxle := h.max_le
    rw [Balanced] at hbal ⊢
    rw [heq, Finset.card_union_of_disjoint hdisj] at hle ⊢
    rw [hcount, BitVec.toNat_add, hn, hbal]
    omega
  · rw [hmax] at hpos
    exact (hused 0 hpos).2 (Or.inl (h.frame_zero hpos))

/-- Frames other than `0` removed from the map and from the count together. -/
theorem Steady.remove {s s' : Pmm} (h : s.Steady) {R : Finset ℕ} {n : Word}
    (hmax : s'.mmngrMaxBlocks = s.mmngrMaxBlocks)
    (hcount : s'.mmngrUsedBlocks = s.mmngrUsedBlocks - n) (hn : n.toNat = R.card)
    (hused : ∀ f < s.mmngrMaxBlocks.toNat, f ∈ s'.used ↔ f ∈ s.used ∧ f ∉ R)
    (hR : ∀ f ∈ R, f < s.mmngrMaxBlocks.toNat ∧ f ∈ s.used ∧ f ≠ 0) : s'.Steady := by
  have heq : s'.usedFrames = s.usedFrames \ R := by
    ext f
    rw [Finset.mem_sdiff, mem_usedFrames, mem_usedFrames, hmax]
    refine ⟨fun hf => ?_, fun hf => ⟨hf.1.1, (hused f hf.1.1).2 ⟨hf.1.2, hf.2⟩⟩⟩
    obtain ⟨hu, hr⟩ := (hused f hf.1).1 hf.2
    exact ⟨⟨hf.1, hu⟩, hr⟩
  have hsub : R ⊆ s.usedFrames := fun f hr => mem_usedFrames.2 ⟨(hR f hr).1, (hR f hr).2.1⟩
  refine ⟨?_, fun hpos => ?_, by rw [hmax]; exact h.max_le⟩
  · have hbal := h.balanced
    have hcard := Finset.card_le_card hsub
    have hlt := s.mmngrUsedBlocks.isLt
    rw [Balanced] at hbal ⊢
    rw [heq, Finset.card_sdiff_of_subset hsub, hcount, BitVec.toNat_sub, hn, hbal]
    omega
  · rw [hmax] at hpos
    refine (hused 0 hpos).2 ⟨h.frame_zero hpos, fun hr => (hR 0 hr).2.2 rfl⟩

/-! ## One operation -/

/-- The frames of a region as a finite set. -/
def regionFinset (base size : Word) : Finset ℕ :=
  Finset.Ico (base.toNat / 4096) (base.toNat / 4096 + blockCount size)

/-- The frames of a region as a finite set. -/
theorem mem_regionFinset {base size : Word} {f : ℕ} :
    f ∈ regionFinset base size ↔ f ∈ regionFrames base size :=
  Finset.mem_Ico

/-- The loops count as many frames as the region has. -/
theorem toNat_ofNat_blockCount (base size : Word) :
    (BitVec.ofNat 32 (blockCount size)).toNat = (regionFinset base size).card := by
  have := base_add_blockCount_le base size
  rw [regionFinset, Nat.card_Ico, BitVec.toNat_ofNat]
  omega

/-- Freeing a region of managed frames in use keeps the balance. -/
theorem Steady.initRegion {s : Pmm} (h : s.Steady) {base size : Word}
    (hR : ∀ f ∈ regionFrames base size, f < s.mmngrMaxBlocks.toNat ∧ f ∈ s.used ∧ f ≠ 0) :
    (pmmngrInitRegion s base size).Steady := by
  refine h.remove (mmngrMaxBlocks_pmmngrInitRegion s base size)
    (mmngrUsedBlocks_pmmngrInitRegion s base size) (toNat_ofNat_blockCount base size)
    (fun f hf => ?_) fun f hf => hR f (mem_regionFinset.1 hf)
  rw [used_pmmngrInitRegion, Set.mem_insert_iff, Set.mem_sdiff, mem_regionFinset]
  refine ⟨?_, Or.inr⟩
  rintro (rfl | hf)
  · exact ⟨h.frame_zero hf, fun h0 => (hR 0 h0).2.2 rfl⟩
  · exact hf

theorem Steady.deinitRegion {s : Pmm} (h : s.Steady) {base size : Word}
    (hR : ∀ f ∈ regionFrames base size, f < s.mmngrMaxBlocks.toNat ∧ f ∉ s.used) :
    (pmmngrDeinitRegion s base size).Steady := by
  refine h.add (mmngrMaxBlocks_pmmngrDeinitRegion s base size)
    (mmngrUsedBlocks_pmmngrDeinitRegion s base size) (toNat_ofNat_blockCount base size)
    (fun f hf => ?_) fun f hf => hR f (mem_regionFinset.1 hf)
  rw [used_pmmngrDeinitRegion, Set.mem_insert_iff, Set.mem_union, mem_regionFinset]
  refine ⟨?_, Or.inr⟩
  rintro (rfl | hf)
  · exact Or.inl (h.frame_zero hf)
  · exact hf

/-- A granted run of free frames of managed memory. -/
theorem Steady.granted {s : Pmm} (h : s.Steady) {f : ℕ} {size : Word}
    (hR : ∀ g ∈ Set.Ico f (f + size.toNat), g < s.mmngrMaxBlocks.toNat ∧ g ∉ s.used) :
    (s.granted f size).Steady := by
  have hmax := h.max_le
  have hend : f + size.toNat ≤ 2 ^ 31 ∨ size.toNat = 0 := by
    rcases Nat.eq_zero_or_pos size.toNat with h0 | hpos
    · exact Or.inr h0
    · have := (hR (f + size.toNat - 1) ⟨by omega, by omega⟩).1
      omega
  refine h.add (mmngrMaxBlocks_granted s f size) (mmngrUsedBlocks_granted s f size)
    (R := Finset.Ico f (f + size.toNat)) (by rw [Nat.card_Ico]; omega) (fun g _ => ?_)
    fun g hg => hR g (Finset.mem_Ico.1 hg)
  rcases hend with hend | h0
  · rw [used_granted s hend, Set.mem_union, Finset.mem_Ico, Set.mem_Ico]
  · rw [Pmm.granted, h0]
    show g ∈ s.used ↔ _
    simp

/-- First fit on a balanced map with a frame left finds one of managed memory. -/
theorem Steady.finds_lt {s : Pmm} (h : s.Steady) (hfree : pmmngrGetFreeBlockCount s ≠ 0) {f : ℕ}
    (hf : s.Finds 1 f) : f < s.mmngrMaxBlocks.toNat ∧ f ∉ s.used := by
  have hclear := hf.isLeast_clear
  have hcard : s.usedFrames.card < (Finset.range s.mmngrMaxBlocks.toNat).card := by
    rw [Finset.card_range]
    have hcount := h.balanced.freeCount.2
    have hpos := BitVec.toNat_pos_of_ne_zero hfree
    omega
  obtain ⟨g, hg, hgu⟩ := Finset.exists_mem_notMem_of_card_lt_card hcard
  have hgm := Finset.mem_range.1 hg
  have hgc : g ∈ s.clear := by
    refine ⟨by omega, ?_⟩
    rw [usedFrames, Finset.mem_filter] at hgu
    simpa [hg] using hgu
  have hle := hclear.2 hgc
  exact ⟨by omega, fun hu => by simpa [hclear.1.2] using hu.2⟩

/-- `pmmngr_alloc_block` keeps the balance : when no block is free by the count, it does nothing. -/
theorem Steady.allocBlock {s : Pmm} (h : s.Steady) : (pmmngrAllocBlock s).2.Steady := by
  rcases pmmngrAllocBlock_cases s with ⟨heq, -⟩ | ⟨f, hfree, hf, heq⟩
  · rw [heq]
    exact h
  · rw [heq]
    refine h.granted fun g hg => ?_
    rw [Ico_one_toNat] at hg
    rw [Set.mem_singleton_iff.1 hg]
    exact h.finds_lt hfree hf

/-- `pmmngr_alloc_blocks` keeps it when the run that it finds is free and managed. -/
theorem Steady.allocBlocks {s : Pmm} (h : s.Steady) {size : Word}
    (hR : size ≠ 0 → size < pmmngrGetFreeBlockCount s → ∀ f, s.Finds size f →
      ∀ g ∈ Set.Ico f (f + size.toNat), g < s.mmngrMaxBlocks.toNat ∧ g ∉ s.used) :
    (pmmngrAllocBlocks s size).2.Steady := by
  rcases pmmngrAllocBlocks_cases s size with ⟨heq, -⟩ | ⟨f, hfree, hsize, hf, heq⟩
  · rw [heq]
    exact h
  · rw [heq]
    exact h.granted (hR hsize hfree f hf)

/-- `pmmngr_free_block` keeps it for a frame in use. -/
theorem Steady.freeBlock {s : Pmm} (h : s.Steady) {p : Word}
    (hp : p.toNat / 4096 < s.mmngrMaxBlocks.toNat ∧ p.toNat / 4096 ∈ s.used ∧ p.toNat / 4096 ≠ 0) :
    (pmmngrFreeBlock s p).Steady := by
  refine h.remove rfl rfl (R := {p.toNat / 4096}) rfl (fun f _ => ?_) fun f hf => ?_
  · rw [used_pmmngrFreeBlock, Set.mem_sdiff, Finset.mem_singleton, Set.mem_singleton_iff]
  · rwa [Finset.mem_singleton.1 hf]

/-- `pmmngr_free_blocks` keeps it for frames in use. -/
theorem Steady.freeBlocks {s : Pmm} (h : s.Steady) {p size : Word}
    (hp : ∀ f ∈ Allocation.frames ⟨p, size⟩,
      f < s.mmngrMaxBlocks.toNat ∧ f ∈ s.used ∧ f ≠ 0) :
    (pmmngrFreeBlocks s p size).Steady := by
  have hmax := h.max_le
  have hend : p.toNat / 4096 + size.toNat ≤ 2 ^ 31 := by
    rcases Nat.eq_zero_or_pos size.toNat with h0 | hpos
    · omega
    · have := (hp (p.toNat / 4096 + size.toNat - 1)
        ⟨Nat.le_sub_one_of_lt (by simp only; omega), by simp only; omega⟩).1
      omega
  refine h.remove (mmngrMaxBlocks_pmmngrFreeBlocks s p size)
    (mmngrUsedBlocks_pmmngrFreeBlocks s p size)
    (R := Finset.Ico (p.toNat / 4096) (p.toNat / 4096 + size.toNat))
    (by rw [Nat.card_Ico]; omega) (fun f _ => ?_) fun f hf => hp f (Finset.mem_Ico.1 hf)
  rw [used_pmmngrFreeBlocks s hend, Set.mem_sdiff, Finset.mem_Ico, Set.mem_Ico]

end Pmm

/-! ## A run -/

/-- The frames an operation counts all change their bit. -/
def Counted (l : Ledger) : PmmOp → Prop
  | .initRegion base size =>
    ∀ f ∈ regionFrames base size, f < l.pmm.mmngrMaxBlocks.toNat ∧ f ∈ l.pmm.used ∧ f ≠ 0
  | .deinitRegion base size =>
    ∀ f ∈ regionFrames base size, f < l.pmm.mmngrMaxBlocks.toNat ∧ f ∉ l.pmm.used
  | .call .allocBlock => True
  | .call (.allocBlocks size) =>
    size ≠ 0 → size < pmmngrGetFreeBlockCount l.pmm → ∀ f, l.pmm.Finds size f →
      ∀ g ∈ Set.Ico f (f + size.toNat), g < l.pmm.mmngrMaxBlocks.toNat ∧ g ∉ l.pmm.used
  | .call (.freeBlock k) | .call (.freeBlocks k) =>
    ∀ a, l.live[k]? = some a →
      ∀ f ∈ a.frames, f < l.pmm.mmngrMaxBlocks.toNat ∧ f ∈ l.pmm.used ∧ f ≠ 0

/-- `pmmngr_init` manages fewer than eight blocks, so that its `memset` writes nothing, and
the memory behind the map happens to have all their bits set. -/
def InitCounted (s : Pmm) (memSize bitmap : Word) : Prop :=
  (initBlockCount memSize).toNat < 8 ∧
    ∀ f < (initBlockCount memSize).toNat,
      { s with mmngrMemoryMap := bitmap }.frameUsed f = true

/-- `pmmngr_init` starts balanced exactly in that case. -/
theorem balanced_pmmngrInit_iff (s : Pmm) (memSize bitmap : Word) :
    (pmmngrInit s memSize bitmap).Balanced ↔ InitCounted s memSize bitmap := by
  set m := (initBlockCount memSize).toNat with hm
  have hlt : m < 2 ^ 32 := (initBlockCount memSize).isLt
  have hfull : (pmmngrInit s memSize bitmap).Balanced ↔
      ∀ f ∈ Finset.range m, (pmmngrInit s memSize bitmap).frameUsed f = true := by
    rw [← Finset.card_filter_eq_iff, Finset.card_range]
    exact eq_comm
  rw [hfull]
  have hused : ∀ f < m, (pmmngrInit s memSize bitmap).frameUsed f =
      if f / 8 < m / 8 then decide (f % 8 < 4) else
        { s with mmngrMemoryMap := bitmap }.frameUsed f := fun f hf =>
    frameUsed_pmmngrInit s memSize bitmap (by simp only [frameLimit]; omega)
  refine ⟨fun h => ?_, fun h f hf => ?_⟩
  · have h8 : m < 8 := by
      by_contra hge
      have h4 := h 4 (Finset.mem_range.2 (by omega))
      rw [hused 4 (by omega), if_pos (by omega)] at h4
      exact absurd h4 (by decide)
    refine ⟨h8, fun f hf => ?_⟩
    have := h f (Finset.mem_range.2 hf)
    rwa [hused f hf, if_neg (by omega)] at this
  · have hf' := Finset.mem_range.1 hf
    have h8 : m < 8 := h.1
    rw [hused f hf', if_neg (by omega)]
    exact h.2 f hf'

/-- After `pmmngr_init` the balance holds, when the map is full as far as memory goes. -/
theorem InitCounted.steady {s : Pmm} {memSize bitmap : Word} (h : InitCounted s memSize bitmap) :
    (pmmngrInit s memSize bitmap).Steady := by
  have hbal := (balanced_pmmngrInit_iff s memSize bitmap).2 h
  have hlt : (initBlockCount memSize).toNat < 8 := h.1
  refine ⟨hbal, fun hpos => ⟨by norm_num, ?_⟩, by rw [mmngrMaxBlocks_pmmngrInit]; omega⟩
  rw [mmngrMaxBlocks_pmmngrInit] at hpos
  rw [frameUsed_pmmngrInit s memSize bitmap (by norm_num), if_neg (by omega)]
  exact h.2 0 hpos

/-- Each counted operation keeps the balance, one case for each. -/
theorem Ledger.steady_perform {l : Ledger} (h : l.pmm.Steady) {op : PmmOp} (hop : Counted l op) :
    (l.perform op).pmm.Steady := by
  cases op with
  | initRegion base size => exact h.initRegion hop
  | deinitRegion base size => exact h.deinitRegion hop
  | call c =>
    cases c with
    | allocBlock => exact h.allocBlock
    | allocBlocks size => exact h.allocBlocks hop
    | freeBlock k =>
      simp only [Ledger.perform, Ledger.step]
      cases hk : l.live[k]? with
      | none => exact h
      | some a =>
        simp only
        split_ifs with hsize
        · refine h.freeBlock (hop a hk _ ?_)
          rw [Allocation.frames, hsize]
          exact ⟨le_rfl, Nat.lt_succ_self _⟩
        · exact h
    | freeBlocks k =>
      simp only [Ledger.perform, Ledger.step]
      cases hk : l.live[k]? with
      | none => exact h
      | some a => exact h.freeBlocks (hop a hk)

/-- In every run from `pmmngr_init` whose steps change every bit they count, the used
count is the number of used frames of managed memory, at most `max_blocks`, and the free
count is the number of free ones. -/
theorem balanced_of_counted (s : Pmm) (memSize bitmap : Word) (ops : List PmmOp)
    (hinit : InitCounted s memSize bitmap)
    (h : Meets Ledger.perform Counted ⟨pmmngrInit s memSize bitmap, []⟩ ops) :
    let pmm := (run Ledger.perform ⟨pmmngrInit s memSize bitmap, []⟩ ops).pmm
    pmm.mmngrUsedBlocks.toNat = pmm.usedFrames.card ∧
      pmm.mmngrUsedBlocks.toNat ≤ pmm.mmngrMaxBlocks.toNat ∧
      (pmmngrGetFreeBlockCount pmm).toNat = pmm.mmngrMaxBlocks.toNat - pmm.usedFrames.card := by
  intro pmm
  have hsteady : pmm.Steady :=
    h.invariant (fun _ _ hl hop => Ledger.steady_perform hl hop) hinit.steady
  exact ⟨hsteady.balanced, hsteady.balanced.freeCount⟩

/-- Seven blocks behind a map whose bits were all set. Three are freed, one of them is
allocated and given back, and another is taken again. -/
theorem balanced_seven_blocks :
    (run Ledger.perform ⟨pmmngrInit fullPmm 28 0, []⟩
      [.initRegion 0x1000 0x3000, .call .allocBlock, .call (.freeBlock 0),
        .deinitRegion 0x2000 0x1000]).pmm.Balanced := by
  have hinit : InitCounted fullPmm 28 0 := by
    refine ⟨by decide, fun f hf => ?_⟩
    exact (mem_used_fullPmm (hf.trans (by decide))).2
  refine (balanced_of_counted fullPmm 28 0 [.initRegion 0x1000 0x3000, .call .allocBlock,
    .call (.freeBlock 0), .deinitRegion 0x2000 0x1000] hinit ⟨?_, trivial, ?_, ?_, trivial⟩).1
  · rintro f ⟨hlo, hhi⟩
    have hlt : f < 4 := hhi
    have hge : 1 ≤ f := hlo
    interval_cases f <;> exact ⟨by decide, ⟨by norm_num, by decide⟩, by decide⟩
  · rintro a ha f ⟨hlo, hhi⟩
    obtain rfl : (⟨0x1000, 1⟩ : Allocation) = a := Option.some.inj (Eq.trans (by decide) ha)
    have hlt : f < 2 := hhi
    have hge : 1 ≤ f := hlo
    obtain rfl : f = 1 := by omega
    exact ⟨by decide, ⟨by norm_num, by decide⟩, by decide⟩
  · rintro f ⟨hlo, hhi⟩
    have hlt : f < 3 := hhi
    have hge : 2 ≤ f := hlo
    obtain rfl : f = 2 := by omega
    exact ⟨by decide, fun hu => absurd hu.2 (by decide)⟩

/-- A region operation on frames of managed memory. -/
def PmmOp.InManaged (maxBlocks : Word) : PmmOp → Prop
  | .initRegion base size | .deinitRegion base size =>
    ∀ f ∈ regionFrames base size, f < maxBlocks.toNat
  | .call _ => True

/-- `pmmngr_init` on 16 MiB counts `4096` blocks as used and marks half of them. -/
theorem not_balanced :
    ¬∀ (s : Pmm) (memSize bitmap : Word) (ops : List PmmOp),
      (∀ op ∈ ops, op.InManaged (initBlockCount memSize)) →
        (run Ledger.perform ⟨pmmngrInit s memSize bitmap, []⟩ ops).pmm.Balanced := by
  intro h
  have hbal := h fullPmm 0x4000 0xC0110000 [] (by simp)
  exact absurd ((balanced_pmmngrInit_iff _ _ _).1 hbal).1 (by decide)

end Scorch
