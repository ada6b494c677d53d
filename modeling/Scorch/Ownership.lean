import Mathlib.Data.List.Pairwise
import Scorch.Lib.GuardedRun
import Scorch.Allocation

/-!
# Live allocations do not overlap

A ledger is the memory manager with the allocations that are still live. Its steps are
the four calls of the interface : a block or a run of blocks is asked for, or a live
allocation is given back with its own size.

A call is safe (`GrantSafe`) when the frames at the start that the search finds are all
clear and end inside the 32-bit address space. For one block only the second is a
condition. For several it can fail, because `mmap_first_free_s` tests the frames from
`32 * i + 2 ^ j` on and returns `32 * i + j`. In a run of safe calls the live
allocations are pairwise disjoint and every range returned was clear
(`live_disjoint_of_grantSafe`).
-/

open ByteMemory GuardedRun

namespace Scorch

open Pmm

/-- An address the allocator returned, with the number of frames asked for. -/
structure Allocation where
  addr : Word
  size : Word
  deriving DecidableEq

/-- The frames of an allocation. -/
def Allocation.frames (a : Allocation) : Set ℕ :=
  Set.Ico (a.addr.toNat / 4096) (a.addr.toNat / 4096 + a.size.toNat)

/-- What a caller has of a returned address : a null pointer is a failure. -/
def Allocation.ofAddr (p size : Word) : Option Allocation :=
  if p = 0 then none else some ⟨p, size⟩

/-- The memory manager and the allocations not given back yet. -/
structure Ledger where
  pmm : Pmm
  live : List Allocation

/-- The calls of the interface. A free names a live allocation by its place in the list. -/
inductive PmmCall where
  | allocBlock
  | allocBlocks (size : Word)
  | freeBlock (k : ℕ)
  | freeBlocks (k : ℕ)

namespace Ledger

/-- The allocation a call returns. -/
def returned (l : Ledger) : PmmCall → Option Allocation
  | .allocBlock => Allocation.ofAddr (pmmngrAllocBlock l.pmm).1 1
  | .allocBlocks size => Allocation.ofAddr (pmmngrAllocBlocks l.pmm size).1 size
  | _ => none

/-- One call. `pmmngr_free_block` is for allocations of one frame, and a free that names
no live allocation of the right size is not made. -/
def step (l : Ledger) : PmmCall → Ledger
  | .allocBlock =>
    ⟨(pmmngrAllocBlock l.pmm).2, (l.returned .allocBlock).toList ++ l.live⟩
  | .allocBlocks size =>
    ⟨(pmmngrAllocBlocks l.pmm size).2, (l.returned (.allocBlocks size)).toList ++ l.live⟩
  | .freeBlock k =>
    match l.live[k]? with
    | some a => if a.size = 1 then ⟨pmmngrFreeBlock l.pmm a.addr, l.live.eraseIdx k⟩ else l
    | none => l
  | .freeBlocks k =>
    match l.live[k]? with
    | some a => ⟨pmmngrFreeBlocks l.pmm a.addr a.size, l.live.eraseIdx k⟩
    | none => l

end Ledger

/-- The frames at the start the search finds for `size` frames are clear and end below
`2^20`, where addresses end. A start at a multiple of `2^20` has a null address, and the
caller gets no allocation. -/
def RunClear (s : Pmm) (size : Word) : Prop :=
  ∀ f, s.Finds size f → frameAddr f ≠ 0 →
    f + size.toNat ≤ 2 ^ 20 ∧ Disjoint (Set.Ico f (f + size.toNat)) s.used

/-- An allocation that passes its guard finds a clear run. -/
def GrantSafe (l : Ledger) : PmmCall → Prop
  | .allocBlock => pmmngrGetFreeBlockCount l.pmm ≠ 0 → RunClear l.pmm 1
  | .allocBlocks size =>
    size ≠ 0 → size < pmmngrGetFreeBlockCount l.pmm → RunClear l.pmm size
  | _ => True

/-! ## The invariant -/

/-- An allocation is a run of used frames below the end of the address space. -/
def Allocation.OwnedIn (a : Allocation) (s : Pmm) : Prop :=
  ∃ f < 2 ^ 20, a.addr = frameAddr f ∧ f + a.size.toNat ≤ 2 ^ 20 ∧
    Set.Ico f (f + a.size.toNat) ⊆ s.used

theorem Allocation.frames_frameAddr {f : ℕ} (hf : f < 2 ^ 20) (size : Word) :
    Allocation.frames ⟨frameAddr f, size⟩ = Set.Ico f (f + size.toNat) := by
  rw [Allocation.frames, frameAddr_div hf]

/-- The frames that somebody owns are in use. -/
theorem Allocation.OwnedIn.frames_subset {a : Allocation} {s : Pmm} (h : a.OwnedIn s) :
    a.frames ⊆ s.used := by
  obtain ⟨addr, size⟩ := a
  obtain ⟨f, hf, rfl, -, hsub⟩ := h
  rwa [frames_frameAddr hf]

theorem Allocation.OwnedIn.mono {a : Allocation} {s s' : Pmm} (h : a.OwnedIn s)
    (hs : a.frames ⊆ s'.used) : a.OwnedIn s' := by
  obtain ⟨addr, size⟩ := a
  obtain ⟨f, hf, rfl, hend, -⟩ := h
  rw [frames_frameAddr hf] at hs
  exact ⟨f, hf, rfl, hend, hs⟩

namespace Ledger

/-- The live allocations are runs of used frames, pairwise disjoint. -/
structure Sound (l : Ledger) : Prop where
  owned : ∀ a ∈ l.live, a.OwnedIn l.pmm
  disjoint : l.live.Pairwise fun a b => Disjoint a.frames b.frames

/-- What an allocator that grants `f`, or leaves the state alone, does to the ledger. -/
theorem Sound.grant {l : Ledger} (h : l.Sound) {size : Word} (hsize : size ≠ 0)
    {r : Word × Pmm} (hr : r = (0, l.pmm) ∨
      ∃ f, l.pmm.Finds size f ∧ r = (frameAddr f, l.pmm.granted f size))
    (hclear : r.1 ≠ 0 → RunClear l.pmm size) :
    Sound ⟨r.2, (Allocation.ofAddr r.1 size).toList ++ l.live⟩ ∧
      ∀ a ∈ Allocation.ofAddr r.1 size, Disjoint a.frames l.pmm.used := by
  rcases hr with rfl | ⟨f, hfind, rfl⟩
  · exact ⟨⟨h.owned, h.disjoint⟩, by simp [Allocation.ofAddr]⟩
  have hmono : ∀ a ∈ l.live, a.OwnedIn (l.pmm.granted f size) := fun a ha =>
    (h.owned a ha).mono ((h.owned a ha).frames_subset.trans (used_subset_granted _ _ _))
  by_cases hnull : frameAddr f = 0
  · rw [Allocation.ofAddr, if_pos hnull]
    exact ⟨⟨hmono, h.disjoint⟩, by simp⟩
  rw [Allocation.ofAddr, if_neg hnull]
  obtain ⟨hend, hdisj⟩ := hclear hnull f hfind hnull
  have hpos := BitVec.toNat_pos_of_ne_zero hsize
  have hf : f < 2 ^ 20 := by omega
  have hused : (l.pmm.granted f size).used = _ := used_granted l.pmm (by omega)
  have hnew : Disjoint (Allocation.frames ⟨frameAddr f, size⟩) l.pmm.used := by
    rwa [Allocation.frames_frameAddr hf]
  refine ⟨⟨fun a ha => ?_, ?_⟩, fun a ha => ?_⟩
  · rcases List.mem_cons.1 ha with rfl | ha
    · refine ⟨f, hf, rfl, hend, ?_⟩
      rw [hused]
      exact Set.subset_union_right
    · exact hmono a ha
  · exact List.pairwise_cons.2 ⟨fun b hb => hnew.mono_right (h.owned b hb).frames_subset,
      h.disjoint⟩
  · obtain rfl := Option.some.inj ha
    exact hnew

/-- Giving back the `k`-th live allocation, once its frames are removed from the map. -/
theorem Sound.release {l : Ledger} (h : l.Sound) {k : ℕ} {a : Allocation}
    (hk : l.live[k]? = some a) {s : Pmm} (hs : s.used = l.pmm.used \ a.frames) :
    Sound ⟨s, l.live.eraseIdx k⟩ := by
  refine ⟨fun b hb => ?_, h.disjoint.sublist (List.eraseIdx_sublist _ _)⟩
  obtain ⟨j, hj, hjk, rfl⟩ := List.mem_eraseIdx_iff_getElem.1 hb
  obtain ⟨hkl, rfl⟩ := List.getElem?_eq_some_iff.1 hk
  have hdisj : Disjoint l.live[j].frames l.live[k].frames := by
    rcases Nat.lt_or_gt_of_ne hjk with hlt | hgt
    · exact List.pairwise_iff_getElem.1 h.disjoint j k hj hkl hlt
    · exact (List.pairwise_iff_getElem.1 h.disjoint k j hkl hj hgt).symm
  have howned := h.owned _ (List.getElem_mem hj)
  refine howned.mono ?_
  rw [hs]
  exact Set.subset_sdiff.2 ⟨howned.frames_subset, hdisj⟩

/-- A free clears the frames of its allocation and no others. -/
theorem used_free {l : Ledger} (h : l.Sound) {a : Allocation} (ha : a ∈ l.live) :
    (pmmngrFreeBlocks l.pmm a.addr a.size).used = l.pmm.used \ a.frames ∧
      (a.size = 1 → (pmmngrFreeBlock l.pmm a.addr).used = l.pmm.used \ a.frames) := by
  obtain ⟨addr, size⟩ := a
  obtain ⟨f, hf, rfl, hend, -⟩ := h.owned _ ha
  have hend' : f + size.toNat ≤ 2 ^ 20 := hend
  refine ⟨used_pmmngrFreeBlocks _ (by rw [frameAddr_div hf]; omega), ?_⟩
  rintro rfl
  rw [used_pmmngrFreeBlock, Allocation.frames, Ico_one_toNat]

/-- A safe call keeps the ledger sound, and what it returns was clear. -/
theorem Sound.step {l : Ledger} (h : l.Sound) {call : PmmCall} (hsafe : GrantSafe l call) :
    (l.step call).Sound ∧ ∀ a ∈ l.returned call, Disjoint a.frames l.pmm.used := by
  cases call with
  | allocBlock =>
    refine h.grant (by decide) ?_ fun hne => ?_
    · rcases pmmngrAllocBlock_cases l.pmm with ⟨heq, -⟩ | ⟨f, -, hf, heq⟩
      · exact Or.inl heq
      · exact Or.inr ⟨f, hf, heq⟩
    · rcases pmmngrAllocBlock_cases l.pmm with ⟨heq, -⟩ | ⟨f, hfree, -, -⟩
      · exact absurd (congrArg Prod.fst heq) hne
      · exact hsafe hfree
  | allocBlocks size =>
    rcases pmmngrAllocBlocks_cases l.pmm size with ⟨heq, -⟩ | ⟨f, hfree, hsize, hf, heq⟩
    · simp only [Ledger.step, returned, heq]
      exact ⟨⟨h.owned, h.disjoint⟩, by simp [Allocation.ofAddr]⟩
    · exact h.grant hsize (Or.inr ⟨f, hf, heq⟩) fun _ => hsafe hsize hfree
  | freeBlock k =>
    refine ⟨?_, by simp [returned]⟩
    simp only [Ledger.step]
    cases hk : l.live[k]? with
    | none => exact h
    | some a =>
      simp only
      split_ifs with hsize
      · exact h.release hk ((used_free h (List.mem_of_getElem? hk)).2 hsize)
      · exact h
  | freeBlocks k =>
    refine ⟨?_, by simp [returned]⟩
    simp only [Ledger.step]
    cases hk : l.live[k]? with
    | none => exact h
    | some a => exact h.release hk (used_free h (List.mem_of_getElem? hk)).1

theorem sound_nil (s : Pmm) : Sound ⟨s, []⟩ :=
  ⟨by simp, List.Pairwise.nil⟩

/-- The invariant along a run of safe calls. -/
theorem sound_run {s : Pmm} {calls : List PmmCall}
    (h : Meets Ledger.step GrantSafe ⟨s, []⟩ calls) :
    (run Ledger.step ⟨s, []⟩ calls).Sound :=
  h.invariant (fun _ _ hl hsafe => (hl.step hsafe).1) (sound_nil s)

/-- In every run of safe calls the live allocations are pairwise disjoint, and every
call returns a range that was clear when it began. -/
theorem live_disjoint_of_grantSafe (s : Pmm) (calls : List PmmCall)
    (h : Meets Ledger.step GrantSafe ⟨s, []⟩ calls) :
    (run Ledger.step ⟨s, []⟩ calls).live.Pairwise (fun a b => Disjoint a.frames b.frames) ∧
      ∀ before call after, calls = before ++ call :: after →
        ∀ a ∈ (run Ledger.step ⟨s, []⟩ before).returned call,
          Disjoint a.frames (run Ledger.step ⟨s, []⟩ before).pmm.used := by
  refine ⟨(sound_run h).disjoint, ?_⟩
  rintro before call after rfl
  rw [List.append_cons] at h
  have hcut : Meets Ledger.step GrantSafe ⟨s, []⟩ (before ++ [call]) := h.of_append
  exact ((sound_run hcut.of_append).step hcut.last).2

/-- A manager of 128 KiB with the first frame used. -/
def smallPmm : Pmm where
  mem a := if a = 0 then 1 else 0
  mmngrMemorySize := 128
  mmngrUsedBlocks := 1
  mmngrMaxBlocks := 32
  mmngrMemoryMap := 0

/-- A request for one block is safe when the map has at most `2^20` bits : first fit never
passes the end of the address space. -/
theorem runClear_one {s : Pmm} (h : s.mmngrMaxBlocks.toNat * 32 ≤ 2 ^ 20) : RunClear s 1 := by
  intro f hf _
  have hclear := hf.isLeast_clear.1
  have hlt : f < 2 ^ 20 := hclear.1.trans_le h
  rw [Ico_one_toNat, Set.disjoint_singleton_left]
  refine ⟨hlt, fun hused => ?_⟩
  have := hused.2.symm.trans hclear.2
  contradiction

/-- A request for two blocks, with nothing but frame `0` used, finds frames `1` and `2`. -/
theorem runClear_smallPmm : RunClear smallPmm 2 := by
  intro f hf _
  have hone : 1 ∈ smallPmm.runStarts 2 := ⟨⟨by decide, by decide⟩, Or.inr (by decide)⟩
  have hne : f ≠ 0 := by
    rintro rfl
    exact absurd hf.1.1.1.2 (by decide)
  obtain rfl : f = 1 := by
    have := hf.1.2 hone
    omega
  refine ⟨by decide, Set.disjoint_left.2 fun g hg hused => ?_⟩
  have hrange : g = 1 ∨ g = 2 := by
    have h2 : (2 : Word).toNat = 2 := rfl
    rw [h2] at hg
    have h3 := hg.1
    have h4 := hg.2
    omega
  rcases hrange with rfl | rfl
  · exact absurd hused.2 (by decide)
  · exact absurd hused.2 (by decide)

/-- A run of two frames, then one, then the run given back. -/
theorem live_disjoint_smallPmm :
    (run Ledger.step ⟨smallPmm, []⟩ [.allocBlocks 2, .allocBlock, .freeBlocks 1]).live.Pairwise
      fun a b => Disjoint a.frames b.frames :=
  (live_disjoint_of_grantSafe smallPmm [.allocBlocks 2, .allocBlock, .freeBlocks 1]
    ⟨fun _ _ => runClear_smallPmm, fun _ => runClear_one (by decide), trivial, trivial⟩).1

/-- Two blocks are allocated and the first is given back. A request for two blocks then
returns frames `1` and `2` : the test for the candidate `1` is made on frames `2`, `3`
and `4`, where two are clear. -/
theorem not_live_disjoint :
    ¬∀ (s : Pmm) (calls : List PmmCall),
      (run Ledger.step ⟨s, []⟩ calls).live.Pairwise fun a b => Disjoint a.frames b.frames := by
  intro h
  have hlive : (run Ledger.step ⟨smallPmm, []⟩
      [.allocBlock, .allocBlock, .freeBlock 1, .allocBlocks 2]).live =
        [⟨0x1000, 2⟩, ⟨0x2000, 1⟩] := by
    decide
  have hpair := h smallPmm [.allocBlock, .allocBlock, .freeBlock 1, .allocBlocks 2]
  rw [hlive] at hpair
  have hdisj := (List.pairwise_cons.1 hpair).1 ⟨0x2000, 1⟩ (by simp)
  exact Set.disjoint_left.1 hdisj (show 2 ∈ Set.Ico _ _ from ⟨by decide, by decide⟩)
    (show 2 ∈ Set.Ico _ _ from ⟨by decide, by decide⟩)

end Ledger

end Scorch
