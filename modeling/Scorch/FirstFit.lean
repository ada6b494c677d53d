import Mathlib.Data.Set.Card
import Mathlib.Logic.Function.Iterate
import Mathlib.Order.Lattice.Nat
import Scorch.Allocation

/-!
# Repeated allocations of one block

`pmmngr_alloc_block` hands the clear frames out in ascending order until the free count
is used up. A clear frame is therefore reached when fewer clear frames lie below it than
the free count allows (`exists_alloc_frameAddr`), and the frames of a set are never handed
out when this fails for all of them (`notMem_of_guarded`).

`freeList` is the list of these frames in the order they are handed out. An allocation
takes its head (`pmmngrAllocBlock_of_freeList_cons`) and fails when it is empty, and
marking a run of frames only takes frames out of it (`mem_freeList_granted`).

`Guarded` is the invariant of the second : it holds of the next state when it holds of this one,
since an allocation takes one from the count and one from the frames below.
-/

open ByteMemory

namespace Scorch

namespace Pmm

/-- The clear frames below `f`. -/
def clearBelow (s : Pmm) (f : ℕ) : Set ℕ :=
  s.clear ∩ Set.Iio f

/-- There are finitely many frames below `f`. -/
theorem finite_clearBelow (s : Pmm) (f : ℕ) : (s.clearBelow f).Finite :=
  (Set.finite_Iio f).inter_of_right _

/-- The state after `n` calls of `pmmngr_alloc_block`. -/
def afterAllocs (s : Pmm) (n : ℕ) : Pmm :=
  (fun s => (pmmngrAllocBlock s).2)^[n] s

/-- One allocation, and the others after it. -/
theorem afterAllocs_succ (s : Pmm) (n : ℕ) :
    s.afterAllocs (n + 1) = (pmmngrAllocBlock s).2.afterAllocs n :=
  Function.iterate_succ_apply _ n s

/-- The frames of `B` that are clear have at least as many clear frames below them as the
free count admits. -/
def Guarded (s : Pmm) (B : Set ℕ) : Prop :=
  ∀ f ∈ B, f ∈ s.clear → f < frameLimit →
    (pmmngrGetFreeBlockCount s).toNat ≤ (s.clearBelow f).ncard

/-! ## One grant -/

/-- A clear frame of the map is one that is not in use. -/
theorem mem_clear_iff {s : Pmm} {f : ℕ} (hf : f < frameLimit) :
    f ∈ s.clear ↔ f < s.mmngrMaxBlocks.toNat * 32 ∧ f ∉ s.used := by
  rw [mem_clear, mem_used]
  simp [hf]

/-- A grant takes its frame out of the clear ones. -/
theorem mem_clear_granted {s : Pmm} {f g : ℕ} (hg : g < frameLimit) :
    g ∈ (s.granted f 1).clear ↔ g ∈ s.clear ∧ g ≠ bitNumber (BitVec.ofNat 32 f) := by
  rw [mem_clear_iff hg, mem_clear_iff hg, used_granted_one, mmngrMaxBlocks_granted,
    Set.mem_insert_iff, not_or]
  tauto

/-- The free count goes down by the blocks granted. -/
theorem freeCount_granted (s : Pmm) (f : ℕ) (size : Word) :
    pmmngrGetFreeBlockCount (s.granted f size) = pmmngrGetFreeBlockCount s - size := by
  unfold pmmngrGetFreeBlockCount
  rw [mmngrMaxBlocks_granted, mmngrUsedBlocks_granted]
  bv_omega

theorem toNat_freeCount_granted {s : Pmm} (f : ℕ) (h : pmmngrGetFreeBlockCount s ≠ 0) :
    (pmmngrGetFreeBlockCount (s.granted f 1)).toNat + 1 = (pmmngrGetFreeBlockCount s).toNat := by
  rw [freeCount_granted]
  bv_omega

/-- First fit grants the least clear frame, when the count admits one. -/
theorem pmmngrAllocBlock_of_isLeast {s : Pmm} {f : ℕ} (hf : IsLeast s.clear f) (hlt : f < 2 ^ 31)
    (hfree : pmmngrGetFreeBlockCount s ≠ 0) :
    pmmngrAllocBlock s = (frameAddr f, s.granted f 1) := by
  have hfind : s.Finds 1 f := ⟨by rwa [runStarts_one], ofNat_ne_neg_one (by omega)⟩
  rcases pmmngrAllocBlock_cases s with ⟨-, h | h⟩ | ⟨g, -, hg, heq⟩
  · exact absurd h hfree
  · exact absurd hfind (h f)
  · rwa [hg.isLeast_clear.unique hf] at heq

theorem clearBelow_granted {s : Pmm} {f g : ℕ} (hg : g ≤ frameLimit) :
    (s.granted f 1).clearBelow g = s.clearBelow g \ {bitNumber (BitVec.ofNat 32 f)} := by
  ext t
  rw [clearBelow, clearBelow, Set.mem_sdiff, Set.mem_inter_iff, Set.mem_inter_iff,
    Set.mem_singleton_iff, and_right_comm]
  exact and_congr_left fun ht => mem_clear_granted ((Set.mem_Iio.1 ht).trans_le hg)

/-- A grant uses up one of the free count and at most one clear frame. -/
theorem Guarded.granted {s : Pmm} {B : Set ℕ} (h : s.Guarded B)
    (hfree : pmmngrGetFreeBlockCount s ≠ 0) (f : ℕ) : (s.granted f 1).Guarded B := by
  intro g hgB hg hlt
  have hclear := ((mem_clear_granted hlt).1 hg).1
  have hle := h g hgB hclear hlt
  have hcount := toNat_freeCount_granted f hfree
  have hcard := Set.ncard_sdiff_singleton_le (s.clearBelow g) (bitNumber (BitVec.ofNat 32 f))
  have hpred := Set.pred_ncard_le_ncard_sdiff_singleton (s.clearBelow g)
    (bitNumber (BitVec.ofNat 32 f))
  rw [clearBelow_granted hlt.le]
  omega

/-- First fit takes no guarded frame. -/
theorem Guarded.notMem {s : Pmm} {B : Set ℕ} (h : s.Guarded B)
    (hfree : pmmngrGetFreeBlockCount s ≠ 0) {f : ℕ} (hf : s.Finds 1 f) : f ∉ B := by
  intro hB
  have hleast := hf.isLeast_clear
  have hle := h f hB hleast.1 (lt_frameLimit_of_isLeast hleast)
  have hempty : s.clearBelow f = ∅ :=
    Set.eq_empty_of_forall_notMem fun g hg => absurd (hleast.2 hg.1) (not_le.2 hg.2)
  rw [hempty, Set.ncard_empty] at hle
  exact hfree (BitVec.eq_of_toNat_eq (Nat.le_zero.1 hle))

/-- A frame that the guard keeps back is kept back after an allocation. -/
theorem Guarded.alloc {s : Pmm} {B : Set ℕ} (h : s.Guarded B) :
    (pmmngrAllocBlock s).2.Guarded B := by
  rcases pmmngrAllocBlock_cases s with ⟨heq, -⟩ | ⟨f, hfree, -, heq⟩
  · rwa [heq]
  · rw [heq]
    exact h.granted hfree f

/-! ## All calls -/

theorem Guarded.afterAllocs {B : Set ℕ} : ∀ (n : ℕ) {s : Pmm}, s.Guarded B →
    (s.afterAllocs n).Guarded B
  | 0, _, h => h
  | n + 1, s, h => by
    rw [afterAllocs_succ]
    exact Guarded.afterAllocs n h.alloc

/-- A non-null address any later call returns is the address of a frame outside a guarded
set. -/
theorem notMem_of_guarded {s : Pmm} {B : Set ℕ} (h : s.Guarded B) (n : ℕ)
    (hne : (pmmngrAllocBlock (s.afterAllocs n)).1 ≠ 0) :
    ∃ f, f ∉ B ∧ (pmmngrAllocBlock (s.afterAllocs n)).1 = frameAddr f := by
  rcases pmmngrAllocBlock_cases (s.afterAllocs n) with ⟨heq, -⟩ | ⟨f, hfree, hf, heq⟩
  · exact absurd (congrArg Prod.fst heq) hne
  · exact ⟨f, (h.afterAllocs n).notMem hfree hf, congrArg Prod.fst heq⟩

/-- A clear frame with fewer clear frames below it than the free count is reached. The
induction is on the number of those frames, which each call lowers by one. -/
theorem exists_alloc_frameAddr {f : ℕ} (hlt : f < 2 ^ 31) (k : ℕ) : ∀ {s : Pmm}, f ∈ s.clear →
    (s.clearBelow f).ncard = k → k < (pmmngrGetFreeBlockCount s).toNat →
    ∃ n, (pmmngrAllocBlock (s.afterAllocs n)).1 = frameAddr f := by
  have hlim : f < frameLimit := hlt.trans (by norm_num)
  induction k with
  | zero =>
    intro s hf hk hfree
    have hempty := (Set.ncard_eq_zero (s.finite_clearBelow f)).1 hk
    have hleast : IsLeast s.clear f := ⟨hf, fun g hg => by
      by_contra hgf
      exact hempty.le (⟨hg, not_le.1 hgf⟩ : g ∈ s.clearBelow f)⟩
    have hne : pmmngrGetFreeBlockCount s ≠ 0 := fun h0 => by
      rw [h0] at hfree
      exact absurd hfree (by decide)
    exact ⟨0, congrArg Prod.fst (pmmngrAllocBlock_of_isLeast hleast hlt hne)⟩
  | succ k ih =>
    intro s hf hk hfree
    have hne : pmmngrGetFreeBlockCount s ≠ 0 := fun h0 => by
      rw [h0] at hfree
      exact absurd hfree (Nat.not_lt_zero _)
    have hnonempty : (s.clearBelow f).Nonempty := by
      rw [← Set.ncard_pos (s.finite_clearBelow f)]
      omega
    -- The least clear frame is below `f`, and the first call takes it.
    have hleast : IsLeast s.clear (sInf s.clear) := isLeast_csInf ⟨f, hf⟩
    set g := sInf s.clear
    have hgf : g < f := by
      obtain ⟨t, ht⟩ := hnonempty
      exact (hleast.2 ht.1).trans_lt ht.2
    have hbit : bitNumber (BitVec.ofNat 32 g) = g := bitNumber_ofNat (hgf.trans hlt)
    have halloc := pmmngrAllocBlock_of_isLeast hleast (hgf.trans hlt) hne
    have hcard : ((s.granted g 1).clearBelow f).ncard = k := by
      have hmem : g ∈ s.clearBelow f := ⟨hleast.1, hgf⟩
      rw [clearBelow_granted hlim.le, hbit, Set.ncard_sdiff_singleton_of_mem hmem, hk,
        Nat.add_sub_cancel]
    have hcount := toNat_freeCount_granted g hne
    have hclear : f ∈ (s.granted g 1).clear :=
      (mem_clear_granted hlim).2 ⟨hf, by rw [hbit]; exact hgf.ne'⟩
    obtain ⟨n, hn⟩ := ih hclear hcard (by omega)
    refine ⟨n + 1, ?_⟩
    rw [afterAllocs_succ, halloc]
    exact hn

/-! ## The list of frames handed out -/

/-- The clear frames in ascending order. -/
def clearList (s : Pmm) : List ℕ :=
  (List.range frameLimit).filter fun f => f < s.mmngrMaxBlocks.toNat * 32 ∧ s.frameUsed f = false

/-- The frames that calls of `pmmngr_alloc_block` return, in order. -/
def freeList (s : Pmm) : List ℕ :=
  s.clearList.take (pmmngrGetFreeBlockCount s).toNat

theorem mem_clearList {s : Pmm} {f : ℕ} : f ∈ s.clearList ↔ f < frameLimit ∧ f ∈ s.clear := by
  rw [clearList, List.mem_filter, List.mem_range, decide_eq_true_iff]
  rfl

theorem pairwise_clearList (s : Pmm) : s.clearList.Pairwise (· < ·) :=
  List.pairwise_lt_range.filter _

theorem pairwise_freeList (s : Pmm) : s.freeList.Pairwise (· < ·) :=
  s.pairwise_clearList.sublist (List.take_sublist _ _)

/-- A frame that can be handed out is clear. -/
theorem mem_clear_of_mem_freeList {s : Pmm} {f : ℕ} (h : f ∈ s.freeList) : f ∈ s.clear :=
  (mem_clearList.1 (List.mem_of_mem_take h)).2

/-- The least clear frame is the first one handed out. -/
theorem mem_freeList_of_isLeast {s : Pmm} {f : ℕ} (hf : IsLeast s.clear f)
    (hfree : pmmngrGetFreeBlockCount s ≠ 0) : f ∈ s.freeList := by
  have hmem : f ∈ s.clearList := mem_clearList.2 ⟨lt_frameLimit_of_isLeast hf, hf.1⟩
  have hsorted := s.pairwise_clearList
  cases hlist : s.clearList with
  | nil => simp [hlist] at hmem
  | cons g tail =>
    have hg : f ≤ g := hf.2 (mem_clearList.1 (hlist ▸ List.mem_cons_self)).2
    rw [hlist, List.pairwise_cons] at hsorted
    rw [hlist, List.mem_cons] at hmem
    obtain ⟨n, hn⟩ := Nat.exists_eq_add_one.2 (BitVec.toNat_pos_of_ne_zero hfree)
    rw [freeList, hlist, hn, List.take_succ_cons]
    rcases hmem with rfl | htail
    · exact List.mem_cons_self
    · exact absurd (hsorted.1 f htail) (not_lt.2 hg)

/-- Nothing is handed out when the list is empty. -/
theorem pmmngrAllocBlock_of_freeList_nil {s : Pmm} (h : s.freeList = []) :
    pmmngrAllocBlock s = (0, s) := by
  rcases pmmngrAllocBlock_cases s with ⟨heq, -⟩ | ⟨f, hfree, hf, -⟩
  · exact heq
  · have hmem := mem_freeList_of_isLeast hf.isLeast_clear hfree
    rw [h] at hmem
    exact absurd hmem List.not_mem_nil

/-- The list without the granted frame. -/
theorem clearList_granted (s : Pmm) (f : ℕ) :
    (s.granted f 1).clearList =
      s.clearList.filter fun g => g ≠ bitNumber (BitVec.ofNat 32 f) := by
  unfold clearList
  rw [List.filter_filter]
  refine List.filter_congr fun g hg => ?_
  have hmem := mem_clear_granted (s := s) (f := f) (List.mem_range.1 hg)
  rw [mem_clear, mem_clear] at hmem
  rw [← Bool.decide_and, decide_eq_decide, hmem, and_comm]

/-- An allocation takes the head of the list. -/
theorem pmmngrAllocBlock_of_freeList_cons {s : Pmm} {f : ℕ} {rest : List ℕ}
    (h : s.freeList = f :: rest) (hlt : f < 2 ^ 31) :
    pmmngrAllocBlock s = (frameAddr f, s.granted f 1) ∧ (s.granted f 1).freeList = rest := by
  have hsorted := s.pairwise_clearList
  unfold freeList at h
  cases hlist : s.clearList with
  | nil => simp [hlist] at h
  | cons g tail =>
    obtain ⟨n, hn⟩ : ∃ n, (pmmngrGetFreeBlockCount s).toNat = n + 1 := by
      cases hcount : (pmmngrGetFreeBlockCount s).toNat with
      | zero => simp [hcount] at h
      | succ n => exact ⟨n, rfl⟩
    rw [hlist, hn, List.take_succ_cons, List.cons.injEq] at h
    obtain ⟨rfl, rfl⟩ := h
    rw [hlist, List.pairwise_cons] at hsorted
    have hfree : pmmngrGetFreeBlockCount s ≠ 0 := fun h0 => by
      rw [h0] at hn
      exact absurd hn (by simp)
    have hleast : IsLeast s.clear g := by
      refine ⟨(mem_clearList.1 (hlist ▸ List.mem_cons_self)).2, fun x hx => ?_⟩
      rcases Nat.lt_or_ge x frameLimit with hxl | hxl
      · have hmem : x ∈ g :: tail := hlist ▸ mem_clearList.2 ⟨hxl, hx⟩
        rcases List.mem_cons.1 hmem with rfl | hxt
        · exact le_rfl
        · exact (hsorted.1 x hxt).le
      · exact (hlt.le.trans (by norm_num)).trans hxl
    refine ⟨pmmngrAllocBlock_of_isLeast hleast hlt hfree, ?_⟩
    have hcount : (pmmngrGetFreeBlockCount (s.granted g 1)).toNat = n := by
      have := toNat_freeCount_granted g hfree
      omega
    have htail : tail.filter (fun x => x ≠ g) = tail :=
      List.filter_eq_self.2 fun x hx => decide_eq_true (hsorted.1 x hx).ne'
    rw [freeList, clearList_granted, hlist, bitNumber_ofNat hlt, List.filter_cons_of_neg (by simp),
      htail, hcount]

/-- What is left of the first elements of a list after some are filtered out. -/
theorem mem_take_of_mem_take_filter {α : Type*} {p : α → Bool} {x : α} :
    ∀ (l : List α) (k : ℕ), x ∈ (l.filter p).take k →
      x ∈ l.take (k + (l.filter fun y => !p y).length)
  | [], _, h => by simp at h
  | y :: l, k, h => by
    cases hy : p y with
    | true =>
      rw [List.filter_cons_of_pos hy] at h
      rw [List.filter_cons_of_neg (by simp [hy])]
      cases k with
      | zero => simp at h
      | succ k =>
        rw [Nat.add_right_comm, List.take_succ_cons, List.mem_cons]
        rw [List.take_succ_cons, List.mem_cons] at h
        exact h.imp_right (mem_take_of_mem_take_filter l k)
    | false =>
      rw [List.filter_cons_of_neg (by simp [hy])] at h
      rw [List.filter_cons_of_pos (by simp [hy]), List.length_cons, ← Nat.add_assoc,
        List.take_succ_cons]
      exact List.mem_cons_of_mem _ (mem_take_of_mem_take_filter l k h)

theorem clearList_granted_run {s : Pmm} {f : ℕ} {size : Word} (hend : f + size.toNat ≤ 2 ^ 31) :
    (s.granted f size).clearList =
      s.clearList.filter fun g => g ∉ Finset.Ico f (f + size.toNat) := by
  unfold clearList
  rw [List.filter_filter]
  refine List.filter_congr fun g hg => ?_
  have hclear : g ∈ (s.granted f size).clear ↔
      g ∉ Finset.Ico f (f + size.toNat) ∧ g ∈ s.clear := by
    rw [mem_clear_iff (List.mem_range.1 hg), mem_clear_iff (List.mem_range.1 hg),
      used_granted s hend, mmngrMaxBlocks_granted, Set.mem_union, not_or, Finset.mem_Ico,
      Set.mem_Ico]
    exact ⟨fun h => ⟨h.2.2, h.1, h.2.1⟩, fun h => ⟨h.2.1, h.2.2, h.1⟩⟩
  rw [← Bool.decide_and, decide_eq_decide]
  exact hclear

/-- A granted run takes its frames out of the list and cuts it at the new free count. -/
theorem mem_freeList_granted {s : Pmm} {f g : ℕ} {size : Word} (hend : f + size.toNat ≤ 2 ^ 31)
    (hsize : size < pmmngrGetFreeBlockCount s) (hg : g ∈ (s.granted f size).freeList) :
    g ∈ s.freeList ∧ g ∉ Set.Ico f (f + size.toNat) := by
  have hremoved : (s.clearList.filter fun x => !decide (x ∉ Finset.Ico f (f + size.toNat))).length ≤
      size.toNat := by
    have hnodup : (s.clearList.filter fun x =>
        !decide (x ∉ Finset.Ico f (f + size.toNat))).Nodup :=
      (s.pairwise_clearList.imp fun h => h.ne).filter _
    have hsub : (s.clearList.filter fun x =>
        !decide (x ∉ Finset.Ico f (f + size.toNat))).toFinset ⊆ Finset.Ico f (f + size.toNat) :=
      fun x hx => by simpa using (List.mem_filter.1 (List.mem_toFinset.1 hx)).2
    have hcard := Finset.card_le_card hsub
    rw [List.toFinset_card_of_nodup hnodup, Nat.card_Ico] at hcard
    omega
  have hcount : (pmmngrGetFreeBlockCount (s.granted f size)).toNat + size.toNat =
      (pmmngrGetFreeBlockCount s).toNat := by
    rw [freeCount_granted]
    bv_omega
  rw [freeList, clearList_granted_run hend] at hg
  refine ⟨List.take_subset_take_left _ (by omega) (mem_take_of_mem_take_filter _ _ hg), ?_⟩
  have hout := (List.mem_filter.1 (List.mem_of_mem_take hg)).2
  rw [decide_eq_true_iff, Finset.mem_Ico] at hout
  exact hout

end Pmm

end Scorch
