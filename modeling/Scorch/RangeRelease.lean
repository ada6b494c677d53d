import Scorch.Ownership
import Scorch.PageRange

/-!
# Releasing a range of pages

`vmmngr_dealloc_pages_at_virtual_address` has the guard of the allocation : it gives up when
the first page of the range is mapped. After an allocation it is, unless its table could not
be had. And one round of the loop frees at most one frame, that of a table, so that of `n`
frames some stays used when a round finds its slot empty (`exists_used_of_idle`). Of
three pages in a row two share a slot, which leaves ranges of one page, and of two
pages in different slots. There the first page is mapped (`releasable_iff`).

The count is an induction on the rounds. A round that finds its slot empty frees nothing, and a
slot is empty once a round has been there (`WellFormed.idle_succ`), so a second page of the same
4 MiB is always one round too many.
-/

open ByteMemory GuardedRun

namespace Scorch

open Pmm

namespace Vmm

/-! ## The loop of the deallocation -/

theorem unmapPages_add (dir : Word) : ∀ (m n : ℕ) (start : Word) (s : Vmm),
    unmapPages dir (m + n) start s =
      unmapPages dir n (rangePage start m) (unmapPages dir m start s)
  | 0, n, start, s => by
    rw [Nat.zero_add, rangePage_zero]
    rfl
  | m + 1, n, start, s => by
    have hstep : rangePage (start + 4096) m = rangePage start (m + 1) := by
      rw [rangePage, rangePage, BitVec.ofNat_add m 1]
      bv_omega
    rw [Nat.add_right_comm, unmapPages, unmapPages_add dir m n, hstep]
    rfl

/-- One call frees at most one frame. -/
theorem exists_used_unmapPhysicalAddress (s : Vmm) (dir v : Word) :
    ∃ g, s.pmm.used \ {g} ⊆ (vmmngrUnmapPhysicalAddress s dir v).pmm.used := by
  by_cases hv : s.pagedir dir (dirIndex v) = 0
  · rw [unmapPhysicalAddress_of_empty hv]
    exact ⟨0, Set.sdiff_subset⟩
  · rw [unmapPhysicalAddress_of_table hv]
    exact ⟨_, (used_pmmngrFreeBlock _ _).ge⟩

/-- The loop leaves all but `n` of the used frames used. -/
theorem exists_used_unmapPages (dir : Word) : ∀ (n : ℕ) (start : Word) (s : Vmm) (D : Finset ℕ),
    (∀ g ∈ D, g ∈ s.pmm.used) →
      ∃ E ⊆ D, D.card ≤ E.card + n ∧ ∀ g ∈ E, g ∈ (unmapPages dir n start s).pmm.used
  | 0, _, _, D, hD => ⟨D, subset_rfl, le_rfl, hD⟩
  | n + 1, start, s, D, hD => by
    obtain ⟨x, hx⟩ := exists_used_unmapPhysicalAddress s dir start
    obtain ⟨E, hE, hcard, hused⟩ := exists_used_unmapPages dir n (start + 4096) _ (D.erase x)
      fun g hg => hx ⟨hD g (Finset.mem_of_mem_erase hg), Finset.ne_of_mem_erase hg⟩
    have hpred := Finset.pred_card_le_card_erase (s := D) (a := x)
    exact ⟨E, hE.trans (Finset.erase_subset _ _), by omega, hused⟩

/-- When a round finds its slot empty the loop leaves one more used. -/
theorem exists_used_of_idle {dir start : Word} {n k : ℕ} (hk : k < n) {s : Vmm}
    (hidle : (unmapPages dir k start s).pagedir dir (dirIndex (rangePage start k)) = 0)
    {D : Finset ℕ} (hD : ∀ g ∈ D, g ∈ s.pmm.used) (hcard : n ≤ D.card) :
    ∃ g ∈ D, g ∈ (unmapPages dir n start s).pmm.used := by
  obtain ⟨m, rfl⟩ : ∃ m, n = k + 1 + m := ⟨n - k - 1, by omega⟩
  obtain ⟨E, hE, hEcard, hEused⟩ := exists_used_unmapPages dir k start s D hD
  have hround : unmapPages dir (k + 1) start s = unmapPages dir k start s := by
    rw [unmapPages_add]
    exact unmapPhysicalAddress_of_empty hidle
  rw [← hround] at hEused
  obtain ⟨F, hF, hFcard, hFused⟩ :=
    exists_used_unmapPages dir m (rangePage start (k + 1)) _ E hEused
  obtain ⟨g, hg⟩ : F.Nonempty := Finset.card_pos.1 (by omega)
  refine ⟨g, hE (hF hg), ?_⟩
  rw [unmapPages_add]
  exact hFused g hg

/-- Clearing a slot keeps the address space well formed. -/
theorem WellFormed.unmapPhysicalAddress {s : Vmm} {dir : Word} (h : s.WellFormed dir) (v : Word) :
    (vmmngrUnmapPhysicalAddress s dir v).WellFormed dir := by
  have hdir := fun i hi => h.pagedir_unmapPhysicalAddress v (i := i) hi
  refine ⟨h.isPage, fun i hi => ?_, fun i j hi hj => ?_⟩
  · rw [hdir i hi]
    split_ifs
    · exact fun hne => absurd rfl hne
    · exact h.table_ne_dir i hi
  · rw [hdir i hi, hdir j hj]
    split_ifs
    · exact fun hne => absurd rfl hne
    · exact fun hne => absurd rfl hne
    · exact fun _ hne => absurd rfl hne
    · exact h.table_inj i j hi hj

theorem WellFormed.unmapPages {dir : Word} : ∀ (n : ℕ) (start : Word) {s : Vmm},
    s.WellFormed dir → (Scorch.unmapPages dir n start s).WellFormed dir
  | 0, _, _, h => h
  | n + 1, start, _, h => WellFormed.unmapPages n (start + 4096) (h.unmapPhysicalAddress start)

/-- After a round its slot is empty, so a second page of the same slot is idle. -/
theorem WellFormed.idle_succ {s : Vmm} {dir : Word} (h : s.WellFormed dir) {start : Word} {k : ℕ}
    (hslot : dirIndex (rangePage start (k + 1)) = dirIndex (rangePage start k)) :
    (Scorch.unmapPages dir (k + 1) start s).pagedir dir (dirIndex (rangePage start (k + 1))) =
      0 := by
  rw [unmapPages_add, hslot]
  show (vmmngrUnmapPhysicalAddress _ dir (rangePage start k)).pagedir dir _ = 0
  rw [(h.unmapPages k start).pagedir_unmapPhysicalAddress _ (dirIndex_lt _), if_pos rfl]

/-- Of `n` used frames the loop frees all only when `n` pages lie in different slots, which
leaves one page, or two on both sides of a 4 MiB boundary. -/
theorem WellFormed.pages_of_all_freed {s : Vmm} {dir : Word} (h : s.WellFormed dir) {start : Word}
    {n : ℕ} {D : Finset ℕ} (hD : ∀ g ∈ D, g ∈ s.pmm.used) (hcard : n ≤ D.card)
    (hfreed : ∀ g ∈ D, g ∉ (Scorch.unmapPages dir n start s).pmm.used) (hpos : 0 < n) :
    s.pagedir dir (dirIndex start) ≠ 0 ∧
      (n = 1 ∨ n = 2 ∧ (start.toNat / 4096 + 1) % 1024 = 0) := by
  have hbusy : ∀ k < n, (Scorch.unmapPages dir k start s).pagedir dir
      (dirIndex (rangePage start k)) ≠ 0 := by
    intro k hk hidle
    obtain ⟨g, hg, hused⟩ := exists_used_of_idle hk hidle hD hcard
    exact hfreed g hg hused
  have hne : ∀ k, k + 1 < n →
      (dirIndex (rangePage start (k + 1))).toNat ≠ (dirIndex (rangePage start k)).toNat :=
    fun k hk heq => hbusy (k + 1) hk (h.idle_succ (BitVec.eq_of_toNat_eq heq))
  have hdiv : ∀ k, (dirIndex (rangePage start k)).toNat =
      (start.toNat / 4096 + k) % 2 ^ 20 / 1024 := by
    intro k
    rw [toNat_dirIndex, ← toNat_rangePage_div]
    omega
  have hfirst := hbusy 0 hpos
  rw [rangePage_zero] at hfirst
  refine ⟨hfirst, ?_⟩
  by_cases h1 : n = 1
  · exact Or.inl h1
  have hne₀ := hne 0 (by omega)
  rw [hdiv, hdiv] at hne₀
  by_cases h2 : n = 2
  · exact Or.inr ⟨h2, by omega⟩
  have hne₁ := hne 1 (by omega)
  rw [hdiv, hdiv] at hne₁
  omega

/-! ## After an allocation -/

theorem used_subset_run (dir : Word) (es : List Effect) (s : Vmm) :
    s.pmm.used ⊆ (run (Vmm.perform dir) s es).pmm.used := by
  induction es generalizing s with
  | nil => exact subset_rfl
  | cons e es ih =>
    refine Set.Subset.trans ?_ (ih _)
    cases e with
    | entry page value => exact subset_rfl
    | install slot f =>
      show s.pmm.used ⊆ (pmmngrAllocBlock s.pmm).2.used
      rcases pmmngrAllocBlock_cases s.pmm with ⟨heq, -⟩ | ⟨g, -, -, heq⟩
      · rw [heq]
      · rw [heq]
        exact used_subset_granted _ _ _

theorem Sound.used_subset_mapPages {s : Vmm} {dir : Word} (h : s.Sound dir) (virt : Word)
    (f n : ℕ) : s.pmm.used ⊆ (Scorch.mapPages dir n virt (frameAddr f) s).pmm.used := by
  induction n with
  | zero => exact subset_rfl
  | succ n ih =>
    rw [h.mapPages_succ]
    exact ih.trans (used_subset_run _ _ _)

/-- A page that is not the first of its table stays mapped when every entry stored is not
zero. -/
theorem Sound.getPhysicalAddress_run_ne_zero {dir : Word} {es : List Effect} :
    ∀ {s : Vmm}, s.Sound dir → Meets Stock.after Stock.Ready (s.stock dir) es → ∀ {q : ℕ},
      q < 2 ^ 20 → q % 1024 ≠ 0 → (s.tables dir (q / 1024)).isSome →
      (∀ page value, Effect.entry page value ∈ es → value ≠ 0) →
      vmmngrGetPhysicalAddress s dir (frameAddr q) ≠ 0 →
      vmmngrGetPhysicalAddress (GuardedRun.run (Vmm.perform dir) s es) dir (frameAddr q) ≠ 0 := by
  induction es with
  | nil => exact fun _ _ _ _ _ _ _ hget => hget
  | cons e es ih =>
    intro s h hr q hq hmod hsome hvalues hget
    obtain ⟨hsound, hstock⟩ := h.perform hr.1
    have hrest := hr.2
    rw [← hstock] at hrest
    refine ih hsound hrest hq hmod (h.isSome_tables_perform hsome hr.1)
      (fun page value hmem => hvalues page value (List.mem_cons_of_mem _ hmem)) ?_
    by_cases hs : (s.stock dir).Spares q e
    · rwa [h.getPhysicalAddress_perform_of_spares hq hsome hr.1 hs]
    · cases e with
      | install slot f => exact absurd (not_not.1 hs).1 hmod
      | entry page value =>
        obtain rfl : page = q := not_not.1 hs
        rw [h.getPhysicalAddress_perform_entry hq hsome hr.1, if_pos rfl]
        exact hvalues _ _ List.mem_cons_self

/-- The first page of such a range is mapped when its slot has a table in the end. -/
theorem Sound.getPhysicalAddress_mapPages_ne_zero {s : Vmm} {dir : Word} (h : s.Sound dir)
    (virt : Word) (f : ℕ) {n : ℕ} (hn : n = 1 ∨ n = 2 ∧ (virt.toNat / 4096 + 1) % 1024 = 0)
    (hslot : (Scorch.mapPages dir n virt (frameAddr f) s).pagedir dir (dirIndex virt) ≠ 0) :
    vmmngrGetPhysicalAddress (Scorch.mapPages dir n virt (frameAddr f) s) dir virt ≠ 0 := by
  obtain ⟨q, hq⟩ : ∃ q, q = (virt.toNat / 4096 + 0) % 2 ^ 20 := ⟨_, rfl⟩
  have hqlt : q < 2 ^ 20 := by omega
  have hpage : pageOf virt = pageOf (frameAddr q) := by
    rw [pageOf_frameAddr, pageOf_eq_frameAddr, hq]
    congr 1
    omega
  rw [getPhysicalAddress_of_pageOf_eq _ _ hpage]
  rw [(pageOf_eq_iff.1 hpage).1, ← isSome_tables_iff hqlt] at hslot
  -- Once its slot has a table after the first round the page has its entry.
  have hfirst : (((s.stock dir).afterPages (virt.toNat / 4096) f 1).table (q / 1024)).isSome →
      vmmngrGetPhysicalAddress (Scorch.mapPages dir 1 virt (frameAddr f) s) dir (frameAddr q) ≠
        0 := by
    intro hsome
    rw [hq] at hsome ⊢
    rw [h.getPhysicalAddress_mapPages_succ virt f hsome]
    exact frameEntry_ne_zero _
  rcases hn with rfl | ⟨rfl, hboundary⟩
  · rw [h.tables_mapPages] at hslot
    exact hfirst hslot
  by_cases hsome : (((s.stock dir).afterPages (virt.toNat / 4096) f 1).table (q / 1024)).isSome
  · rw [h.mapPages_succ]
    refine (h.mapPages virt f 1).1.getPhysicalAddress_run_ne_zero
      (h.meets_ready_pageEffects virt f 1) hqlt (by omega) (by rw [h.tables_mapPages]; exact hsome)
      (fun page value hmem => ?_) (hfirst hsome)
    rcases Stock.entry_mem_effects _ _ hmem with ⟨-, rfl⟩ | ⟨-, rfl⟩
    · exact frameEntry_ne_zero _
    · exact frameEntry_ne_zero _
  -- Without a table no frame was left, so the second round installs none either.
  · have hnil : (s.stock dir).frames = [] := by
      rw [hq] at hsome
      exact Stock.frames_eq_nil_of_mapping hsome
    have hnil' : ((s.stock dir).afterPages (virt.toNat / 4096) f 1).frames = [] :=
      List.subset_nil.1 (hnil ▸ Stock.frames_afterPages_subset _ _ _ 1)
    rw [h.tables_mapPages, Stock.afterPages_succ_of_frames_eq_nil hnil'] at hslot
    exact absurd hslot hsome

/-- If the range is allocated, then releasing it next succeeds, unmaps its pages and frees
its frames. -/
def Releasable (s : Vmm) (n virt : Word) : Prop :=
  (vmmngrAllocPagesAtVirtualAddress s n virt).1 = true →
    let s' := (vmmngrAllocPagesAtVirtualAddress s n virt).2
    (vmmngrDeallocPagesAtVirtualAddress s' n virt).1 = true ∧
      (∀ i < n.toNat, vmmngrGetPhysicalAddress (vmmngrDeallocPagesAtVirtualAddress s' n virt).2
        s.curDirectory (rangePage virt i) = 0) ∧
      ∀ g ∈ Allocation.frames ⟨(pmmngrAllocBlocks s.pmm n).1, n⟩,
        g ∉ (vmmngrDeallocPagesAtVirtualAddress s' n virt).2.pmm.used

/-- After an allocation the release fails, or a frame of the range stays used. -/
theorem Sound.not_releasable_of_granted {s : Vmm} {n virt : Word} (h : s.Sound s.curDirectory)
    (hend : ∀ f, s.pmm.Finds n f → f + n.toNat ≤ 2 ^ 20)
    (hget : vmmngrGetPhysicalAddress s s.curDirectory virt = 0) (hgrant : ¬s.pmm.Refuses n) :
    ¬s.Releasable n virt := by
  intro hrelease
  rcases s.allocPages_cases n virt with ⟨hmapped, -⟩ | ⟨-, hrefuse, -⟩ |
    ⟨-, -, f, hn, hn0, hf, -, halloc, heq⟩
  · exact hmapped hget
  · exact hgrant hrefuse
  have hend := hend f hf
  have hpos := BitVec.toNat_pos_of_ne_zero hn0
  have hsound := h.granted (f := f) (n := n) (by omega) hn
  have hmono := hsound.used_subset_mapPages virt f n.toNat
  have hcur := hsound.curDirectory_mapPages virt f n.toNat
  rw [Releasable, heq, halloc, Allocation.frames_frameAddr (by omega)] at hrelease
  obtain ⟨htrue, -, hfreed⟩ := hrelease rfl
  simp only [vmmngrDeallocPagesAtVirtualAddress, hcur] at htrue hfreed
  split_ifs at htrue hfreed with hmapped
  have hused : ∀ g ∈ Finset.Ico f (f + n.toNat),
      g ∈ (Scorch.mapPages s.curDirectory n.toNat virt (frameAddr f)
        { s with pmm := s.pmm.granted f n }).pmm.used := by
    intro g hg
    refine hmono ?_
    show g ∈ (s.pmm.granted f n).used
    rw [used_granted s.pmm (by omega)]
    exact Or.inr (Finset.mem_Ico.1 hg)
  obtain ⟨hslot, hshape⟩ := (hsound.mapPages virt f n.toNat).1.wellFormed.pages_of_all_freed
    hused (by rw [Nat.card_Ico]; omega) (fun g hg => hfreed g (Finset.mem_Ico.1 hg)) hpos
  exact hsound.getPhysicalAddress_mapPages_ne_zero virt f hshape hslot (not_not.1 hmapped)

/-- Releasing a range right after it was allocated succeeds, unmaps its pages and frees its
frames only when there was no allocation : the first page was mapped or no block was
granted. -/
theorem releasable_iff {s : Vmm} {n virt : Word} (h : s.Sound s.curDirectory)
    (hend : ∀ f, s.pmm.Finds n f → f + n.toNat ≤ 2 ^ 20) :
    s.Releasable n virt ↔
      vmmngrGetPhysicalAddress s s.curDirectory virt ≠ 0 ∨ s.pmm.Refuses n := by
  constructor
  · intro hrelease
    by_contra hneither
    obtain ⟨hget, hgrant⟩ := not_or.1 hneither
    exact h.not_releasable_of_granted hend (not_not.1 hget) hgrant hrelease
  · intro hfails htrue
    rcases s.allocPages_cases n virt with ⟨-, heq⟩ | ⟨-, -, heq⟩ | ⟨hget, hgrant, -⟩
    · rw [heq] at htrue
      contradiction
    · rw [heq] at htrue
      contradiction
    · exact absurd hfails (not_or.2 ⟨not_not.2 hget, hgrant⟩)

theorem not_refuses_oneTable : ¬oneTable.pmm.Refuses 1 := fun hrefuse =>
  absurd ((pmmngrAllocBlocks_eq_zero_iff _ _).2 hrefuse) (by decide)

/-- One page of the first 4 MiB. -/
theorem releasable_oneTable :
    oneTable.Releasable 1 0x5000 ↔
      vmmngrGetPhysicalAddress oneTable 0x1000 0x5000 ≠ 0 ∨ oneTable.pmm.Refuses 1 :=
  releasable_iff oneTable_sound fun _ hf => finds_one_oneTable hf

/-- That page cannot be released. -/
theorem not_releasable :
    ¬∀ (s : Vmm) (n virt : Word), s.Sound s.curDirectory →
      (∀ f, s.pmm.Finds n f → f + n.toNat ≤ 2 ^ 20) → s.Releasable n virt := fun h =>
  oneTable_sound.not_releasable_of_granted (fun _ hf => finds_one_oneTable hf)
    (oneTable_unmapped _) not_refuses_oneTable
    (h oneTable 1 0x5000 oneTable_sound fun _ hf => finds_one_oneTable hf)

end Vmm

end Scorch
