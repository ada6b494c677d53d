import Scorch.TableSupply

/-!
# Ranges of pages

`vmmngr_alloc_pages_at_virtual_address` and its inverse. Both look at the first page of the
range only, and both with the same test : they go on when it is not mapped.

So an allocation replaces the translation of later pages
(`allocPages_keeps_iff`), and a deallocation never follows an allocation of the same
range (`releasable_iff`). The loop ignores the status of the mappings, and a mapping
that takes frames may store over pages mapped before. `Completes` says, over the stock,
that neither happens, and `allocPages_complete_iff` that this decides whether the
allocation does what it reports.

The loop of the allocation is a run of the effects of its pages :

* `Sound.mapPages_blocks` : the address space stays sound in every round and follows its stock;
* `Sound.nullStores_mapPages_iff` : no store goes through an empty slot exactly when every entry
  is served;
* `Sound.getPhysicalAddress_mapPages_iff` : a page keeps its frame exactly when the later rounds
  spare it.

So whether an allocation completes is known from the stock alone (`Completes`).
-/

open ByteMemory GuardedRun

namespace Scorch

open Pmm

/-- Page `i` of the range at `virt`. -/
def rangePage (virt : Word) (i : ℕ) : Word :=
  virt + 4096 * BitVec.ofNat 32 i

namespace Vmm

/-- All that `vmmngr_alloc_pages_at_virtual_address` can do. -/
theorem allocPages_cases (s : Vmm) (n virt : Word) :
    (vmmngrGetPhysicalAddress s s.curDirectory virt ≠ 0 ∧
        vmmngrAllocPagesAtVirtualAddress s n virt = (false, s)) ∨
      (vmmngrGetPhysicalAddress s s.curDirectory virt = 0 ∧ s.pmm.Refuses n ∧
        vmmngrAllocPagesAtVirtualAddress s n virt =
          (false, { s with pmm := (pmmngrAllocBlocks s.pmm n).2 })) ∨
      vmmngrGetPhysicalAddress s s.curDirectory virt = 0 ∧ ¬s.pmm.Refuses n ∧
        ∃ f, n < pmmngrGetFreeBlockCount s.pmm ∧ n ≠ 0 ∧ s.pmm.Finds n f ∧ frameAddr f ≠ 0 ∧
          pmmngrAllocBlocks s.pmm n = (frameAddr f, s.pmm.granted f n) ∧
          vmmngrAllocPagesAtVirtualAddress s n virt =
            (true, mapPages s.curDirectory n.toNat virt (frameAddr f)
              { s with pmm := s.pmm.granted f n }) := by
  by_cases hget : vmmngrGetPhysicalAddress s s.curDirectory virt ≠ 0
  · refine Or.inl ⟨hget, ?_⟩
    rw [vmmngrAllocPagesAtVirtualAddress, if_pos hget]
  refine Or.inr ?_
  have hget' := not_not.1 hget
  by_cases hnull : (pmmngrAllocBlocks s.pmm n).1 = 0
  · refine Or.inl ⟨hget', (pmmngrAllocBlocks_eq_zero_iff _ _).1 hnull, ?_⟩
    simp only [vmmngrAllocPagesAtVirtualAddress, if_neg hget, if_pos hnull]
  · refine Or.inr ⟨hget', mt (pmmngrAllocBlocks_eq_zero_iff _ _).2 hnull, ?_⟩
    rcases pmmngrAllocBlocks_cases s.pmm n with ⟨heq, -⟩ | ⟨f, hfree, hn, hf, heq⟩
    · exact absurd (congrArg Prod.fst heq) hnull
    · have hne : frameAddr f ≠ 0 := by rwa [heq] at hnull
      refine ⟨f, hfree, hn, hf, hne, heq, ?_⟩
      simp only [vmmngrAllocPagesAtVirtualAddress, if_neg hget, heq, if_neg hne]

/-! ## Pages mapped before -/

/-- An allocation over mapped pages fails and changes no translation exactly when no page
of the range is mapped, or the first one is, or no block is granted. -/
theorem allocPages_keeps_iff (s : Vmm) (n virt : Word) :
    ((∃ i < n.toNat, vmmngrGetPhysicalAddress s s.curDirectory (rangePage virt i) ≠ 0) →
        (vmmngrAllocPagesAtVirtualAddress s n virt).1 = false ∧
          ∀ w, vmmngrGetPhysicalAddress (vmmngrAllocPagesAtVirtualAddress s n virt).2
            s.curDirectory w = vmmngrGetPhysicalAddress s s.curDirectory w) ↔
      (∀ i < n.toNat, vmmngrGetPhysicalAddress s s.curDirectory (rangePage virt i) = 0) ∨
        vmmngrGetPhysicalAddress s s.curDirectory virt ≠ 0 ∨ s.pmm.Refuses n := by
  rcases s.allocPages_cases n virt with ⟨hget, heq⟩ | ⟨-, hrefuse, heq⟩ |
    ⟨hget, hgrant, f, -, -, -, -, -, heq⟩
  · rw [heq]
    exact iff_of_true (fun _ => ⟨rfl, fun _ => rfl⟩) (Or.inr (Or.inl hget))
  · rw [heq]
    exact iff_of_true (fun _ => ⟨rfl, fun _ => rfl⟩) (Or.inr (Or.inr hrefuse))
  · rw [heq]
    simp only [Bool.true_eq_false, false_and, imp_false, not_exists, not_and, ne_eq, not_not, hget,
      not_true_eq_false, hgrant, or_self, or_false]

/-- Page `6` mapped, in the first 4 MiB. -/
def sixMapped : Vmm :=
  oneTable.setEntry 0x1000 0x6000 0x9003

theorem getPhysicalAddress_sixMapped (w : Word) :
    vmmngrGetPhysicalAddress sixMapped 0x1000 w =
      if pageOf w = pageOf 0x6000 then 0x9003 else 0 := by
  rw [sixMapped, oneTable_wellFormed.getPhysicalAddress_setEntry (oneTable_ne_zero rfl),
    oneTable_unmapped]

/-- Two pages from page `5` on take the place of page `6`. -/
theorem not_allocPages_keeps :
    ¬∀ (s : Vmm) (n virt : Word),
      (∃ i < n.toNat, vmmngrGetPhysicalAddress s s.curDirectory (rangePage virt i) ≠ 0) →
        (vmmngrAllocPagesAtVirtualAddress s n virt).1 = false ∧
          ∀ w, vmmngrGetPhysicalAddress (vmmngrAllocPagesAtVirtualAddress s n virt).2
            s.curDirectory w = vmmngrGetPhysicalAddress s s.curDirectory w := by
  intro h
  have hdir : sixMapped.curDirectory = 0x1000 := rfl
  have hsix : vmmngrGetPhysicalAddress sixMapped 0x1000 (rangePage 0x5000 1) ≠ 0 := by
    rw [getPhysicalAddress_sixMapped, if_pos (by decide)]
    decide
  have hfails := (h sixMapped 2 0x5000 ⟨1, by decide, hsix⟩).1
  rcases sixMapped.allocPages_cases 2 0x5000 with ⟨hget, -⟩ | ⟨-, hrefuse, -⟩ |
    ⟨-, -, f, -, -, -, -, -, heq⟩
  · rw [hdir, getPhysicalAddress_sixMapped, if_neg (by decide)] at hget
    exact hget rfl
  · exact absurd ((pmmngrAllocBlocks_eq_zero_iff _ _).2 hrefuse) (by decide)
  · rw [heq] at hfails
    contradiction

end Vmm

/-! ## The loop over a range -/

namespace Stock

/-- The stock after the first pages of a range at page `q` are mapped to the frames from
`f` on. -/
def afterPages (st : Stock) (q f : ℕ) : ℕ → Stock
  | 0 => st
  | i + 1 =>
    run after (st.afterPages q f i)
      ((st.afterPages q f i).mapping ((q + i) % 2 ^ 20) (frameEntry (f + i)))

/-- The effects of mapping page `i` of the range. -/
def pageEffects (st : Stock) (q f i : ℕ) : List Effect :=
  (st.afterPages q f i).mapping ((q + i) % 2 ^ 20) (frameEntry (f + i))

/-- Every entry of the first `n` mappings is served, and each mapping spares the pages of
the range before its own. -/
def Completes (st : Stock) (q f n : ℕ) : Prop :=
  ∀ i < n, Meets after Served (st.afterPages q f i) (st.pageEffects q f i) ∧
    ∀ j < i, Meets after (fun st => st.Spares ((q + j) % 2 ^ 20)) (st.afterPages q f i)
      (st.pageEffects q f i)

/-- A loop over pages takes frames from the free ones only. -/
theorem frames_afterPages_subset (st : Stock) (q f : ℕ) :
    ∀ i, (st.afterPages q f i).frames ⊆ st.frames
  | 0 => List.Subset.refl _
  | i + 1 => List.Subset.trans (frames_run_subset _ _) (frames_afterPages_subset st q f i)

/-- Without frames a round leaves the stock alone. -/
theorem afterPages_succ_of_frames_eq_nil {st : Stock} {q f i : ℕ}
    (h : (st.afterPages q f i).frames = []) :
    st.afterPages q f (i + 1) = st.afterPages q f i := by
  rw [afterPages, mapping, h]
  rfl

/-- Tables that an earlier round made are there in later ones. -/
theorem isSome_afterPages {st : Stock} {q f slot i j : ℕ} (hij : i ≤ j)
    (h : ((st.afterPages q f i).table slot).isSome) :
    ((st.afterPages q f j).table slot).isSome := by
  induction j, hij using Nat.le_induction with
  | base => exact h
  | succ j _ ih => exact isSome_run _ ih

/-- A mapping whose entries are all served leaves its page with a table. -/
theorem isSome_of_meets_served {st : Stock} {page : ℕ} {value : Word}
    (h : Meets after Served st (st.mapping page value)) :
    ((run after st (st.mapping page value)).table (page / 1024)).isSome := by
  obtain ⟨es, hes⟩ := exists_effects_append st.frames st.table page value
  rw [mapping, hes] at h ⊢
  rw [run_append]
  exact h.last

/-- What is stored for the page does not matter to the tables. -/
theorem run_mapping_congr (st : Stock) (page : ℕ) (w w' : Word) :
    run after st (st.mapping page w) = run after st (st.mapping page w') := by
  obtain ⟨table, frames⟩ := st
  cases frames with
  | nil => rfl
  | cons f frames =>
    rw [mapping, mapping, effects, effects]
    split_ifs
    · rfl
    · rw [run_cons, run_cons, run_append, run_append]
      rfl

end Stock

/-- The number of a page of the range, which may wrap. -/
theorem toNat_rangePage_div (virt : Word) (i : ℕ) :
    (rangePage virt i).toNat / 4096 = (virt.toNat / 4096 + i) % 2 ^ 20 := by
  have h4096 : (4096 : Word).toNat = 4096 := rfl
  rw [rangePage, BitVec.toNat_add, BitVec.toNat_mul, BitVec.toNat_ofNat, h4096]
  omega

/-- The frames of a block follow each other. -/
theorem frameAddr_add (f i : ℕ) : frameAddr f + 4096 * BitVec.ofNat 32 i = frameAddr (f + i) := by
  have h4096 : (4096 : Word).toNat = 4096 := rfl
  rw [← BitVec.toNat_inj, BitVec.toNat_add, BitVec.toNat_mul, BitVec.toNat_ofNat, h4096,
    toNat_frameAddr, toNat_frameAddr]
  omega

/-- The last round of the loop. -/
theorem mapPages_succ (dir : Word) : ∀ (n : ℕ) (start blocks : Word) (s : Vmm),
    mapPages dir (n + 1) start blocks s =
      vmmngrMapPhysicalAddress (mapPages dir n start blocks s) dir
        (start + 4096 * BitVec.ofNat 32 n) (blocks + 4096 * BitVec.ofNat 32 n)
        ptePresentWritable
  | 0, start, blocks, s => by
    have hzero : ∀ a : Word, a + 4096 * BitVec.ofNat 32 0 = a := fun a => by bv_omega
    rw [hzero, hzero]
    rfl
  | n + 1, start, blocks, s => by
    have hstep : ∀ a : Word, a + 4096 + 4096 * BitVec.ofNat 32 n =
        a + 4096 * BitVec.ofNat 32 (n + 1) := fun a => by
      rw [BitVec.ofNat_add n 1]
      bv_omega
    rw [mapPages, mapPages_succ dir n, hstep, hstep, ← mapPages]

namespace Vmm

theorem rangePage_page_lt (q i : ℕ) : (q + i) % 2 ^ 20 < 2 ^ 20 :=
  Nat.mod_lt _ (by norm_num)

/-- One round of the loop performs the effects of its page. -/
theorem Sound.mapPhysicalAddress_rangePage {t : Vmm} {dir : Word} (h : t.Sound dir) {st : Stock}
    {virt : Word} {f i : ℕ} (hstock : t.stock dir = st.afterPages (virt.toNat / 4096) f i) :
    vmmngrMapPhysicalAddress t dir (rangePage virt i) (frameAddr (f + i)) ptePresentWritable =
      GuardedRun.run (Vmm.perform dir) t (st.pageEffects (virt.toNat / 4096) f i) := by
  rw [h.mapPhysicalAddress_eq_run _ rfl, toNat_rangePage_div, Stock.pageEffects, ← hstock]
  rfl

section Loop

variable {s : Vmm} {dir : Word} (h : s.Sound dir) (virt : Word) (f : ℕ)

include h

/-- The address space stays sound in every round, and the stock follows, whatever the range is
mapped to. -/
theorem Sound.mapPages_blocks (blocks : Word) : ∀ i,
    (mapPages dir i virt blocks s).Sound dir ∧
      (mapPages dir i virt blocks s).stock dir = (s.stock dir).afterPages (virt.toNat / 4096) f i
  | 0 => ⟨h, rfl⟩
  | i + 1 => by
    obtain ⟨hsound, hstock⟩ := Sound.mapPages_blocks blocks i
    have hrun := hsound.run (hsound.meets_ready_mapping (rangePage_page_lt (virt.toNat / 4096) i)
      ((blocks + 4096 * BitVec.ofNat 32 i) ||| ptePresentWritable))
    rw [Stock.run_mapping_congr _ _ _ (frameEntry (f + i))] at hrun
    rw [mapPages_succ, ← rangePage, hsound.mapPhysicalAddress_eq_run _ rfl, toNat_rangePage_div,
      Stock.afterPages, ← hstock]
    exact hrun

/-- After `i` rounds the address space is sound, and its tables and free frames are those of the
abstract supply. -/
theorem Sound.mapPages (i : ℕ) :
    (mapPages dir i virt (frameAddr f) s).Sound dir ∧
      (mapPages dir i virt (frameAddr f) s).stock dir =
        (s.stock dir).afterPages (virt.toNat / 4096) f i :=
  h.mapPages_blocks virt f (frameAddr f) i

theorem Sound.tables_mapPages (i : ℕ) :
    (Scorch.mapPages dir i virt (frameAddr f) s).tables dir =
      ((s.stock dir).afterPages (virt.toNat / 4096) f i).table :=
  congrArg Stock.table (h.mapPages virt f i).2

/-- A round performs the effects of mapping one page. -/
theorem Sound.mapPages_succ (i : ℕ) :
    Scorch.mapPages dir (i + 1) virt (frameAddr f) s =
      GuardedRun.run (Vmm.perform dir) (Scorch.mapPages dir i virt (frameAddr f) s)
        ((s.stock dir).pageEffects (virt.toNat / 4096) f i) := by
  obtain ⟨hsound, hstock⟩ := h.mapPages virt f i
  rw [Scorch.mapPages_succ, frameAddr_add, ← rangePage, hsound.mapPhysicalAddress_rangePage hstock]

/-- The effects of a round can happen one after another. -/
theorem Sound.meets_ready_pageEffects (i : ℕ) :
    Meets Stock.after Stock.Ready ((Scorch.mapPages dir i virt (frameAddr f) s).stock dir)
      ((s.stock dir).pageEffects (virt.toNat / 4096) f i) := by
  obtain ⟨hsound, hstock⟩ := h.mapPages virt f i
  have hready := hsound.meets_ready_mapping (rangePage_page_lt (virt.toNat / 4096) i)
    (frameEntry (f + i))
  rwa [hstock] at hready ⊢

/-- No store of the loop goes through an empty slot exactly when every entry is served. -/
theorem Sound.nullStores_mapPages_iff (n : ℕ) :
    s.nullStores ≤ (Scorch.mapPages dir n virt (frameAddr f) s).nullStores ∧
      ((Scorch.mapPages dir n virt (frameAddr f) s).nullStores = s.nullStores ↔
        ∀ i < n, Meets Stock.after Stock.Served ((s.stock dir).afterPages (virt.toNat / 4096) f i)
          ((s.stock dir).pageEffects (virt.toNat / 4096) f i)) := by
  induction n with
  | zero => exact ⟨le_rfl, iff_of_true rfl fun i hi => absurd hi (Nat.not_lt_zero i)⟩
  | succ n ih =>
    obtain ⟨hsound, hstock⟩ := h.mapPages virt f n
    have hle := nullStores_le_run dir ((s.stock dir).pageEffects (virt.toNat / 4096) f n)
      (Scorch.mapPages dir n virt (frameAddr f) s)
    have hiff := hsound.nullStores_run_iff (h.meets_ready_pageEffects virt f n)
    rw [hstock] at hiff
    rw [h.mapPages_succ]
    refine ⟨ih.1.trans hle, ?_⟩
    rw [Nat.forall_lt_succ_right, ← ih.2, ← hiff]
    omega

/-- The page of a round has what the round stored when its slot has a table after the round. -/
theorem Sound.getPhysicalAddress_mapPages_blocks (blocks : Word) {i : ℕ}
    (hsome : (((s.stock dir).afterPages (virt.toNat / 4096) f (i + 1)).table
      ((virt.toNat / 4096 + i) % 2 ^ 20 / 1024)).isSome) :
    vmmngrGetPhysicalAddress (Scorch.mapPages dir (i + 1) virt blocks s) dir
        (frameAddr ((virt.toNat / 4096 + i) % 2 ^ 20)) =
      (blocks + 4096 * BitVec.ofNat 32 i) ||| ptePresentWritable := by
  obtain ⟨hsound, hstock⟩ := h.mapPages_blocks virt f blocks i
  rw [Stock.afterPages, ← hstock,
    Stock.run_mapping_congr _ _ _ ((blocks + 4096 * BitVec.ofNat 32 i) ||| ptePresentWritable)]
    at hsome
  rw [Scorch.mapPages_succ, ← rangePage, hsound.mapPhysicalAddress_eq_run _ rfl,
    toNat_rangePage_div]
  exact hsound.getPhysicalAddress_mapping (rangePage_page_lt _ _) _ hsome

/-- A round maps its page to its frame, when the page has a table then. -/
theorem Sound.getPhysicalAddress_mapPages_succ {i : ℕ}
    (hsome : (((s.stock dir).afterPages (virt.toNat / 4096) f (i + 1)).table
      ((virt.toNat / 4096 + i) % 2 ^ 20 / 1024)).isSome) :
    vmmngrGetPhysicalAddress (Scorch.mapPages dir (i + 1) virt (frameAddr f) s) dir
      (frameAddr ((virt.toNat / 4096 + i) % 2 ^ 20)) = frameEntry (f + i) := by
  rw [h.getPhysicalAddress_mapPages_blocks virt f (frameAddr f) hsome, frameAddr_add, frameEntry]

variable {n : ℕ} (hframes : f + n ≤ 2 ^ 20)
  (hfresh : ∀ g ∈ s.pmm.freeList, g ∉ Set.Ico f (f + n))

include hframes hfresh

/-- When every entry is served, a page of the range keeps the frame it was given exactly
when the later rounds spare it. -/
theorem Sound.getPhysicalAddress_mapPages_iff {m : ℕ} (hm : m ≤ n)
    (hserved : ∀ i < m,
      Meets Stock.after Stock.Served ((s.stock dir).afterPages (virt.toNat / 4096) f i)
        ((s.stock dir).pageEffects (virt.toNat / 4096) f i)) {j : ℕ} (hj : j < m) :
    vmmngrGetPhysicalAddress (Scorch.mapPages dir m virt (frameAddr f) s) dir
        (frameAddr ((virt.toNat / 4096 + j) % 2 ^ 20)) = frameEntry (f + j) ↔
      ∀ i < m, j < i → Meets Stock.after
        (fun st => st.Spares ((virt.toNat / 4096 + j) % 2 ^ 20))
        ((s.stock dir).afterPages (virt.toNat / 4096) f i)
        ((s.stock dir).pageEffects (virt.toNat / 4096) f i) := by
  -- The induction is on the rounds done, and the page was mapped in round `j`.
  induction m with
  | zero => exact absurd hj (Nat.not_lt_zero j)
  | succ m ih =>
    obtain ⟨hsound, hstock⟩ := h.mapPages virt f m
    have hready := h.meets_ready_pageEffects virt f m
    rcases Nat.lt_succ_iff_lt_or_eq.1 hj with hlt | rfl
    · rw [h.mapPages_succ]
      have hsome : ((Scorch.mapPages dir m virt (frameAddr f) s).tables dir
          ((virt.toNat / 4096 + j) % 2 ^ 20 / 1024)).isSome := by
        rw [h.tables_mapPages]
        exact Stock.isSome_afterPages hlt (Stock.isSome_of_meets_served (hserved j hj))
      -- A later round stores the entry of another page, or that of a free frame, which is none
      -- of the run.
      have hother : ∀ e ∈ (s.stock dir).pageEffects (virt.toNat / 4096) f m,
          e ≠ .entry ((virt.toNat / 4096 + j) % 2 ^ 20) (frameEntry (f + j)) := by
        rintro e he rfl
        rcases Stock.entry_mem_effects _ _ he with ⟨hpage, -⟩ | ⟨hmem, hentry⟩
        · omega
        · have hfree := Stock.frames_afterPages_subset _ _ _ _ hmem
          have hpage := frameEntry_inj (by omega) (h.unused _ hfree).lt hentry
          exact hfresh _ hfree ⟨by omega, by omega⟩
      rw [hsound.getPhysicalAddress_run_iff hready (rangePage_page_lt _ _) hsome
          (frameEntry_present _) hother,
        ih (by omega) (fun i hi => hserved i (by omega)) hlt, hstock, Nat.forall_lt_succ_right]
      exact and_congr_right fun _ => ⟨fun hspare _ => hspare, fun hspare => hspare hlt⟩
    · refine iff_of_true ?_ fun i hi hji => absurd hi (by omega)
      exact h.getPhysicalAddress_mapPages_succ virt f
        (Stock.isSome_of_meets_served (hserved j hj))

end Loop

theorem curDirectory_run_perform (dir : Word) (es : List Effect) (s : Vmm) :
    (run (Vmm.perform dir) s es).curDirectory = s.curDirectory := by
  induction es generalizing s with
  | nil => rfl
  | cons e es ih =>
    rw [run_cons, ih]
    cases e <;> rfl

theorem Sound.curDirectory_mapPages {s : Vmm} {dir : Word} (h : s.Sound dir) (virt : Word)
    (f n : ℕ) : (Scorch.mapPages dir n virt (frameAddr f) s).curDirectory = s.curDirectory := by
  induction n with
  | zero => rfl
  | succ n ih => rw [h.mapPages_succ, curDirectory_run_perform, ih]

/-! ## A whole allocation -/

/-- Marking the frames granted keeps the address space sound. -/
theorem Sound.granted {s : Vmm} {dir : Word} (h : s.Sound dir) {f : ℕ} {n : Word}
    (hend : f + n.toNat ≤ 2 ^ 31) (hn : n < pmmngrGetFreeBlockCount s.pmm) :
    ({ s with pmm := s.pmm.granted f n } : Vmm).Sound dir := by
  refine ⟨h.wellFormed.congr fun _ _ => rfl, h.dir_ne_zero, h.table_ne_zero, fun g hg => ?_⟩
  have hu := h.unused g (mem_freeList_granted hend hn hg).1
  exact ⟨hu.pos, hu.lt, hu.ne_dir, hu.next_ne_dir, hu.ne_table⟩

/-- No run is found at frame `0`, which would be the first frame handed out. -/
theorem Sound.frameAddr_ne_zero {s : Vmm} {dir : Word} (h : s.Sound dir) {f : ℕ} {n : Word}
    (hn : n < pmmngrGetFreeBlockCount s.pmm) (hf : s.pmm.Finds n f) (hlt : f < 2 ^ 20) :
    frameAddr f ≠ 0 := by
  intro h0
  obtain rfl : f = 0 := by
    have := (frameAddr_eq_zero_iff f).1 h0
    omega
  have hleast : IsLeast s.pmm.clear 0 := ⟨runStarts_subset _ _ hf.1.1, fun _ _ => Nat.zero_le _⟩
  have hfree : pmmngrGetFreeBlockCount s.pmm ≠ 0 := fun hz => by
    rw [hz] at hn
    exact absurd hn (Nat.not_lt_zero _)
  exact absurd (h.unused 0 (mem_freeList_of_isLeast hleast hfree)).pos (lt_irrefl 0)

/-- The translation of a page of the range, by its number. -/
theorem getPhysicalAddress_rangePage (s : Vmm) (dir virt : Word) (i : ℕ) :
    vmmngrGetPhysicalAddress s dir (rangePage virt i) =
      vmmngrGetPhysicalAddress s dir (frameAddr ((virt.toNat / 4096 + i) % 2 ^ 20)) := by
  refine s.getPhysicalAddress_of_pageOf_eq dir ?_
  rw [pageOf_eq_frameAddr, toNat_rangePage_div, pageOf_frameAddr]

/-- The first page of the range is the address asked for. -/
theorem rangePage_zero (virt : Word) : rangePage virt 0 = virt := by
  rw [rangePage]
  bv_omega

/-- The pages of a range have their frames, and no store of the loop went through an empty
slot, exactly when the mappings complete. -/
theorem Sound.mapPages_complete_iff {s : Vmm} {dir : Word} (h : s.Sound dir) (virt : Word)
    {f n : ℕ} (hframes : f + n ≤ 2 ^ 20) (hfresh : ∀ g ∈ s.pmm.freeList, g ∉ Set.Ico f (f + n)) :
    ((∀ i < n, vmmngrGetPhysicalAddress (Scorch.mapPages dir n virt (frameAddr f) s) dir
          (rangePage virt i) = frameAddr f + 4096 * BitVec.ofNat 32 i ||| ptePresentWritable) ∧
        (Scorch.mapPages dir n virt (frameAddr f) s).nullStores = s.nullStores) ↔
      (s.stock dir).Completes (virt.toNat / 4096) f n := by
  simp only [getPhysicalAddress_rangePage, frameAddr_add]
  have hnull := (h.nullStores_mapPages_iff virt f n).2
  refine ⟨fun ⟨hget, hstores⟩ i hi => ?_, fun hc => ?_⟩
  · have hserved := hnull.1 hstores
    refine ⟨hserved i hi, fun j hji => ?_⟩
    have hj := (h.getPhysicalAddress_mapPages_iff virt f hframes hfresh le_rfl hserved
      (hji.trans hi)).1 (hget j (hji.trans hi))
    exact hj i hi hji
  · have hserved := fun i hi => (hc i hi).1
    refine ⟨fun j hj => ?_, hnull.2 hserved⟩
    exact (h.getPhysicalAddress_mapPages_iff virt f hframes hfresh le_rfl hserved hj).2
      fun i hi hji => (hc i hi).2 j hji

/-- On an unmapped range an allocation that reports success maps every page to its frame,
one that fails changes nothing, and no store goes through an empty slot, exactly when the
mappings of the frames granted complete. -/
theorem allocPages_complete_iff {s : Vmm} {n virt : Word} (h : s.Sound s.curDirectory)
    (hend : ∀ f, s.pmm.Finds n f → f + n.toNat ≤ 2 ^ 20)
    (hunmapped : ∀ i < n.toNat,
      vmmngrGetPhysicalAddress s s.curDirectory (rangePage virt i) = 0) :
    (((vmmngrAllocPagesAtVirtualAddress s n virt).1 = true → ∀ i < n.toNat,
          vmmngrGetPhysicalAddress (vmmngrAllocPagesAtVirtualAddress s n virt).2 s.curDirectory
              (rangePage virt i) =
            (pmmngrAllocBlocks s.pmm n).1 + 4096 * BitVec.ofNat 32 i ||| ptePresentWritable) ∧
        ((vmmngrAllocPagesAtVirtualAddress s n virt).1 = false →
          (vmmngrAllocPagesAtVirtualAddress s n virt).2 = s) ∧
        (vmmngrAllocPagesAtVirtualAddress s n virt).2.nullStores = s.nullStores) ↔
      ∀ f, n < pmmngrGetFreeBlockCount s.pmm → s.pmm.Finds n f →
        ({ s with pmm := s.pmm.granted f n }.stock s.curDirectory).Completes
          (virt.toNat / 4096) f n.toNat := by
  rcases s.allocPages_cases n virt with ⟨hget, heq⟩ | ⟨-, hrefuse, heq⟩ |
    ⟨-, -, f, hn, hn0, hf, hne, halloc, heq⟩
  -- The first page was mapped, so no pages were asked for.
  · have hzero : n.toNat = 0 := by
      by_contra hpos
      have hfirst := hunmapped 0 (Nat.pos_of_ne_zero hpos)
      rw [rangePage_zero] at hfirst
      exact hget hfirst
    rw [heq, hzero]
    exact iff_of_true ⟨by simp, fun _ => rfl, rfl⟩
      fun f _ _ i hi => absurd hi (Nat.not_lt_zero i)
  · have hnone : ∀ f, n < pmmngrGetFreeBlockCount s.pmm → n ≠ 0 → ¬s.pmm.Finds n f := by
      intro f hfree hn0 hf
      have hpos := BitVec.toNat_pos_of_ne_zero hn0
      have hlt := hend f hf
      exact h.frameAddr_ne_zero hfree hf (by omega) (hrefuse.frameAddr_eq_zero hfree hn0 hf)
    have hsame : (pmmngrAllocBlocks s.pmm n).2 = s.pmm := by
      rcases pmmngrAllocBlocks_cases s.pmm n with ⟨halloc, -⟩ | ⟨f, hfree, hn0, hf, -⟩
      · rw [halloc]
      · exact absurd hf (hnone f hfree hn0)
    rw [heq, hsame]
    refine iff_of_true ⟨by simp, fun _ => rfl, rfl⟩ fun f hfree hf i hi => ?_
    have hn0 : n ≠ 0 := fun h0 => by
      rw [h0] at hi
      exact absurd hi (Nat.not_lt_zero i)
    exact absurd hf (hnone f hfree hn0)
  -- The run was granted, and the loop over its frames starts from there.
  · have hend := hend f hf
    have hfresh : ∀ g ∈ (s.pmm.granted f n).freeList, g ∉ Set.Ico f (f + n.toNat) :=
      fun g hg => (mem_freeList_granted (by omega) hn hg).2
    have hsound := h.granted (f := f) (n := n) (by omega) hn
    have hiff := hsound.mapPages_complete_iff virt hend hfresh
    have hall : (∀ g, n < pmmngrGetFreeBlockCount s.pmm → s.pmm.Finds n g →
        ({ s with pmm := s.pmm.granted g n }.stock s.curDirectory).Completes
          (virt.toNat / 4096) g n.toNat) ↔
        ({ s with pmm := s.pmm.granted f n }.stock s.curDirectory).Completes
          (virt.toNat / 4096) f n.toNat :=
      ⟨fun hg => hg f hn hf, fun hc g _ hg => hf.unique hg ▸ hc⟩
    rw [hall, ← hiff, heq, halloc]
    simp

theorem clear_threeUsed {f : ℕ} (h : f ∈ threeUsed.clear) : 3 ≤ f ∧ f < 1024 := by
  have hlt : f < 1024 := h.1
  refine ⟨?_, hlt⟩
  by_contra hlow
  have hused : ∀ g < 3, threeUsed.frameUsed g = true := by decide
  exact absurd ((hused f (by omega)).symm.trans h.2) (by decide)

/-- The directory and the table are apart from the free frames. -/
theorem oneTable_sound : oneTable.Sound 0x1000 := by
  refine ⟨oneTable_wellFormed, by decide, fun i hi hne => ?_, fun f hf => ?_⟩
  · rw [pagedir_oneTable hi] at hne ⊢
    split_ifs at hne ⊢
    · decide
    · exact absurd rfl hne
  · obtain ⟨hlo, hhi⟩ := clear_threeUsed (mem_clear_of_mem_freeList hf)
    have haddr := toNat_frameAddr f
    rw [Nat.mod_eq_of_lt (by omega)] at haddr
    refine ⟨by omega, by omega, by bv_omega, by bv_omega, fun i hi hne => ?_⟩
    rw [pagedir_oneTable hi] at hne ⊢
    split_ifs at hne ⊢
    · have hpage : pageOf 0x2003 = 0x2000 := by decide
      rw [hpage]
      bv_omega
    · exact absurd rfl hne

/-- What it finds is a frame of the address space. -/
theorem finds_one_oneTable {f : ℕ} (hf : oneTable.pmm.Finds 1 f) :
    f + (1 : Word).toNat ≤ 2 ^ 20 := by
  obtain ⟨hlo, hhi⟩ := clear_threeUsed (runStarts_subset _ _ hf.1.1)
  have h1 : (1 : Word).toNat = 1 := rfl
  omega

/-- One page of the first 4 MiB, whose table exists. -/
theorem allocPages_complete_oneTable :
    ((vmmngrAllocPagesAtVirtualAddress oneTable 1 0x5000).1 = true → ∀ i < 1,
        vmmngrGetPhysicalAddress (vmmngrAllocPagesAtVirtualAddress oneTable 1 0x5000).2 0x1000
            (rangePage 0x5000 i) =
          (pmmngrAllocBlocks threeUsed 1).1 + 4096 * BitVec.ofNat 32 i ||| ptePresentWritable) ∧
      ((vmmngrAllocPagesAtVirtualAddress oneTable 1 0x5000).1 = false →
        (vmmngrAllocPagesAtVirtualAddress oneTable 1 0x5000).2 = oneTable) ∧
      (vmmngrAllocPagesAtVirtualAddress oneTable 1 0x5000).2.nullStores = 0 := by
  have hunmapped : ∀ i < (1 : Word).toNat,
      vmmngrGetPhysicalAddress oneTable 0x1000 (rangePage 0x5000 i) = 0 :=
    fun _ _ => oneTable_unmapped _
  refine (allocPages_complete_iff oneTable_sound (fun _ hf => finds_one_oneTable hf)
    hunmapped).2 fun f _ _ i hi => ?_
  obtain rfl : i = 0 := Nat.lt_one_iff.1 hi
  have hsome : ({ oneTable with pmm := oneTable.pmm.granted f 1 }.tables 0x1000
      (5 / 1024)).isSome :=
    (isSome_tables_iff (by norm_num)).2 (oneTable_ne_zero (by decide))
  refine ⟨?_, fun j hj => absurd hj (Nat.not_lt_zero j)⟩
  have heffects : ({ oneTable with pmm := oneTable.pmm.granted f 1 }.stock 0x1000).pageEffects
      ((0x5000 : Word).toNat / 4096) f 0 = [.entry 5 (frameEntry f)] :=
    Stock.effects_of_isSome hsome _
  exact heffects ▸ ⟨hsome, trivial⟩

/-- A manager of four blocks with the last two free. -/
def twoLeft : Pmm where
  mem a := if a = 0 then 0xf3 else 0xff
  mmngrMemorySize := 16
  mmngrUsedBlocks := 2
  mmngrMaxBlocks := 4
  mmngrMemoryMap := 0

/-- An empty directory in frame `1`. -/
def emptyDirectory : Vmm where
  pmm := twoLeft
  mem _ := 0
  curDirectory := 0x1000
  nullStores := 0

theorem pagedir_emptyDirectory (i : Word) : emptyDirectory.pagedir 0x1000 i = 0 :=
  (Mem.load32_eq_zero_iff _ _).2 fun _ _ => rfl

theorem clear_twoLeft {f : ℕ} (h : f ∈ twoLeft.clear) : f = 2 ∨ f = 3 := by
  have hlt : f < 128 := h.1
  by_cases h8 : f < 8
  · have hbits : ∀ g < 8, twoLeft.frameUsed g = false → g = 2 ∨ g = 3 := by decide
    exact hbits f h8 h.2
  · have hbyte := (frameUsed_eq_byte twoLeft f).symm.trans h.2
    have hne : twoLeft.mmngrMemoryMap + BitVec.ofNat 32 (f / 8) ≠ 0 := by
      have hmap : twoLeft.mmngrMemoryMap = 0 := rfl
      rw [hmap]
      bv_omega
    have hones : ∀ t < 8, (0xff : Byte).getLsbD t = true := by decide
    have hmem : twoLeft.mem (twoLeft.mmngrMemoryMap + BitVec.ofNat 32 (f / 8)) = 0xff := if_neg hne
    rw [hmem, hones _ (Nat.mod_lt _ (by norm_num))] at hbyte
    contradiction

theorem emptyDirectory_sound : emptyDirectory.Sound 0x1000 := by
  refine ⟨⟨rfl, ?_, ?_⟩, by decide, ?_, fun f hf => ?_⟩
  · exact fun i _ hne => absurd (pagedir_emptyDirectory i) hne
  · exact fun i _ _ _ hne => absurd (pagedir_emptyDirectory i) hne
  · exact fun i _ hne => absurd (pagedir_emptyDirectory i) hne
  · have hnone : ∀ i : Word, i.toNat < 1024 → emptyDirectory.pagedir 0x1000 i ≠ 0 →
        pageOf (emptyDirectory.pagedir 0x1000 i) ≠ frameAddr f :=
      fun i _ hne => absurd (pagedir_emptyDirectory i) hne
    rcases clear_twoLeft (mem_clear_of_mem_freeList hf) with rfl | rfl
    · exact ⟨by decide, by decide, by decide, by decide, hnone⟩
    · exact ⟨by decide, by decide, by decide, by decide, hnone⟩

/-- That state with frame `2` granted. -/
def frameGranted : Vmm :=
  { emptyDirectory with pmm := (pmmngrAllocBlocks twoLeft 1).2 }

theorem canInstall_frameGranted : frameGranted.CanInstall 0x1000 0x400000 := by
  have hblock : frameGranted.block = 0x3000 := by decide
  refine ⟨emptyDirectory_sound.wellFormed.congr fun _ _ => rfl, pagedir_emptyDirectory _, ?_, ?_,
    ?_, fun i _ hne => absurd (pagedir_emptyDirectory i) hne⟩
  · rw [hblock]
    decide
  · rw [hblock]
    decide
  · rw [hblock]
    decide

/-- A mapping that finds no block for its table stores through the empty slot. -/
theorem nullStores_mapPhysicalAddress_of_no_block {s : Vmm} {dir virt : Word}
    (h : s.pagedir dir (dirIndex virt) = 0) (hb : s.block = 0) (phys flags : Word) :
    (vmmngrMapPhysicalAddress s dir virt phys flags).nullStores = s.nullStores + 1 := by
  rw [mapPhysicalAddress_of_no_block h hb]
  exact congrArg (s.nullStores + ·) (if_pos h)

/-- A store through null while the table is mapped is not lost. -/
theorem le_nullStores_mapPhysicalAddress_of_block {s : Vmm} {dir virt : Word}
    (h : s.pagedir dir (dirIndex virt) = 0) (hb : s.block ≠ 0) (phys flags : Word) :
    (vmmngrMapPhysicalAddress (s.installTable dir virt flags) dir s.block s.block
        flags).nullStores ≤ (vmmngrMapPhysicalAddress s dir virt phys flags).nullStores := by
  rw [mapPhysicalAddress_of_block h hb]
  exact Nat.le_add_right _ _

/-- The table of page `0x400` gets frame `3`. That frame is then mapped to itself, and no
frame is left for the table of page `3`. -/
theorem nullStores_frameGranted (phys : Word) :
    (vmmngrMapPhysicalAddress frameGranted 0x1000 0x400000 phys ptePresentWritable).nullStores ≠
      0 := by
  have hcan := canInstall_frameGranted
  have hblock : frameGranted.block = 0x3000 := by decide
  have hslot : (frameGranted.installTable 0x1000 0x400000 ptePresentWritable).pagedir 0x1000
      (dirIndex 0x3000) = 0 := by
    rw [hcan.pagedir_installTable (by decide) (dirIndex_lt _), if_neg (by decide)]
    exact pagedir_emptyDirectory _
  have hnone : (frameGranted.installTable 0x1000 0x400000 ptePresentWritable).block = 0 := by
    show (pmmngrAllocBlock (pmmngrAllocBlock frameGranted.pmm).2).1 = 0
    decide
  have hle := le_nullStores_mapPhysicalAddress_of_block hcan.empty hcan.block_ne_zero phys
    ptePresentWritable
  rw [hblock, nullStores_mapPhysicalAddress_of_no_block hslot hnone] at hle
  omega

/-- One page of the second 4 MiB when two frames are left. The allocation reports success and
stores an entry through the empty slot of page `3`. -/
theorem not_allocPages_complete :
    ¬∀ (s : Vmm) (n virt : Word), s.Sound s.curDirectory →
      (∀ f, s.pmm.Finds n f → f + n.toNat ≤ 2 ^ 20) →
      (∀ i < n.toNat, vmmngrGetPhysicalAddress s s.curDirectory (rangePage virt i) = 0) →
      ((vmmngrAllocPagesAtVirtualAddress s n virt).1 = true → ∀ i < n.toNat,
          vmmngrGetPhysicalAddress (vmmngrAllocPagesAtVirtualAddress s n virt).2 s.curDirectory
              (rangePage virt i) =
            (pmmngrAllocBlocks s.pmm n).1 + 4096 * BitVec.ofNat 32 i ||| ptePresentWritable) ∧
        ((vmmngrAllocPagesAtVirtualAddress s n virt).1 = false →
          (vmmngrAllocPagesAtVirtualAddress s n virt).2 = s) ∧
        (vmmngrAllocPagesAtVirtualAddress s n virt).2.nullStores = s.nullStores := by
  intro h
  have hempty : ∀ w, vmmngrGetPhysicalAddress emptyDirectory 0x1000 w = 0 := fun w =>
    getPhysicalAddress_of_empty (pagedir_emptyDirectory _)
  have hend : ∀ f, twoLeft.Finds 1 f → f + (1 : Word).toNat ≤ 2 ^ 20 := by
    intro f hf
    have h1 : (1 : Word).toNat = 1 := rfl
    rcases clear_twoLeft (runStarts_subset _ _ hf.1.1) with rfl | rfl <;> omega
  have hstores := (h emptyDirectory 1 0x400000 emptyDirectory_sound hend fun i _ => hempty _).2.2
  rcases emptyDirectory.allocPages_cases 1 0x400000 with ⟨hget, -⟩ | ⟨-, hrefuse, -⟩ |
    ⟨-, -, f, -, -, -, -, halloc, heq⟩
  · exact hget (hempty _)
  · exact absurd ((pmmngrAllocBlocks_eq_zero_iff _ _).2 hrefuse) (by decide)
  · have hpmm : emptyDirectory.pmm.granted f 1 = (pmmngrAllocBlocks twoLeft 1).2 :=
      (congrArg Prod.snd halloc).symm
    rw [heq, hpmm] at hstores
    exact nullStores_frameGranted _ hstores

end Vmm

end Scorch
