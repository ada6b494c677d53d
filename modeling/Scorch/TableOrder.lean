import Scorch.PageRange

/-!
# Tables in ascending order

`pmmngr_alloc_block` hands out the lowest free frame. As long as no frame is given back, every
page table therefore lies below every frame that is still to be handed out (`Ascending`), and a
table that is installed never lies right before another one. This is what it takes for a mapping
to spare every page but its own and those of the frames it takes (`Ascending.meets_spares`,
`Sound.getPhysicalAddress_mapPages_of_ne`), and for the mappings of a range to complete
(`Ascending.completes`).

The order is an invariant of the stock alone : an effect takes the first of the frames that are
left, so the next table lies above all tables that are there and below all frames that stay.
-/

open ByteMemory GuardedRun

namespace Scorch

open Pmm

namespace Stock

/-- Every table lies below every frame still to be handed out, and these are handed out in
ascending order. -/
structure Ascending (st : Stock) : Prop where
  below : ∀ slot t, st.table slot = some t → ∀ f ∈ st.frames, t < f
  sorted : st.frames.Pairwise (· < ·)

variable {st : Stock} {es : List Effect}

/-- A frame that becomes a table was free. -/
theorem mem_frames_of_ready {slot f : ℕ} (hr : st.Ready (.install slot f)) : f ∈ st.frames :=
  List.mem_of_mem_head? hr.2.2

/-- Taking the first free frame keeps the order : the tables are before the frames that are left. -/
theorem Ascending.after {e : Effect} (h : st.Ascending) (hr : st.Ready e) :
    (st.after e).Ascending := by
  cases e with
  | entry page value => exact h
  | install slot f =>
    obtain ⟨rest, hframes⟩ := List.head?_eq_some_iff.1 hr.2.2
    have hsorted := h.sorted
    have htail : (st.after (.install slot f)).frames = rest := congrArg List.tail hframes
    rw [hframes, List.pairwise_cons] at hsorted
    refine ⟨fun slot' t ht g hg => ?_, htail ▸ hsorted.2⟩
    rw [htail] at hg
    rw [table_after_install] at ht
    split_ifs at ht
    · obtain rfl := Option.some.inj ht
      exact hsorted.1 g hg
    · exact h.below slot' t ht g (hframes ▸ List.mem_cons_of_mem f hg)

theorem Ascending.run (h : st.Ascending) (hr : Meets Stock.after Ready st es) :
    (GuardedRun.run Stock.after st es).Ascending :=
  hr.invariant (fun _ _ hst hready => hst.after hready) h

/-- A table is never installed right before another one. -/
theorem Ascending.spares {e : Effect} {q : ℕ} (h : st.Ascending) (hr : st.Ready e)
    (hne : ∀ value, e ≠ .entry q value) : st.Spares q e := by
  cases e with
  | entry page value => exact fun hpage => hne value (hpage ▸ rfl)
  | install slot f =>
    rintro ⟨-, htable⟩
    have := h.below _ _ htable f (mem_frames_of_ready hr)
    omega

/-- In that order a table never spoils the one behind it, and pages that are not mapped keep
their entries. -/
theorem Ascending.meets_spares {q : ℕ} (h : st.Ascending) (hr : Meets Stock.after Ready st es)
    (hne : ∀ e ∈ es, ∀ value, e ≠ .entry q value) :
    Meets Stock.after (fun st => st.Spares q) st es := by
  induction es generalizing st with
  | nil => exact meets_nil st
  | cons e es ih =>
    exact ⟨h.spares hr.1 (hne e List.mem_cons_self),
      ih (h.after hr.1) hr.2 fun e' he' => hne e' (List.mem_cons_of_mem e he')⟩

/-- A table is in a frame that was to be handed out, or was there before. -/
theorem table_run {slot t : ℕ} (hr : Meets after Ready st es)
    (ht : (run after st es).table slot = some t) : st.table slot = some t ∨ t ∈ st.frames := by
  induction es generalizing st with
  | nil => exact Or.inl ht
  | cons e es ih =>
    rcases ih hr.2 ht with htable | hframe
    · cases e with
      | entry page value => exact Or.inl htable
      | install slot' f =>
        rw [table_after_install] at htable
        split_ifs at htable
        · obtain rfl := Option.some.inj htable
          exact Or.inr (mem_frames_of_ready hr.1)
        · exact Or.inl htable
    · cases e with
      | entry page value => exact Or.inr hframe
      | install slot' f => exact Or.inr (List.mem_of_mem_tail hframe)

/-- A mapping stores the entries of its own page and of free frames only. -/
theorem entry_ne_of_mem_mapping {page q : ℕ} {value : Word} (hpage : page ≠ q)
    (hq : q ∉ st.frames) {e : Effect} (he : e ∈ st.mapping page value) (v : Word) :
    e ≠ .entry q v := by
  rintro rfl
  rcases entry_mem_effects _ _ he with ⟨heq, -⟩ | ⟨hmem, -⟩
  · exact hpage heq.symm
  · exact hq hmem

section Range

variable {q f n : ℕ} (hframes : ∀ g ∈ st.frames, g < 2 ^ 20)

include hframes

/-- The effects of a page can happen when its turn comes. -/
theorem meets_ready_pageEffects (i : ℕ) :
    Meets after Ready (st.afterPages q f i) (st.pageEffects q f i) :=
  meets_ready_effects _ _ _ (Vmm.rangePage_page_lt q i)
    fun g hg => hframes g (frames_afterPages_subset st q f i hg)

/-- A loop over pages keeps the order. -/
theorem Ascending.afterPages (h : st.Ascending) : ∀ i, (st.afterPages q f i).Ascending
  | 0 => h
  | i + 1 => (Ascending.afterPages h i).run (meets_ready_pageEffects hframes i)

/-- A table after some pages. -/
theorem table_afterPages {slot t : ℕ} : ∀ i, (st.afterPages q f i).table slot = some t →
    st.table slot = some t ∨ t ∈ st.frames
  | 0, ht => Or.inl ht
  | i + 1, ht => by
    rcases table_run (meets_ready_pageEffects hframes i) ht with htable | hmem
    · exact table_afterPages i htable
    · exact Or.inr (frames_afterPages_subset st q f i hmem)

/-- The mappings of a range complete when their entries are served. -/
theorem Ascending.completes (h : st.Ascending) (hn : n ≤ 2 ^ 20)
    (hpages : ∀ i < n, (q + i) % 2 ^ 20 ∉ st.frames)
    (hserved : ∀ i < n, Meets Stock.after Served (st.afterPages q f i) (st.pageEffects q f i)) :
    st.Completes q f n := by
  refine fun i hi => ⟨hserved i hi, fun j hj => ?_⟩
  refine (h.afterPages hframes i).meets_spares (meets_ready_pageEffects hframes i) fun e he =>
    entry_ne_of_mem_mapping ?_ (fun hmem => hpages j (hj.trans hi) ?_) he
  · omega
  · exact frames_afterPages_subset st q f i hmem

end Range

end Stock

namespace Vmm

variable {s : Vmm} {dir : Word}

/-- The free frames are frames of the address space. -/
theorem Sound.lt_of_mem_frames (h : s.Sound dir) : ∀ g ∈ (s.stock dir).frames, g < 2 ^ 20 :=
  fun g hg => (h.unused g hg).lt

/-- A range that is mapped keeps the entry of every page outside of it, unless the page has the
number of a free frame. -/
theorem Sound.getPhysicalAddress_mapPages_of_ne (h : s.Sound dir) (hasc : (s.stock dir).Ascending)
    {virt v : Word} {f q : ℕ} (hq : q < 2 ^ 20) (hsome : (s.tables dir (q / 1024)).isSome)
    (hv : v.getLsbD 0 = true) (hget : vmmngrGetPhysicalAddress s dir (frameAddr q) = v)
    (hfree : q ∉ s.pmm.freeList) (n : ℕ)
    (hpages : ∀ i < n, (virt.toNat / 4096 + i) % 2 ^ 20 ≠ q) :
    vmmngrGetPhysicalAddress (Scorch.mapPages dir n virt (frameAddr f) s) dir (frameAddr q) =
      v := by
  induction n with
  | zero => exact hget
  | succ n ih =>
    obtain ⟨hsound, hstock⟩ := h.mapPages virt f n
    have hready := h.meets_ready_pageEffects virt f n
    have hsome' : ((Scorch.mapPages dir n virt (frameAddr f) s).tables dir (q / 1024)).isSome := by
      rw [h.tables_mapPages]
      exact Stock.isSome_afterPages (Nat.zero_le n) hsome
    have hother : ∀ e ∈ (s.stock dir).pageEffects (virt.toNat / 4096) f n, ∀ w, e ≠ .entry q w :=
      fun e he => Stock.entry_ne_of_mem_mapping (hpages n n.lt_succ_self)
        (fun hmem => hfree (Stock.frames_afterPages_subset _ _ _ _ hmem)) he
    have hasc' := hasc.afterPages h.lt_of_mem_frames (q := virt.toNat / 4096) (f := f) n
    rw [← hstock] at hasc'
    rw [h.mapPages_succ]
    exact (hsound.getPhysicalAddress_run_iff hready hq hsome' hv fun e he => hother e he v).2
      ⟨ih fun i hi => hpages i (hi.trans n.lt_succ_self), hasc'.meets_spares hready hother⟩

/-! ## Tables in use -/

/-- The frames of the tables are marked in the bitmap. -/
def TablesUsed (s : Vmm) (dir : Word) : Prop :=
  ∀ slot t, s.tables dir slot = some t → t ∈ s.pmm.used

/-- A table is in use in the bitmap from its allocation on. -/
theorem Sound.tablesUsed_perform {e : Effect} (h : s.Sound dir) (hused : s.TablesUsed dir)
    (hr : (s.stock dir).Ready e) : (s.perform dir e).TablesUsed dir := by
  intro slot t ht
  rw [h.tables_perform hr] at ht
  cases e with
  | entry page value => exact hused slot t ht
  | install slot' f =>
    obtain ⟨-, hempty, rest, hlist⟩ := ready_install hr
    have hlt := (h.unused_head hlist).lt
    have halloc := (pmmngrAllocBlock_of_freeList_cons hlist (hlt.trans (by norm_num))).1
    have hpmm : (s.perform dir (.install slot' f)).pmm = s.pmm.granted f 1 :=
      congrArg Prod.snd halloc
    rw [hpmm, used_granted_one, bitNumber_ofNat (hlt.trans (by norm_num))]
    rw [Stock.table_after_install] at ht
    split_ifs at ht
    · obtain rfl := Option.some.inj ht
      exact Set.mem_insert f _
    · exact Set.mem_insert_of_mem f (hused slot t ht)

theorem Sound.tablesUsed_run {es : List Effect} (h : s.Sound dir) (hused : s.TablesUsed dir)
    (hr : Meets Stock.after Stock.Ready (s.stock dir) es) :
    (GuardedRun.run (Vmm.perform dir) s es).TablesUsed dir := by
  induction es generalizing s with
  | nil => exact hused
  | cons e es ih =>
    obtain ⟨hsound, hstock⟩ := h.perform hr.1
    exact ih hsound (h.tablesUsed_perform hused hr.1) (hstock ▸ hr.2)

theorem Sound.tablesUsed_mapPages (h : s.Sound dir) (hused : s.TablesUsed dir) (virt : Word)
    (f n : ℕ) : (Scorch.mapPages dir n virt (frameAddr f) s).TablesUsed dir := by
  induction n with
  | zero => exact hused
  | succ n ih =>
    rw [h.mapPages_succ]
    exact (h.mapPages virt f n).1.tablesUsed_run ih (h.meets_ready_pageEffects virt f n)

end Vmm

end Scorch
