import Scorch.TableSupply

/-!
# How long an entry lasts

The entry of a page after a run of effects that store no other entry of it than `v`. A store
puts it in place. It is damaged when a table is installed in the frame before that of its own
table, and it lasts when it is stored again after that (`Lasts`).

A new table is cleared, but for the first three bytes of its frame. So the first page of a
region may get `v` without a store, from the bytes that were in the frame (`Stale`).
`getPhysicalAddress_run_iff_lasts` puts both together.

Both are defined by recursion on the run, one case for each effect. The proof is an induction on
the run too : a step says what an effect does to the entry (`Sound.getPhysicalAddress_perform_iff`
for a page with a table, and `Sound.stale_install_iff` for the table of the page itself).
-/

open ByteMemory GuardedRun

namespace Scorch

open Pmm

/-! ## Entries in a run -/

namespace Stock

/-- The entry of a page is stored. -/
def Stored (p : ℕ) (es : List Effect) : Prop :=
  ∃ value, Effect.entry p value ∈ es

/-- After each table that goes to the frame before that of `p`'s own, and so clears the entry
of `p` if it is the first, that entry is stored again. -/
def Lasts (st : Stock) (p : ℕ) (es : List Effect) : Prop :=
  ∀ (es₁ : List Effect) (slot f : ℕ) (es₂ : List Effect), es = es₁ ++ .install slot f :: es₂ →
    ¬(run after st es₁).Spares p (.install slot f) → Stored p es₂

theorem lasts_nil (st : Stock) (p : ℕ) : st.Lasts p [] := by
  intro es₁ slot f es₂ h
  have hlen := congrArg List.length h
  simp at hlen

/-- It lasts through an effect and those behind it when none spoils it, or it is stored again
later. -/
theorem lasts_cons {st : Stock} {p : ℕ} {e : Effect} {es : List Effect} :
    st.Lasts p (e :: es) ↔
      (∀ slot f, e = .install slot f → ¬st.Spares p e → Stored p es) ∧ (st.after e).Lasts p es := by
  constructor
  · intro h
    refine ⟨fun slot f he hs => ?_, fun es₁ slot f es₂ hsplit hs => ?_⟩
    · subst he
      exact h [] slot f es rfl hs
    · exact h (e :: es₁) slot f es₂ (by rw [hsplit, List.cons_append]) hs
  · rintro ⟨hhead, htail⟩ es₁ slot f es₂ hsplit hs
    cases es₁ with
    | nil =>
      obtain ⟨rfl, rfl⟩ := List.cons.inj hsplit
      exact hhead slot f rfl hs
    | cons e' es₁ =>
      obtain ⟨rfl, htl⟩ := List.cons.inj hsplit
      exact htail es₁ slot f es₂ htl hs

/-- A table is installed in a frame of the list. -/
theorem install_mem_frames {st : Stock} {slot f : ℕ} {es : List Effect}
    (hr : Meets after Ready st es) (h : Effect.install slot f ∈ es) : f ∈ st.frames := by
  induction es generalizing st with
  | nil => exact absurd h List.not_mem_nil
  | cons e es ih =>
    rcases List.mem_cons.1 h with rfl | hmem
    · exact List.mem_of_mem_head? hr.1.2.2
    · exact frames_run_subset [e] st (ih hr.2 hmem)

/-- Only an effect that makes the table changes that it is missing. -/
theorem not_isSome_after {st : Stock} {slot : ℕ} {e : Effect} (h : ¬(st.table slot).isSome)
    (hother : ∀ f, e ≠ .install slot f) : ¬((st.after e).table slot).isSome := by
  cases e with
  | entry page value => exact h
  | install slot' f =>
    have hne : slot ≠ slot' := fun heq => hother f (heq ▸ rfl)
    rwa [table_after_install, if_neg hne]

/-- A slot that has a table gets no other. -/
theorem install_notMem_of_isSome {st : Stock} {slot f : ℕ} {es : List Effect}
    (hr : Meets after Ready st es) (h : (st.table slot).isSome) : Effect.install slot f ∉ es := by
  induction es generalizing st with
  | nil => exact List.not_mem_nil
  | cons e es ih =>
    refine List.not_mem_cons_of_ne_of_not_mem ?_ (ih hr.2 (isSome_after h e))
    rintro rfl
    rw [hr.1.2.1] at h
    contradiction

end Stock

/-! ## What a frame keeps -/

namespace Vmm

/-- The first three bytes of a frame. -/
def frameHead (s : Vmm) (f : ℕ) : Word :=
  s.mem.load32 (frameAddr f) &&& 0xffffff

/-- The first entry of the frame behind a table, but for its last byte, which the `memset`
clears. -/
theorem getLsbD_frameHead (s : Vmm) (f : ℕ) {k t : ℕ} (hk : k < 4) (ht : t < 8) :
    (s.frameHead f).getLsbD (8 * k + t) =
      (decide (k < 3) && (s.mem (frameAddr f + BitVec.ofNat 32 k)).getLsbD t) := by
  have hmask : (0xffffff : Word).getLsbD (8 * k + t) = decide (k < 3) := by
    interval_cases k <;> interval_cases t <;> rfl
  rw [frameHead, BitVec.getLsbD_and, Mem.getLsbD_load32 _ _ hk ht, hmask, Bool.and_comm]

theorem frameHead_eq_zero {s : Vmm} {f : ℕ}
    (h : ∀ k < 3, s.mem (frameAddr f + BitVec.ofNat 32 k) = 0) : s.frameHead f = 0 := by
  refine BitVec.eq_of_getLsbD_eq fun i hi => ?_
  have hbit := s.getLsbD_frameHead f (k := i / 8) (t := i % 8) (by omega) (by omega)
  rw [Nat.div_add_mod] at hbit
  refine (hbit.trans ?_).trans BitVec.getLsbD_zero.symm
  by_cases hk : i / 8 < 3
  · have hbyte := congrArg (BitVec.getLsbD · (i % 8)) (h _ hk)
    rw [hbyte.trans BitVec.getLsbD_zero, Bool.and_false]
  · rw [decide_eq_false hk, Bool.false_and]

theorem load32_eq_frameHead {s : Vmm} {m : Mem} {f : ℕ}
    (hkept : ∀ k < 3, m (frameAddr f + BitVec.ofNat 32 k) =
      s.mem (frameAddr f + BitVec.ofNat 32 k))
    (hclear : m (frameAddr f + 3) = 0) : m.load32 (frameAddr f) = s.frameHead f := by
  refine BitVec.eq_of_getLsbD_eq fun i hi => ?_
  have hload := m.getLsbD_load32 (frameAddr f) (k := i / 8) (t := i % 8) (by omega) (by omega)
  have hbit := s.getLsbD_frameHead f (k := i / 8) (t := i % 8) (by omega) (by omega)
  rw [Nat.div_add_mod] at hload hbit
  rw [hload, hbit]
  by_cases hk : i / 8 < 3
  · rw [hkept _ hk, decide_eq_true hk, Bool.true_and]
  · have hlast : i / 8 = 3 := by omega
    rw [hlast, decide_eq_false (by norm_num), Bool.false_and]
    exact (congrArg (BitVec.getLsbD · _) hclear).trans BitVec.getLsbD_zero

section FrameHead

variable {s : Vmm} {dir : Word} (h : s.Sound dir) {f : ℕ}

include h

/-- An entry that goes to a table leaves the frames on the list alone. -/
theorem Sound.frameHead_perform_entry {page : ℕ} {value : Word} (hpage : page < 2 ^ 20)
    (hsome : (s.tables dir (page / 1024)).isSome) (hf : f ∈ s.pmm.freeList) :
    (s.perform dir (.entry page value)).frameHead f = s.frameHead f := by
  have hne := (isSome_tables_iff hpage).1 hsome
  have hbase := (h.unused f hf).ne_table _ (dirIndex_lt _) hne
  have happart := apart_of_ne (isPage_pageOf (s.pagedir dir (dirIndex (frameAddr page))))
    (isPage_frameAddr f) (tableIndex_lt (frameAddr page)) (j := 0) (by decide) (Or.inl hbase)
  have hzero : frameAddr f + 4 * 0 = frameAddr f := BitVec.add_zero _
  rw [hzero] at happart
  rw [frameHead, Vmm.perform, Vmm.setEntry, entryAddr, Mem.load32_store32_of_apart happart,
    frameHead]

/-- A new table leaves the other frames alone, but for the next. -/
theorem Sound.frameHead_perform_install {slot g : ℕ} {rest : List ℕ}
    (hr : (s.stock dir).Ready (.install slot g)) (hlist : s.pmm.freeList = g :: rest)
    (hf : f ∈ rest) :
    (s.perform dir (.install slot g)).frameHead f = if f = g + 1 then 0 else s.frameHead f := by
  obtain ⟨-, hempty, -⟩ := ready_install hr
  obtain ⟨hcan, hblock, -⟩ := h.canInstall hlist hempty
  have hflags : ptePresentWritable.toNat = 3 := rfl
  have hg := (h.unused_head hlist).lt
  have hfree := h.unused f (hlist ▸ List.mem_cons_of_mem g hf)
  -- The frames are handed out in ascending order, so the next frame is the one behind.
  have hgf : g < f := by
    have hsorted := s.pmm.pairwise_freeList
    rw [hlist, List.pairwise_cons] at hsorted
    exact hsorted.1 f hf
  split_ifs with hnext
  -- The `memset` starts three bytes into the table and ends three bytes into this frame.
  · refine frameHead_eq_zero fun k hk => ?_
    rw [Vmm.perform, mem_installTable]
    refine Mem.fill_of_mem (by norm_num)
      ((mem_block_or s.isPage_block (by decide)).2 (Or.inr ?_))
    rw [Mem.mem_block, hblock, hnext, frameAddr_succ, hflags]
    bv_omega
  · have hpages : frameAddr g ≠ frameAddr f := fun heq =>
      hgf.ne (frameAddr_inj hg hfree.lt heq)
    have hafter : frameAddr g + 4096 ≠ frameAddr f := by
      have hlt := hfree.lt
      rw [← frameAddr_succ]
      exact fun heq => hnext (frameAddr_inj (by omega) hlt heq).symm
    have hclear : ∀ x ∈ Mem.block (frameAddr f) 4,
        x ∉ Mem.block (s.block ||| ptePresentWritable) 4096 := by
      intro x hx
      rw [hblock]
      refine notMem_block_of_page_ne (isPage_frameAddr g) (isPage_frameAddr f) hpages hafter
        (by decide) ?_
      rw [Mem.mem_block] at hx ⊢
      omega
    have happart := apart_of_ne h.wellFormed.isPage (isPage_frameAddr f)
      (dirIndex_lt (frameAddr (slot * 1024))) (j := 0) (by decide) (Or.inl hfree.ne_dir.symm)
    have hzero : frameAddr f + 4 * 0 = frameAddr f := BitVec.add_zero _
    rw [hzero] at happart
    rw [frameHead, Vmm.perform, mem_installTable,
      Mem.load32_fill_of_apart (by norm_num) hclear, Mem.load32_store32_of_apart happart, frameHead]

/-- An entry of a new table is a word of its frame. -/
theorem Sound.getPhysicalAddress_perform_install_eq {p : ℕ}
    (hr : (s.stock dir).Ready (.install (p / 1024) f)) (hp : p < 2 ^ 20) :
    vmmngrGetPhysicalAddress (s.perform dir (.install (p / 1024) f)) dir (frameAddr p) =
      (s.perform dir (.install (p / 1024) f)).mem.load32
        (s.block + 4 * tableIndex (frameAddr p)) := by
  obtain ⟨-, hempty, rest, hlist⟩ := ready_install hr
  obtain ⟨hcan, -, -⟩ := h.canInstall hlist hempty
  have hslot : dirIndex (frameAddr (p / 1024 * 1024)) = dirIndex (frameAddr p) := by
    rw [dirIndex_frameAddr (by omega), dirIndex_frameAddr hp, Nat.mul_div_cancel _ (by norm_num)]
  have hentry : (s.perform dir (.install (p / 1024) f)).pagedir dir (dirIndex (frameAddr p)) =
      s.block ||| ptePresentWritable := by
    rw [← hslot]
    exact hcan.pagedir_installTable_self (by decide)
  rw [getPhysicalAddress_of_table (by rw [hentry]; exact or_ne_zero hcan.block_ne_zero), entryAddr,
    hentry, s.isPage_block.pageOf_or (by decide)]

/-- The entries of a new table are clear, but for the first. -/
theorem Sound.getPhysicalAddress_perform_install_later {p : ℕ}
    (hr : (s.stock dir).Ready (.install (p / 1024) f)) (hp : p < 2 ^ 20) (hlater : p % 1024 ≠ 0) :
    vmmngrGetPhysicalAddress (s.perform dir (.install (p / 1024) f)) dir (frameAddr p) = 0 := by
  have hflags : ptePresentWritable.toNat = 3 := rfl
  have hindex := toNat_tableIndex_frameAddr p
  rw [h.getPhysicalAddress_perform_install_eq hr hp, Vmm.perform, mem_installTable,
    Mem.load32_eq_zero_iff]
  intro x hx
  refine Mem.fill_of_mem (by norm_num) ((mem_block_or s.isPage_block (by decide)).2 (Or.inl ?_))
  rw [Mem.mem_block] at hx
  rw [Mem.mem_block, Mem.mem_block, hflags]
  bv_omega

/-- The first entry of a new table is what the frame keeps. -/
theorem Sound.getPhysicalAddress_perform_install_first {p : ℕ}
    (hr : (s.stock dir).Ready (.install (p / 1024) f)) (hp : p < 2 ^ 20) (hfirst : p % 1024 = 0) :
    vmmngrGetPhysicalAddress (s.perform dir (.install (p / 1024) f)) dir (frameAddr p) =
      s.frameHead f := by
  obtain ⟨-, hempty, rest, hlist⟩ := ready_install hr
  obtain ⟨hcan, hblock, -⟩ := h.canInstall hlist hempty
  have hflags : ptePresentWritable.toNat = 3 := rfl
  have hne := (h.unused_head hlist).ne_dir
  have hindex : tableIndex (frameAddr p) = 0 :=
    BitVec.eq_of_toNat_eq ((toNat_tableIndex_frameAddr p).trans hfirst)
  have haddr : s.block + 4 * 0 = frameAddr f := hblock ▸ BitVec.add_zero _
  rw [h.getPhysicalAddress_perform_install_eq hr hp, hindex, haddr, Vmm.perform, mem_installTable]
  have hslot := dirIndex_lt (frameAddr (p / 1024 * 1024))
  refine load32_eq_frameHead (fun k hk => ?_) (Mem.fill_of_mem (by norm_num) ?_)
  · have hin : frameAddr f + BitVec.ofNat 32 k ∈ Mem.block (frameAddr f) 4096 := by
      rw [Mem.mem_block]
      bv_omega
    rw [Mem.fill_of_notMem (by norm_num), Mem.store32_of_notMem]
    · exact fun hx => notMem_block_page (isPage_frameAddr f) h.wellFormed.isPage hne hin
        (mem_block_page hslot hx)
    · rw [mem_block_or s.isPage_block (by decide), hblock, Mem.mem_block, Mem.mem_block,
        Mem.mem_block, hflags]
      bv_omega
  · rw [mem_block_or s.isPage_block (by decide), hblock, Mem.mem_block, Mem.mem_block, hflags]
    refine Or.inl ?_
    bv_omega

end FrameHead

/-! ## The translation after a run -/

section Translation

variable {dir : Word} {es : List Effect} {p : ℕ} {v : Word}

/-- A page with a present entry has a table. -/
theorem isSome_of_getPhysicalAddress {s : Vmm} (hp : p < 2 ^ 20) (hv : v.getLsbD 0 = true)
    (h : vmmngrGetPhysicalAddress s dir (frameAddr p) = v) : (s.tables dir (p / 1024)).isSome := by
  refine (isSome_tables_iff hp).2 fun hempty => ?_
  rw [getPhysicalAddress_of_empty hempty] at h
  exact ne_zero_of_present hv h.symm

/-- `Sound.getPhysicalAddress_perform_iff` for a page that may have no table, when the effect
is not to install it. -/
theorem Sound.getPhysicalAddress_perform_iff_of_other {s : Vmm} (h : s.Sound dir) {e : Effect}
    (hr : (s.stock dir).Ready e) (hp : p < 2 ^ 20) (hv : v.getLsbD 0 = true)
    (hentry : e ≠ .entry p v) (hown : ∀ f, e ≠ .install (p / 1024) f) :
    vmmngrGetPhysicalAddress (s.perform dir e) dir (frameAddr p) = v ↔
      vmmngrGetPhysicalAddress s dir (frameAddr p) = v ∧ (s.stock dir).Spares p e := by
  by_cases hsome : (s.tables dir (p / 1024)).isSome
  · exact h.getPhysicalAddress_perform_iff hp hsome hr hv hentry
  · have hsome' : ¬((s.perform dir e).tables dir (p / 1024)).isSome := by
      rw [h.tables_perform hr]
      exact Stock.not_isSome_after hsome hown
    exact iff_of_false (fun heq => hsome' (isSome_of_getPhysicalAddress hp hv heq))
      fun hand => hsome (isSome_of_getPhysicalAddress hp hv hand.1)

/-- The bytes that a new table leaves in its first entry are `v`. They are those of the frame
from the start, unless the frame before becomes a table too. -/
def Stale (s : Vmm) (p : ℕ) (v : Word) (es : List Effect) : Prop :=
  p % 1024 = 0 ∧
    ∃ f, .install (p / 1024) f ∈ es ∧ f - 1 ∉ s.pmm.freeList ∧ s.frameHead f = v

/-- Such a page finds no stale bytes in a new one. -/
theorem not_stale_of_isSome {s : Vmm} (hr : Meets Stock.after Stock.Ready (s.stock dir) es)
    (hsome : (s.tables dir (p / 1024)).isSome) : ¬s.Stale p v es :=
  fun ⟨_, _, hmem, _⟩ => Stock.install_notMem_of_isSome hr hsome hmem

/-- Other effects do not change what is left in the frame of the table. -/
theorem Sound.stale_cons_iff {s : Vmm} (h : s.Sound dir) {e : Effect}
    (hr : Meets Stock.after Stock.Ready (s.stock dir) (e :: es)) (hs : (s.stock dir).Served e)
    (hother : ∀ f, e ≠ .install (p / 1024) f) (hv : v ≠ 0) :
    s.Stale p v (e :: es) ↔ (s.perform dir e).Stale p v es := by
  obtain ⟨-, hstock⟩ := h.perform hr.1
  have hready := hr.2
  rw [← hstock] at hready
  refine and_congr_right fun _ => exists_congr fun f => ?_
  rw [List.mem_cons, or_iff_right fun heq => hother f heq.symm]
  refine and_congr_right fun hmem => ?_
  have hfree := Stock.install_mem_frames hready hmem
  rw [frames_stock] at hfree
  have hlist : (s.perform dir e).pmm.freeList = ((s.stock dir).after e).frames := by
    rw [← hstock, frames_stock]
  cases e with
  | entry page w =>
    rw [Stock.after, frames_stock] at hlist
    rw [hlist] at hfree ⊢
    rw [h.frameHead_perform_entry hr.1 hs hfree]
  | install slot g =>
    obtain ⟨-, -, rest, hcons⟩ := ready_install hr.1
    rw [Stock.after, frames_stock, hcons, List.tail_cons] at hlist
    rw [hlist] at hfree ⊢
    have hsorted := s.pmm.pairwise_freeList
    rw [hcons, List.pairwise_cons] at hsorted
    have hgf := hsorted.1 f hfree
    rw [hcons, h.frameHead_perform_install hr.1 hcons hfree, List.mem_cons, not_or]
    split_ifs with hnext
    · exact iff_of_false (fun hand => hand.1.1 (by omega)) fun hand => hv hand.2.symm
    · have hne : f - 1 ≠ g := by omega
      rw [and_iff_right hne]

/-- The table of the page is installed now : its first entry is what the frame keeps. -/
theorem Sound.stale_install_iff {s : Vmm} (h : s.Sound dir) {f : ℕ}
    (hr : Meets Stock.after Stock.Ready (s.stock dir) (.install (p / 1024) f :: es))
    (hp : p < 2 ^ 20) (hv : v ≠ 0) :
    s.Stale p v (.install (p / 1024) f :: es) ↔
      vmmngrGetPhysicalAddress (s.perform dir (.install (p / 1024) f)) dir (frameAddr p) = v := by
  have hnow := Stock.isSome_after_install (s.stock dir) (p / 1024) f
  by_cases hfirst : p % 1024 = 0
  · obtain ⟨-, -, rest, hlist⟩ := ready_install hr.1
    have hpos := (h.unused_head hlist).pos
    have hsorted := s.pmm.pairwise_freeList
    rw [hlist, List.pairwise_cons] at hsorted
    have hbefore : f - 1 ∉ s.pmm.freeList := by
      rw [hlist, List.mem_cons, not_or]
      exact ⟨by omega, fun hmem => by have := hsorted.1 _ hmem; omega⟩
    rw [h.getPhysicalAddress_perform_install_first hr.1 hp hfirst]
    constructor
    · rintro ⟨-, f', hmem, -, hhead⟩
      rcases List.mem_cons.1 hmem with heq | hlater
      · obtain rfl := (Effect.install.inj heq).2
        exact hhead
      · exact absurd hlater (Stock.install_notMem_of_isSome hr.2 hnow)
    · exact fun hhead => ⟨hfirst, f, List.mem_cons_self, hbefore, hhead⟩
  · rw [h.getPhysicalAddress_perform_install_later hr.1 hp hfirst]
    exact iff_of_false (fun hstale => hfirst hstale.1) hv.symm

/-- Without a table the page has no entry to damage. -/
theorem Stale.spares {s : Vmm} {e : Effect}
    (hr : Meets Stock.after Stock.Ready (s.stock dir) (e :: es)) (h : s.Stale p v (e :: es))
    (hentry : ∀ w, e ≠ .entry p w) : (s.stock dir).Spares p e := by
  cases e with
  | entry page w => exact fun hpage => hentry w (hpage ▸ rfl)
  | install slot f =>
    rintro ⟨-, htable⟩
    have hsome : (s.tables dir (p / 1024)).isSome := Option.isSome_iff_exists.2 ⟨_, htable⟩
    exact not_stale_of_isSome hr hsome h

/-- One effect, when the page is not stored to after it. -/
theorem Sound.inPlace_cons_iff {s : Vmm} (h : s.Sound dir) {e : Effect}
    (hr : Meets Stock.after Stock.Ready (s.stock dir) (e :: es)) (hs : (s.stock dir).Served e)
    (hp : p < 2 ^ 20) (hv : v.getLsbD 0 = true) (he : ∀ w, e = .entry p w → w = v)
    (hstored : ¬Stock.Stored p es) :
    vmmngrGetPhysicalAddress (s.perform dir e) dir (frameAddr p) = v ∨
        (s.perform dir e).Stale p v es ↔
      (vmmngrGetPhysicalAddress s dir (frameAddr p) = v ∨ Stock.Stored p (e :: es) ∨
          s.Stale p v (e :: es)) ∧
        ∀ slot f, e = .install slot f → (s.stock dir).Spares p e := by
  have hv0 := ne_zero_of_present hv
  -- The effect stores the entry of the page : it is `v`, and nothing has to be known of before.
  by_cases hentry : ∃ w, e = .entry p w
  · obtain ⟨w, rfl⟩ := hentry
    obtain rfl := he w rfl
    have hget : vmmngrGetPhysicalAddress (s.perform dir (.entry p w)) dir (frameAddr p) = w := by
      rw [h.getPhysicalAddress_perform_entry hp hs hr.1, if_pos rfl]
    exact iff_of_true (Or.inl hget) ⟨Or.inr (Or.inl ⟨w, List.mem_cons_self⟩),
      fun _ _ heq => absurd heq.symm (Effect.install_ne_entry _ _ _ _)⟩
  have hentry := not_exists.1 hentry
  have hcons : ¬Stock.Stored p (e :: es) := fun ⟨w, hw⟩ =>
    (List.mem_cons.1 hw).elim (fun heq => hentry w heq.symm) fun hmem => hstored ⟨w, hmem⟩
  rw [or_iff_right hcons]
  -- The effect makes the table of the page, which had no translation until then.
  by_cases hown : ∃ f, e = .install (p / 1024) f
  · obtain ⟨f, rfl⟩ := hown
    obtain ⟨-, hstock⟩ := h.perform hr.1
    have hready := hr.2
    rw [← hstock] at hready
    have hnone : (s.stock dir).table (p / 1024) = none := hr.1.2.1
    have hget : vmmngrGetPhysicalAddress s dir (frameAddr p) ≠ v := fun heq => by
      have hsome : ((s.stock dir).table (p / 1024)).isSome := isSome_of_getPhysicalAddress hp hv heq
      rw [hnone] at hsome
      contradiction
    have hsome' : ((s.perform dir (.install (p / 1024) f)).tables dir (p / 1024)).isSome := by
      rw [h.tables_perform hr.1]
      exact Stock.isSome_after_install _ _ _
    have hspares : (s.stock dir).Spares p (.install (p / 1024) f) := by
      rintro ⟨-, htable⟩
      rw [hnone] at htable
      contradiction
    rw [or_iff_left (not_stale_of_isSome hready hsome'), h.stale_install_iff hr hp hv0,
      or_iff_right hget]
    exact (and_iff_left fun _ _ _ => hspares).symm
  -- Any other effect spares the entry or spoils it.
  · have hown := not_exists.1 hown
    rw [h.getPhysicalAddress_perform_iff_of_other hr.1 hp hv (hentry v) hown,
      ← h.stale_cons_iff hr hs hown hv0]
    constructor
    · rintro (⟨hget, hspares⟩ | hstale)
      · exact ⟨Or.inl hget, fun _ _ _ => hspares⟩
      · exact ⟨Or.inr hstale, fun _ _ _ => hstale.spares hr hentry⟩
    · rintro ⟨hget | hstale, hspares⟩
      · refine Or.inl ⟨hget, ?_⟩
        cases e with
        | entry page w => exact fun hpage => hentry w (hpage ▸ rfl)
        | install slot f => exact hspares slot f rfl
      · exact Or.inr hstale

/-- The page has the present entry `v` in the end exactly when it had it before, or a store or
the bytes of its new table put it there, and it lasts. -/
theorem Sound.getPhysicalAddress_run_iff_lasts {s : Vmm} (h : s.Sound dir)
    (hr : Meets Stock.after Stock.Ready (s.stock dir) es)
    (hs : Meets Stock.after Stock.Served (s.stock dir) es) (hp : p < 2 ^ 20)
    (hv : v.getLsbD 0 = true) (hes : ∀ w, Effect.entry p w ∈ es → w = v) :
    vmmngrGetPhysicalAddress (GuardedRun.run (Vmm.perform dir) s es) dir (frameAddr p) = v ↔
      (vmmngrGetPhysicalAddress s dir (frameAddr p) = v ∨ Stock.Stored p es ∨ s.Stale p v es) ∧
        (s.stock dir).Lasts p es := by
  induction es generalizing s with
  | nil =>
    rw [and_iff_left (Stock.lasts_nil _ p)]
    refine (or_iff_left ?_).symm
    rintro (⟨w, hw⟩ | ⟨-, f, hf, -⟩)
    · exact List.not_mem_nil hw
    · exact List.not_mem_nil hf
  | cons e es ih =>
    obtain ⟨hsound, hstock⟩ := h.perform hr.1
    have hready := hr.2
    have hserved := hs.2
    rw [← hstock] at hready hserved
    rw [run_cons, ih hsound hready hserved fun w hw => hes w (List.mem_cons_of_mem e hw),
      Stock.lasts_cons, hstock, ← and_assoc]
    refine and_congr_left fun _ => ?_
    by_cases hstored : Stock.Stored p es
    · have hcons : Stock.Stored p (e :: es) := hstored.imp fun w hw => List.mem_cons_of_mem e hw
      exact iff_of_true (Or.inr (Or.inl hstored)) ⟨Or.inr (Or.inl hcons), fun _ _ _ _ => hstored⟩
    · have hspares : (∀ slot f, e = .install slot f → ¬(s.stock dir).Spares p e →
          Stock.Stored p es) ↔ ∀ slot f, e = .install slot f → (s.stock dir).Spares p e :=
        forall₃_congr fun _ _ _ => ⟨fun himp => not_imp_comm.1 himp hstored, absurd⟩
      rw [or_iff_right hstored, hspares]
      exact h.inPlace_cons_iff hr hs.1 hp hv (fun w he => hes w (he ▸ List.mem_cons_self)) hstored

end Translation

end Vmm

end Scorch
