import Mathlib.Logic.Function.Basic
import Scorch.Lib.GuardedRun
import Scorch.FirstFit
import Scorch.TableCreation

/-!
# The frames a mapping takes

A call of `vmmngr_mapPhysicalAddress` may take a chain of frames. A new table is mapped to
itself, and that mapping may need a table of its own. `effects` is the chain in the
abstract, over page, slot and frame numbers : each step installs the next frame of the
free list as a table or stores one entry. The chain ends where a table exists or where
the list is empty, and in the second case the last entry goes through an empty slot.

`Sound` is the invariant of an address space next to the frames still to be handed out.
`mapPhysicalAddress_eq_run` says that a call performs exactly the effects of its
`stock`, and `Sound.perform` that one effect keeps the invariant and acts on the stock
as it does in the abstract.

What an effect does to the translations is said once, for one effect : a page keeps its entry when
the effect spares it, and gets a present one from a store only
(`Sound.getPhysicalAddress_perform_iff`). Runs are inductions over that
(`Sound.getPhysicalAddress_run_iff`).
-/

open ByteMemory GuardedRun

namespace Scorch

open Pmm

/-! ## The abstract supply -/

/-- The frame of the table of every slot, and the frames still to be handed out. -/
structure Stock where
  table : ℕ → Option ℕ
  frames : List ℕ

/-- What a mapping does. -/
inductive Effect where
  /-- Install a frame as the table of a slot. -/
  | install (slot frame : ℕ)
  /-- Store the entry of a page. -/
  | entry (page : ℕ) (value : Word)

theorem Effect.install_ne_entry (slot f page : ℕ) (value : Word) :
    Effect.install slot f ≠ .entry page value := by
  intro h
  contradiction

/-- The entry of a frame, present and writable. -/
def frameEntry (f : ℕ) : Word :=
  frameAddr f ||| ptePresentWritable

namespace Stock

/-- The stock after an effect. -/
def after (st : Stock) : Effect → Stock
  | .install slot f => ⟨Function.update st.table slot (some f), st.frames.tail⟩
  | .entry _ _ => st

/-- The effects of mapping a page. The recursion is on the frames left. -/
def effects : List ℕ → (ℕ → Option ℕ) → ℕ → Word → List Effect
  | [], _, page, value => [.entry page value]
  | f :: frames, table, page, value =>
    if (table (page / 1024)).isSome then [.entry page value]
    else
      .install (page / 1024) f ::
        (effects frames (Function.update table (page / 1024) (some f)) f (frameEntry f) ++
          [.entry page value])

/-- The effects of mapping a page with this stock. -/
def mapping (st : Stock) (page : ℕ) (value : Word) : List Effect :=
  effects st.frames st.table page value

/-- An effect that can happen : the next frame goes into an empty slot, or an entry of a
page is stored. -/
def Ready (st : Stock) : Effect → Prop
  | .install slot f => slot < 1024 ∧ st.table slot = none ∧ st.frames.head? = some f
  | .entry page _ => page < 2 ^ 20

/-- The entry goes through a slot that has a table. -/
def Served (st : Stock) : Effect → Prop
  | .install _ _ => True
  | .entry page _ => (st.table (page / 1024)).isSome

/-- Page `q` keeps its entry : it is not the page stored to, and not the first page of a
table in the frame behind one that is installed. -/
def Spares (st : Stock) (q : ℕ) : Effect → Prop
  | .install _ f => ¬(q % 1024 = 0 ∧ st.table (q / 1024) = some (f + 1))
  | .entry page _ => page ≠ q

/-- A new table is in the slot it was made for, and the others stay. -/
theorem table_after_install (st : Stock) (slot slot' f : ℕ) :
    (st.after (.install slot f)).table slot' = if slot' = slot then some f else st.table slot' :=
  Function.update_apply _ _ _ _

/-- Tables do not go away when one is made. -/
theorem isSome_after_install (st : Stock) (slot f : ℕ) :
    ((st.after (.install slot f)).table slot).isSome := by
  rw [table_after_install, if_pos rfl]
  rfl

theorem isSome_after {st : Stock} {slot : ℕ} (h : (st.table slot).isSome) (e : Effect) :
    ((st.after e).table slot).isSome := by
  cases e with
  | entry page value => exact h
  | install slot' f =>
    rw [table_after_install]
    split_ifs
    · rfl
    · exact h

theorem isSome_run (es : List Effect) {st : Stock} {slot : ℕ} (h : (st.table slot).isSome) :
    ((run after st es).table slot).isSome := by
  induction es generalizing st with
  | nil => exact h
  | cons e es ih => exact ih (isSome_after h e)

/-- A run takes frames from the free ones only. -/
theorem frames_run_subset (es : List Effect) (st : Stock) :
    (run after st es).frames ⊆ st.frames := by
  induction es generalizing st with
  | nil => exact List.Subset.refl _
  | cons e es ih =>
    refine List.Subset.trans (ih _) ?_
    cases e with
    | entry page value => exact List.Subset.refl _
    | install slot f => exact List.tail_subset _

/-- Where the table is there, a mapping is one entry. -/
theorem effects_of_isSome {frames : List ℕ} {table : ℕ → Option ℕ} {page : ℕ}
    (h : (table (page / 1024)).isSome) (value : Word) :
    effects frames table page value = [.entry page value] := by
  cases frames with
  | nil => rfl
  | cons f frames => rw [effects, if_pos h]

/-- Where it is missing, the first free frame becomes the table, is mapped itself, and then the
entry is written. -/
theorem effects_of_empty {f page : ℕ} {frames : List ℕ} {table : ℕ → Option ℕ}
    (h : ¬(table (page / 1024)).isSome) (value : Word) :
    effects (f :: frames) table page value =
      .install (page / 1024) f ::
        (effects frames (Function.update table (page / 1024) (some f)) f (frameEntry f) ++
          [.entry page value]) := by
  rw [effects, if_neg h]

/-- The last effect is the entry of the page itself. -/
theorem exists_effects_append (frames : List ℕ) (table : ℕ → Option ℕ) (page : ℕ)
    (value : Word) : ∃ es, effects frames table page value = es ++ [.entry page value] := by
  cases frames with
  | nil => exact ⟨[], rfl⟩
  | cons f frames =>
    rw [effects]
    split_ifs
    · exact ⟨[], rfl⟩
    · exact ⟨.install (page / 1024) f :: _, rfl⟩

/-- Every other entry maps a frame of the list to itself. -/
theorem entry_mem_effects : ∀ (frames : List ℕ) (table : ℕ → Option ℕ) {page q : ℕ}
    {value v : Word}, Effect.entry q v ∈ effects frames table page value →
    (q = page ∧ v = value) ∨ q ∈ frames ∧ v = frameEntry q
  | [], _, _, _, _, _, h => by
    rw [effects, List.mem_singleton, Effect.entry.injEq] at h
    exact Or.inl h
  | f :: frames, table, page, q, value, v, h => by
    rw [effects] at h
    split_ifs at h
    · rw [List.mem_singleton, Effect.entry.injEq] at h
      exact Or.inl h
    · rw [List.mem_cons, List.mem_append, List.mem_singleton, Effect.entry.injEq] at h
      rcases h with h | h | h
      · contradiction
      · rcases entry_mem_effects frames _ h with ⟨rfl, rfl⟩ | ⟨hq, hv⟩
        · exact Or.inr ⟨List.mem_cons_self, rfl⟩
        · exact Or.inr ⟨List.mem_cons_of_mem _ hq, hv⟩
      · exact Or.inl h

/-- A slot without a table after a mapping means that no frame was left. -/
theorem frames_eq_nil_of_mapping {st : Stock} {page : ℕ} {value : Word}
    (h : ¬((run after st (st.mapping page value)).table (page / 1024)).isSome) :
    st.frames = [] := by
  obtain ⟨table, frames⟩ := st
  cases frames with
  | nil => rfl
  | cons f frames =>
    refine absurd ?_ h
    rw [mapping, effects]
    split_ifs with hsome
    · exact hsome
    · rw [run_cons]
      exact isSome_run _ (isSome_after_install _ _ _)

/-- The effects of a mapping can happen one after another. -/
theorem meets_ready_effects : ∀ (frames : List ℕ) (table : ℕ → Option ℕ) {page : ℕ}
    (value : Word), page < 2 ^ 20 → (∀ f ∈ frames, f < 2 ^ 20) →
    Meets after Ready ⟨table, frames⟩ (effects frames table page value)
  | [], _, _, _, hpage, _ => ⟨hpage, trivial⟩
  | f :: frames, table, page, value, hpage, hframes => by
    by_cases h : (table (page / 1024)).isSome
    · rw [effects_of_isSome h]
      exact ⟨hpage, trivial⟩
    · rw [effects_of_empty h]
      have hnone : table (page / 1024) = none := by simpa using h
      refine ⟨⟨by omega, hnone, rfl⟩, (meets_append _ _ _).2 ⟨?_, hpage, trivial⟩⟩
      exact meets_ready_effects frames _ _ (hframes f List.mem_cons_self)
        fun g hg => hframes g (List.mem_cons_of_mem _ hg)

end Stock

/-! ## Pages and frames as numbers -/

/-- Different frames start at different addresses. -/
theorem frameAddr_inj {f g : ℕ} (hf : f < 2 ^ 20) (hg : g < 2 ^ 20)
    (h : frameAddr f = frameAddr g) : f = g := by
  have := congrArg BitVec.toNat h
  rw [toNat_frameAddr, toNat_frameAddr] at this
  omega

/-- Frames follow each other at `4096` bytes. -/
theorem frameAddr_succ (f : ℕ) : frameAddr (f + 1) = frameAddr f + 4096 := by
  have h1 := toNat_frameAddr f
  have h2 := toNat_frameAddr (f + 1)
  bv_omega

/-- The page of an address by its number. -/
theorem pageOf_eq_frameAddr (v : Word) : pageOf v = frameAddr (v.toNat / 4096) := by
  apply BitVec.eq_of_toNat_eq
  rw [toNat_pageOf, toNat_frameAddr]
  omega

theorem pageOf_frameAddr (f : ℕ) : pageOf (frameAddr f) = frameAddr f := by
  apply BitVec.eq_of_toNat_eq
  rw [toNat_pageOf, toNat_frameAddr]
  omega

/-- The flags of an entry are within its page. -/
theorem pageOf_frameEntry (f : ℕ) : pageOf (frameEntry f) = frameAddr f :=
  (isPage_frameAddr f).pageOf_or (by decide)

/-- An entry with the present bit is not empty. -/
theorem ne_zero_of_present {v : Word} (hv : v.getLsbD 0 = true) : v ≠ 0 := fun h0 => by
  rw [h0] at hv
  exact absurd hv (by decide)

/-- The entry that maps a table has the present bit. -/
theorem frameEntry_present (f : ℕ) : (frameEntry f).getLsbD 0 = true := by
  rw [frameEntry, BitVec.getLsbD_or, Bool.or_eq_true]
  exact Or.inr rfl

theorem frameEntry_ne_zero (f : ℕ) : frameEntry f ≠ 0 :=
  ne_zero_of_present (frameEntry_present f)

/-- Different tables have different entries. -/
theorem frameEntry_inj {f g : ℕ} (hf : f < 2 ^ 20) (hg : g < 2 ^ 20)
    (h : frameEntry f = frameEntry g) : f = g := by
  have hpage := congrArg pageOf h
  rw [pageOf_frameEntry, pageOf_frameEntry] at hpage
  exact frameAddr_inj hf hg hpage

theorem dirIndex_frameAddr {page : ℕ} (h : page < 2 ^ 20) :
    dirIndex (frameAddr page) = BitVec.ofNat 32 (page / 1024) := by
  rw [← BitVec.toNat_inj, toNat_dirIndex, toNat_frameAddr, BitVec.toNat_ofNat]
  omega

/-- The place of a page in its table by its number. -/
theorem toNat_tableIndex_frameAddr (page : ℕ) :
    (tableIndex (frameAddr page)).toNat = page % 1024 := by
  rw [toNat_tableIndex, toNat_frameAddr]
  omega

namespace Vmm

/-- The frame of the table of every slot. -/
def tables (s : Vmm) (dir : Word) (slot : ℕ) : Option ℕ :=
  if slot < 1024 ∧ s.pagedir dir (BitVec.ofNat 32 slot) ≠ 0 then
    some ((s.pagedir dir (BitVec.ofNat 32 slot)).toNat / 4096)
  else none

/-- The tables of a directory and the frames the allocator hands out. -/
def stock (s : Vmm) (dir : Word) : Stock :=
  ⟨s.tables dir, s.pmm.freeList⟩

/-- The free frames of the abstract supply are those of the bitmap. -/
theorem frames_stock (s : Vmm) (dir : Word) : (s.stock dir).frames = s.pmm.freeList :=
  rfl

/-- Perform one effect. -/
def perform (dir : Word) (s : Vmm) : Effect → Vmm
  | .install slot _ => s.installTable dir (frameAddr (slot * 1024)) ptePresentWritable
  | .entry page value => s.setEntry dir (frameAddr page) value

/-- A frame that is neither the directory nor the frame before it nor a table. -/
structure Unused (s : Vmm) (dir : Word) (f : ℕ) : Prop where
  pos : 0 < f
  lt : f < 2 ^ 20
  ne_dir : frameAddr f ≠ dir
  next_ne_dir : frameAddr f + 4096 ≠ dir
  ne_table : ∀ i : Word, i.toNat < 1024 → s.pagedir dir i ≠ 0 →
    pageOf (s.pagedir dir i) ≠ frameAddr f

/-- A well-formed address space apart from frame `0` and from the frames still to be
handed out. -/
structure Sound (s : Vmm) (dir : Word) : Prop where
  wellFormed : s.WellFormed dir
  dir_ne_zero : dir ≠ 0
  table_ne_zero : ∀ i : Word, i.toNat < 1024 → s.pagedir dir i ≠ 0 →
    pageOf (s.pagedir dir i) ≠ 0
  unused : ∀ f ∈ s.pmm.freeList, s.Unused dir f

/-- The slot of an address, as `vmm.c` computes it, and by the number of its page. -/
theorem ofNat_slot (v : Word) : BitVec.ofNat 32 (v.toNat / 4096 / 1024) = dirIndex v := by
  rw [← BitVec.toNat_inj, toNat_dirIndex, BitVec.toNat_ofNat]
  omega

/-- A slot in use has the frame of its entry as table. -/
theorem tables_of_ne {s : Vmm} {dir v : Word} (h : s.pagedir dir (dirIndex v) ≠ 0) :
    s.tables dir (v.toNat / 4096 / 1024) =
      some ((s.pagedir dir (dirIndex v)).toNat / 4096) := by
  rw [tables, ofNat_slot, if_pos ⟨by omega, h⟩]

theorem tables_of_empty {s : Vmm} {dir v : Word} (h : s.pagedir dir (dirIndex v) = 0) :
    s.tables dir (v.toNat / 4096 / 1024) = none := by
  rw [tables, ofNat_slot, if_neg fun hcon => hcon.2 h]

/-- A slot has a table when its directory entry is not zero. -/
theorem isSome_tables_iff {s : Vmm} {dir : Word} {page : ℕ} (hpage : page < 2 ^ 20) :
    (s.tables dir (page / 1024)).isSome ↔ s.pagedir dir (dirIndex (frameAddr page)) ≠ 0 := by
  rw [dirIndex_frameAddr hpage, tables]
  split_ifs with h
  · exact iff_of_true rfl h.2
  · have hlt : page / 1024 < 1024 := by omega
    simpa [hlt] using h

/-- Changing one directory entry changes the table of one slot. -/
theorem tables_of_pagedir {s s' : Vmm} {dir d e : Word} (hd : d.toNat < 1024) (he : e ≠ 0)
    (hdir : ∀ i : Word, i.toNat < 1024 →
      s'.pagedir dir i = if i = d then e else s.pagedir dir i) :
    s'.tables dir = Function.update (s.tables dir) d.toNat (some (e.toNat / 4096)) := by
  funext slot
  rw [Function.update_apply]
  by_cases hslot : slot < 1024
  · have hi : (BitVec.ofNat 32 slot).toNat = slot := by
      rw [BitVec.toNat_ofNat]
      omega
    have heq : BitVec.ofNat 32 slot = d ↔ slot = d.toNat := by
      rw [← BitVec.toNat_inj, hi]
    rw [tables, tables, hdir _ (by omega)]
    by_cases hsd : slot = d.toNat
    · rw [if_pos hsd, if_pos (heq.2 hsd), if_pos ⟨hslot, he⟩]
    · rw [if_neg hsd, if_neg (mt heq.1 hsd)]
  · have hne : slot ≠ d.toNat := by omega
    rw [if_neg hne, tables, tables, if_neg fun hcon => hslot hcon.1,
      if_neg fun hcon => hslot hcon.1]

/-! ## One effect -/

/-- The offset within the page does not count for its entry. -/
theorem setEntry_pageOf (s : Vmm) (dir v w : Word) :
    s.setEntry dir (pageOf v) w = s.setEntry dir v w := by
  have hpage : pageOf (pageOf v) = pageOf v := by
    rw [pageOf_eq_frameAddr v, pageOf_frameAddr]
  obtain ⟨hd, ht⟩ := pageOf_eq_iff.1 hpage
  unfold setEntry entryAddr
  rw [hd, ht]

theorem setEntry_frameAddr (s : Vmm) (dir v w : Word) :
    s.setEntry dir (frameAddr (v.toNat / 4096)) w = s.setEntry dir v w := by
  rw [← pageOf_eq_frameAddr, setEntry_pageOf]

section Perform

variable {s : Vmm} {dir : Word} (h : s.Sound dir)

include h

/-- The first free frame is not yet a table. -/
theorem Sound.unused_head {f : ℕ} {rest : List ℕ} (hlist : s.pmm.freeList = f :: rest) :
    s.Unused dir f :=
  h.unused f (hlist ▸ List.mem_cons_self)

/-- When a frame is free, the allocator gives the first, and it can be the table of an empty
slot. -/
theorem Sound.canInstall {f : ℕ} {rest : List ℕ} (hlist : s.pmm.freeList = f :: rest) {v : Word}
    (hv : s.pagedir dir (dirIndex v) = 0) :
    s.CanInstall dir v ∧ s.block = frameAddr f ∧
      (pmmngrAllocBlock s.pmm).2.freeList = rest := by
  have hf := h.unused_head hlist
  obtain ⟨halloc, hrest⟩ :=
    pmmngrAllocBlock_of_freeList_cons hlist (hf.lt.trans (by norm_num))
  have hblock : s.block = frameAddr f := congrArg Prod.fst halloc
  have hne : frameAddr f ≠ 0 := fun h0 => by
    have := (frameAddr_eq_zero_iff f).1 h0
    have := hf.pos
    have := hf.lt
    omega
  refine ⟨⟨h.wellFormed, hv, ?_, ?_, ?_, ?_⟩, hblock, ?_⟩
  · rwa [hblock]
  · rw [hblock]
    exact hf.ne_dir
  · rw [hblock]
    exact hf.next_ne_dir
  · rw [hblock]
    exact hf.ne_table
  · rw [halloc]
    exact hrest

/-- A store through an empty slot lands in frame `0`, away from the directory and the
tables. -/
theorem Sound.pagedir_setEntry (v w : Word) {i : Word} (hi : i.toNat < 1024) :
    (s.setEntry dir v w).pagedir dir i = s.pagedir dir i := by
  by_cases hv : s.pagedir dir (dirIndex v) = 0
  · have happart : Mem.Apart (s.entryAddr dir v) (dir + 4 * i) := by
      rw [entryAddr, hv]
      exact apart_of_ne rfl h.wellFormed.isPage (tableIndex_lt v) hi
        (Or.inl (Ne.symm h.dir_ne_zero))
    exact Mem.load32_store32_of_apart happart
  · exact h.wellFormed.pagedir_setEntry hv w hi

/-- An entry for a page changes no table and no slot. -/
theorem Sound.setEntry (v w : Word) : (s.setEntry dir v w).Sound dir := by
  have hdir : ∀ i : Word, i.toNat < 1024 → (s.setEntry dir v w).pagedir dir i = s.pagedir dir i :=
    fun i hi => h.pagedir_setEntry v w hi
  refine ⟨h.wellFormed.congr hdir, h.dir_ne_zero, fun i hi => ?_, fun f hf => ?_⟩
  · rw [hdir i hi]
    exact h.table_ne_zero i hi
  · have hu := h.unused f hf
    refine ⟨hu.pos, hu.lt, hu.ne_dir, hu.next_ne_dir, fun i hi => ?_⟩
    rw [hdir i hi]
    exact hu.ne_table i hi

/-- The abstract supply does not see entries. -/
theorem Sound.stock_setEntry (v w : Word) : (s.setEntry dir v w).stock dir = s.stock dir := by
  have htables : (s.setEntry dir v w).tables dir = s.tables dir := by
    funext slot
    unfold tables
    by_cases hslot : slot < 1024
    · rw [h.pagedir_setEntry v w (by rw [BitVec.toNat_ofNat]; omega)]
    · rw [if_neg fun hcon => hslot hcon.1, if_neg fun hcon => hslot hcon.1]
  unfold stock
  rw [htables]
  rfl

/-- Installing the next frame as the table of an empty slot. -/
theorem Sound.installTable {f : ℕ} {rest : List ℕ} (hlist : s.pmm.freeList = f :: rest) {v : Word}
    (hv : s.pagedir dir (dirIndex v) = 0) :
    (s.installTable dir v ptePresentWritable).Sound dir ∧
      (s.installTable dir v ptePresentWritable).stock dir =
        (s.stock dir).after (.install (dirIndex v).toNat f) := by
  obtain ⟨hcan, hblock, hrest⟩ := h.canInstall hlist hv
  have hf := h.unused_head hlist
  have hflags : ptePresentWritable.toNat < 4096 := by decide
  have hdir : ∀ i : Word, i.toNat < 1024 →
      (s.installTable dir v ptePresentWritable).pagedir dir i =
        if i = dirIndex v then frameEntry f else s.pagedir dir i := by
    intro i hi
    rw [hcan.pagedir_installTable hflags hi, hblock]
    rfl
  have hpage := pageOf_frameEntry f
  have hlist' : (s.installTable dir v ptePresentWritable).pmm.freeList = rest := hrest
  have hsorted := s.pmm.pairwise_freeList
  rw [hlist, List.pairwise_cons] at hsorted
  -- The frame of the table is no longer free, and the frames left lie above it.
  refine ⟨⟨hcan.installTable hflags, h.dir_ne_zero, fun i hi => ?_, fun g hg => ?_⟩, ?_⟩
  · rw [hdir i hi]
    split_ifs with hiv
    · rw [hpage]
      exact fun _ h0 => hcan.block_ne_zero (hblock.trans h0)
    · exact h.table_ne_zero i hi
  · rw [hlist'] at hg
    have hu := h.unused g (hlist ▸ List.mem_cons_of_mem _ hg)
    refine ⟨hu.pos, hu.lt, hu.ne_dir, hu.next_ne_dir, fun i hi => ?_⟩
    rw [hdir i hi]
    split_ifs with hiv
    · rw [hpage]
      exact fun _ heq => (hsorted.1 g hg).ne (frameAddr_inj hf.lt hu.lt heq)
    · exact hu.ne_table i hi
  -- The frame is read back from the entry, without the flags.
  · have hval : (frameEntry f).toNat / 4096 = f := by
      have h1 := congrArg BitVec.toNat hpage
      have hlt := hf.lt
      rw [toNat_pageOf, toNat_frameAddr] at h1
      omega
    have hne : frameEntry f ≠ 0 := or_ne_zero fun h0 => hcan.block_ne_zero (hblock.trans h0)
    rw [stock, tables_of_pagedir (dirIndex_lt v) hne hdir, hval, hlist', stock, Stock.after, hlist]
    rfl

omit h in
/-- What it takes to install a table. -/
theorem ready_install {slot f : ℕ} (hr : (s.stock dir).Ready (.install slot f)) :
    (dirIndex (frameAddr (slot * 1024))).toNat = slot ∧
      s.pagedir dir (dirIndex (frameAddr (slot * 1024))) = 0 ∧
      ∃ rest, s.pmm.freeList = f :: rest := by
  obtain ⟨hslot, hnone, hhead⟩ := hr
  have hdiv : slot * 1024 / 1024 = slot := Nat.mul_div_cancel _ (by norm_num)
  refine ⟨?_, ?_, List.head?_eq_some_iff.1 hhead⟩
  · rw [dirIndex_frameAddr (by omega), hdiv, BitVec.toNat_ofNat]
    omega
  · by_contra hne
    have hsome : (s.tables dir (slot * 1024 / 1024)).isSome := (isSome_tables_iff (by omega)).2 hne
    rw [hdiv] at hsome
    have hnone' : s.tables dir slot = none := hnone
    simp [hnone'] at hsome

/-- An effect that can happen keeps the address space sound, and the stock follows. -/
theorem Sound.perform {e : Effect} (hr : (s.stock dir).Ready e) :
    (s.perform dir e).Sound dir ∧ (s.perform dir e).stock dir = (s.stock dir).after e := by
  cases e with
  | entry page value => exact ⟨h.setEntry _ _, h.stock_setEntry _ _⟩
  | install slot f =>
    obtain ⟨hslot, hempty, rest, hlist⟩ := ready_install hr
    have hinstall := h.installTable hlist hempty
    rwa [hslot] at hinstall

/-- The tables of the code are those of the abstract supply after the effect. -/
theorem Sound.tables_perform {e : Effect} (hr : (s.stock dir).Ready e) :
    (s.perform dir e).tables dir = ((s.stock dir).after e).table :=
  congrArg Stock.table (h.perform hr).2

end Perform

/-- Installing a table is an effect, on the slot of the page. -/
theorem installTable_eq_perform (s : Vmm) (dir v : Word) (f : ℕ) :
    s.installTable dir v ptePresentWritable =
      s.perform dir (.install (v.toNat / 4096 / 1024) f) := by
  have hslot : dirIndex (frameAddr (v.toNat / 4096 / 1024 * 1024)) = dirIndex v := by
    rw [dirIndex_frameAddr (by omega), Nat.mul_div_cancel _ (by norm_num), ofNat_slot]
  rw [Vmm.perform, installTable, installTable, hslot]

/-- A mapping performs the effects its stock prescribes. The induction is on the frames
left, one of which every table takes. -/
theorem Sound.mapPhysicalAddress_eq_run {dir : Word} (frames : List ℕ) :
    ∀ {s : Vmm}, s.Sound dir → s.pmm.freeList = frames → ∀ virt phys : Word,
      vmmngrMapPhysicalAddress s dir virt phys ptePresentWritable =
        run (Vmm.perform dir) s (Stock.effects frames (s.tables dir) (virt.toNat / 4096)
          (phys ||| ptePresentWritable)) := by
  have hentry : ∀ (s : Vmm) (virt w : Word),
      s.setEntry dir virt w = run (Vmm.perform dir) s [.entry (virt.toNat / 4096) w] :=
    fun s virt w => (s.setEntry_frameAddr dir virt w).symm
  induction frames with
  | nil =>
    intro s h hlist virt phys
    rw [Stock.effects, ← hentry]
    -- With no frame left, a table that is missing stays so.
    by_cases hv : s.pagedir dir (dirIndex virt) = 0
    · have halloc := pmmngrAllocBlock_of_freeList_nil hlist
      rw [mapPhysicalAddress_of_no_block hv (congrArg Prod.fst halloc), halloc]
    · rw [mapPhysicalAddress_of_table hv]
  | cons f frames ih =>
    intro s h hlist virt phys
    by_cases hv : s.pagedir dir (dirIndex virt) = 0
    -- The next frame becomes the table, and mapping it is a call with one frame less.
    · obtain ⟨hcan, hblock, hrest⟩ := h.canInstall hlist hv
      obtain ⟨hsound, hstock⟩ := h.installTable hlist hv
      have hlt := (h.unused_head hlist).lt
      have hslot : (dirIndex virt).toNat = virt.toNat / 4096 / 1024 := by
        rw [toNat_dirIndex]
        omega
      have htables : (s.installTable dir virt ptePresentWritable).tables dir =
          Function.update (s.tables dir) (virt.toNat / 4096 / 1024) (some f) := by
        rw [← hslot]
        exact congrArg Stock.table hstock
      have hnone : ¬(s.tables dir (virt.toNat / 4096 / 1024)).isSome := by
        rw [tables_of_empty hv]
        simp
      rw [mapPhysicalAddress_of_block hv hcan.block_ne_zero, hblock, ih hsound hrest, htables,
        frameAddr_div hlt, Stock.effects, if_neg hnone, run_cons, run_append,
        ← s.installTable_eq_perform dir virt f, hentry]
      rfl
    · have hsome : (s.tables dir (virt.toNat / 4096 / 1024)).isSome := by
        rw [tables_of_ne hv]
        rfl
      rw [Stock.effects_of_isSome hsome, ← hentry, mapPhysicalAddress_of_table hv]

/-! ## What an effect does to the translations -/

/-- Stores through null are only counted up. -/
theorem nullStores_le_perform (s : Vmm) (dir : Word) (e : Effect) :
    s.nullStores ≤ (s.perform dir e).nullStores := by
  cases e with
  | install slot f => exact le_rfl
  | entry page value => exact Nat.le_add_right _ _

/-- An effect writes through null just when it needs a table that is not there. -/
theorem nullStores_perform_iff {s : Vmm} {dir : Word} {e : Effect}
    (hr : (s.stock dir).Ready e) :
    (s.perform dir e).nullStores = s.nullStores ↔ (s.stock dir).Served e := by
  cases e with
  | install slot f => exact iff_of_true rfl trivial
  | entry page value =>
    have hsome : (s.stock dir).Served (.entry page value) ↔
        s.pagedir dir (dirIndex (frameAddr page)) ≠ 0 := isSome_tables_iff hr
    rw [hsome]
    show s.nullStores + (if _ then 1 else 0) = s.nullStores ↔ _
    split_ifs with hempty
    · exact iff_of_false (by omega) (not_not.2 hempty)
    · exact iff_of_true rfl hempty

section Translations

variable {s : Vmm} {dir : Word} (h : s.Sound dir)

include h

/-- A store to an entry is seen by its page, when the slot has a table, and by no other
page. -/
theorem Sound.getPhysicalAddress_setEntry (v w : Word) {x : Word}
    (hx : s.pagedir dir (dirIndex x) ≠ 0) :
    vmmngrGetPhysicalAddress (s.setEntry dir v w) dir x =
      if pageOf x = pageOf v then w else vmmngrGetPhysicalAddress s dir x := by
  by_cases hv : s.pagedir dir (dirIndex v) = 0
  · have hne : pageOf x ≠ pageOf v := fun heq => hx ((pageOf_eq_iff.1 heq).1 ▸ hv)
    have hdir := h.pagedir_setEntry v w (dirIndex_lt x)
    have happart : Mem.Apart (s.entryAddr dir v) (s.entryAddr dir x) := by
      rw [entryAddr, entryAddr, hv]
      exact apart_of_ne rfl (isPage_pageOf _) (tableIndex_lt v) (tableIndex_lt x)
        (Or.inl (Ne.symm (h.table_ne_zero _ (dirIndex_lt x) hx)))
    rw [if_neg hne, getPhysicalAddress_of_table (by rwa [hdir]), entryAddr_congr hdir,
      getPhysicalAddress_of_table hx]
    exact Mem.load32_store32_of_apart happart
  · exact h.wellFormed.getPhysicalAddress_setEntry hv w x

variable {q : ℕ} (hq : q < 2 ^ 20) (hsome : (s.tables dir (q / 1024)).isSome)

include hq hsome

omit hq in
theorem Sound.isSome_tables_perform {e : Effect} (hr : (s.stock dir).Ready e) :
    ((s.perform dir e).tables dir (q / 1024)).isSome := by
  rw [h.tables_perform hr]
  exact Stock.isSome_after hsome e

/-- An entry changes the translation of its own page. -/
theorem Sound.getPhysicalAddress_perform_entry {page : ℕ} (hpage : page < 2 ^ 20) (value : Word) :
    vmmngrGetPhysicalAddress (s.perform dir (.entry page value)) dir (frameAddr q) =
      if q = page then value else vmmngrGetPhysicalAddress s dir (frameAddr q) := by
  have hiff : pageOf (frameAddr q) = pageOf (frameAddr page) ↔ q = page := by
    rw [pageOf_frameAddr, pageOf_frameAddr]
    exact ⟨fun heq => frameAddr_inj hq hpage heq, congrArg frameAddr⟩
  rw [Vmm.perform, h.getPhysicalAddress_setEntry _ _ ((isSome_tables_iff hq).1 hsome)]
  simp only [hiff]

/-- The stock says whether a page is the first of the table behind the block. -/
theorem Sound.table_eq_succ_iff {f : ℕ} (hf : f < 2 ^ 20) (hblock : s.block = frameAddr f) :
    (q % 1024 = 0 ∧ s.tables dir (q / 1024) = some (f + 1)) ↔
      tableIndex (frameAddr q) = 0 ∧
        pageOf (s.pagedir dir (dirIndex (frameAddr q))) = s.block + 4096 := by
  have hne := (isSome_tables_iff hq).1 hsome
  have hidx : tableIndex (frameAddr q) = 0 ↔ q % 1024 = 0 := by
    rw [← BitVec.toNat_inj, toNat_tableIndex_frameAddr]
    rfl
  have htable := tables_of_ne hne
  rw [frameAddr_div hq] at htable
  rw [hidx, htable, Option.some.injEq, pageOf_eq_frameAddr, hblock, ← frameAddr_succ]
  refine and_congr_right fun _ => ⟨congrArg frameAddr, fun heq => ?_⟩
  have hzero := h.table_ne_zero _ (dirIndex_lt _) hne
  rw [pageOf_eq_frameAddr] at hzero
  rcases Nat.lt_or_ge (f + 1) (2 ^ 20) with hlt | hge
  · exact frameAddr_inj (by omega) hlt heq
  · have hwrap : frameAddr (f + 1) = 0 := (frameAddr_eq_zero_iff _).2 (by omega)
    exact absurd (heq.trans hwrap) hzero

/-- A page an effect spares keeps its translation. -/
theorem Sound.getPhysicalAddress_perform_of_spares {e : Effect} (hr : (s.stock dir).Ready e)
    (hs : (s.stock dir).Spares q e) :
    vmmngrGetPhysicalAddress (s.perform dir e) dir (frameAddr q) =
      vmmngrGetPhysicalAddress s dir (frameAddr q) := by
  cases e with
  | entry page value =>
    rw [h.getPhysicalAddress_perform_entry hq hsome hr, if_neg (Ne.symm hs)]
  | install slot f =>
    obtain ⟨-, hempty, rest, hlist⟩ := ready_install hr
    obtain ⟨hcan, hblock, -⟩ := h.canInstall hlist hempty
    have hlt := (h.unused_head hlist).lt
    exact hcan.getPhysicalAddress_installTable_of_ne (by decide) ((isSome_tables_iff hq).1 hsome)
      (mt (h.table_eq_succ_iff hq hsome hlt hblock).2 hs) (by decide)

/-- A page an effect does not spare gets the entry stored, or loses the present bit. -/
theorem Sound.getPhysicalAddress_perform_of_not_spares {e : Effect} (hr : (s.stock dir).Ready e)
    (hs : ¬(s.stock dir).Spares q e) :
    (∃ value, e = .entry q value ∧
        vmmngrGetPhysicalAddress (s.perform dir e) dir (frameAddr q) = value) ∨
      (vmmngrGetPhysicalAddress (s.perform dir e) dir (frameAddr q)).getLsbD 0 = false := by
  cases e with
  | entry page value =>
    obtain rfl : page = q := not_not.1 hs
    refine Or.inl ⟨value, rfl, ?_⟩
    rw [h.getPhysicalAddress_perform_entry hq hsome hr, if_pos rfl]
  | install slot f =>
    obtain ⟨-, hempty, rest, hlist⟩ := ready_install hr
    obtain ⟨hcan, hblock, -⟩ := h.canInstall hlist hempty
    have hlt := (h.unused_head hlist).lt
    obtain ⟨hindex, hbase⟩ := (h.table_eq_succ_iff hq hsome hlt hblock).1 (not_not.1 hs)
    exact Or.inr (hcan.getLsbD_getPhysicalAddress_installTable (by decide)
      ((isSome_tables_iff hq).1 hsome) hindex hbase (by decide))

/-- A present entry `v` stays when the effect spares the page, and it comes from a store of `v`
only. -/
theorem Sound.getPhysicalAddress_perform_iff {e : Effect} (hr : (s.stock dir).Ready e) {v : Word}
    (hv : v.getLsbD 0 = true) (he : e ≠ .entry q v) :
    vmmngrGetPhysicalAddress (s.perform dir e) dir (frameAddr q) = v ↔
      vmmngrGetPhysicalAddress s dir (frameAddr q) = v ∧ (s.stock dir).Spares q e := by
  by_cases hs : (s.stock dir).Spares q e
  · rw [h.getPhysicalAddress_perform_of_spares hq hsome hr hs, and_iff_left hs]
  · refine iff_of_false (fun hget => ?_) fun hand => hs hand.2
    rcases h.getPhysicalAddress_perform_of_not_spares hq hsome hr hs with ⟨w, rfl, hw⟩ | hbit
    · rw [hw] at hget
      exact he (by rw [hget])
    · rw [hget, hv] at hbit
      contradiction

end Translations

/-! ## Runs of effects -/

theorem nullStores_le_run (dir : Word) (es : List Effect) (s : Vmm) :
    s.nullStores ≤ (run (Vmm.perform dir) s es).nullStores := by
  induction es generalizing s with
  | nil => exact le_rfl
  | cons e es ih => exact (nullStores_le_perform s dir e).trans (ih _)

section Runs

variable {dir : Word} {es : List Effect}

/-- The stock of a run of effects is the run of the stock. -/
theorem Sound.run {s : Vmm} (h : s.Sound dir)
    (hr : Meets Stock.after Stock.Ready (s.stock dir) es) :
    (run (Vmm.perform dir) s es).Sound dir ∧
      (run (Vmm.perform dir) s es).stock dir = run Stock.after (s.stock dir) es := by
  induction es generalizing s with
  | nil => exact ⟨h, rfl⟩
  | cons e es ih =>
    obtain ⟨hsound, hstock⟩ := h.perform hr.1
    have hrest := hr.2
    rw [← hstock] at hrest
    have := ih hsound hrest
    rwa [hstock] at this

/-- No store goes through an empty slot exactly when every entry is served. -/
theorem Sound.nullStores_run_iff {s : Vmm} (h : s.Sound dir)
    (hr : Meets Stock.after Stock.Ready (s.stock dir) es) :
    (GuardedRun.run (Vmm.perform dir) s es).nullStores = s.nullStores ↔
      Meets Stock.after Stock.Served (s.stock dir) es := by
  induction es generalizing s with
  | nil => exact iff_of_true rfl trivial
  | cons e es ih =>
    obtain ⟨hsound, hstock⟩ := h.perform hr.1
    have hrest := hr.2
    rw [← hstock] at hrest
    have hih := ih hsound hrest
    have hle := nullStores_le_perform s dir e
    have hle' := nullStores_le_run dir es (s.perform dir e)
    rw [run_cons, meets_cons, ← nullStores_perform_iff hr.1, ← hstock, ← hih]
    omega

/-- A page with a table has the present entry `v` after a run exactly when it had it before
and every effect spares it, provided the run does not store that entry. -/
theorem Sound.getPhysicalAddress_run_iff {s : Vmm} (h : s.Sound dir)
    (hr : Meets Stock.after Stock.Ready (s.stock dir) es) {q : ℕ} (hq : q < 2 ^ 20)
    (hsome : (s.tables dir (q / 1024)).isSome) {v : Word} (hv : v.getLsbD 0 = true)
    (hes : ∀ e ∈ es, e ≠ .entry q v) :
    vmmngrGetPhysicalAddress (GuardedRun.run (Vmm.perform dir) s es) dir (frameAddr q) = v ↔
      vmmngrGetPhysicalAddress s dir (frameAddr q) = v ∧
        Meets Stock.after (fun st => st.Spares q) (s.stock dir) es := by
  induction es generalizing s with
  | nil => exact (and_iff_left trivial).symm
  | cons e es ih =>
    obtain ⟨hsound, hstock⟩ := h.perform hr.1
    have hrest := hr.2
    rw [← hstock] at hrest
    have hsome' := h.isSome_tables_perform hsome hr.1
    rw [run_cons, ih hsound hrest hsome' fun e' he' => hes e' (List.mem_cons_of_mem _ he'),
      meets_cons, hstock, ← and_assoc,
      h.getPhysicalAddress_perform_iff hq hsome hr.1 hv (hes e List.mem_cons_self)]

/-- Each effect of a mapping finds what the one before it prepared. -/
theorem Sound.meets_ready_mapping {s : Vmm} (h : s.Sound dir) {page : ℕ} (hpage : page < 2 ^ 20)
    (value : Word) :
    Meets Stock.after Stock.Ready (s.stock dir) ((s.stock dir).mapping page value) :=
  Stock.meets_ready_effects _ _ value hpage fun f hf => (h.unused f hf).lt

/-- A page whose slot has a table after it is mapped has the entry stored. -/
theorem Sound.getPhysicalAddress_mapping {s : Vmm} (h : s.Sound dir) {page : ℕ}
    (hpage : page < 2 ^ 20) (value : Word)
    (hsome : ((GuardedRun.run Stock.after (s.stock dir)
      ((s.stock dir).mapping page value)).table (page / 1024)).isSome) :
    vmmngrGetPhysicalAddress (GuardedRun.run (Vmm.perform dir) s
      ((s.stock dir).mapping page value)) dir (frameAddr page) = value := by
  have hready := h.meets_ready_mapping hpage value
  obtain ⟨es, hes⟩ :=
    Stock.exists_effects_append (s.stock dir).frames (s.stock dir).table page value
  rw [Stock.mapping, hes] at hready hsome ⊢
  rw [run_append] at hsome ⊢
  obtain ⟨hsound, hstock⟩ := h.run hready.of_append
  rw [← hstock] at hsome
  rw [run_cons, run_nil, hsound.getPhysicalAddress_perform_entry hpage hsome hpage, if_pos rfl]

end Runs

end Vmm

end Scorch
