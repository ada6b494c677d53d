import Scorch.IdentityMap

/-!
# Identity mappings in every address space

Which ranges `vmmngr_identMap` maps in every address space that has the frames. A safe range
(`Safe`) starts low in a page, ends in the pages that are counted and has the first page of one
4 MiB region at most, so no table that is created on the way damages an entry that is not
stored again.

For any other range there is an address space in which it goes wrong (`gapSpace`). Every slot
but one has a table there, and the frame for that one is the frame before the table of the
slot before.

For a safe range every effect of the loop is put into its round (`exists_round`), and a round that
installs a table stores the entry of its page behind it (`entry_mem_of_install`). One that is not
safe starts too high in a page, or misses its last page (`not_identMapped_of_missed`), or has the
first pages of two regions (`not_identMapped_of_first_pages`).
-/

open ByteMemory GuardedRun

namespace Scorch

open Pmm

/-! ## Safe ranges -/

/-- The range starts low in a page, ends in the pages that are counted, and has the first page of
one 4 MiB region at most. -/
def ByteRange.Safe (r : ByteRange) : Prop :=
  r.size.toNat = 0 ∨ r.offset < 4 ∧ r.offset + r.size.toNat ≤ r.pages * 4096 ∧
    ∀ p p', r.Touches p → r.Touches p' → p % 1024 = 0 → p' % 1024 = 0 → p = p'

namespace Stock

/-- An effect of the range belongs to a round. -/
theorem exists_round {st : Stock} {q : ℕ} {e : Effect} {es₁ es₂ : List Effect} {n : ℕ}
    (h : st.rangeEffects q n = es₁ ++ e :: es₂) :
    ∃ i < n, ∃ a b, st.pageEffects q q i = a ++ e :: b ∧ b ⊆ es₂ ∧
      (∀ k, i < k → k < n → st.pageEffects q q k ⊆ es₂) ∧
      run after st es₁ = run after (st.afterPages q q i) a := by
  induction n generalizing es₂ with
  | zero =>
    have hlen := congrArg List.length h
    simp [rangeEffects] at hlen
  | succ n ih =>
    rw [rangeEffects_succ, List.append_eq_append_iff] at h
    have hlast : ∀ a b, es₁ = st.rangeEffects q n ++ a → st.pageEffects q q n = a ++ e :: b →
        b ⊆ es₂ → ∃ i < n + 1, ∃ a b, st.pageEffects q q i = a ++ e :: b ∧ b ⊆ es₂ ∧
          (∀ k, i < k → k < n + 1 → st.pageEffects q q k ⊆ es₂) ∧
          run after st es₁ = run after (st.afterPages q q i) a := by
      rintro a b rfl hround hb
      refine ⟨n, Nat.lt_succ_self n, a, b, hround, hb, fun k hk hkn => by omega, ?_⟩
      rw [run_append, run_rangeEffects]
    rcases h with ⟨a, hes, hround⟩ | ⟨c, hrange, hes⟩
    · exact hlast a es₂ hes hround (List.Subset.refl _)
    · cases c with
      | nil =>
        exact hlast [] es₂ (by rw [List.append_nil] at hrange ⊢; exact hrange.symm) hes.symm
          (List.Subset.refl _)
      | cons e' c =>
        obtain ⟨rfl, rfl⟩ := List.cons.inj hes
        obtain ⟨i, hi, a, b, hround, hb, hrest, hrun⟩ := ih hrange
        refine ⟨i, by omega, a, b, hround, List.Subset.trans hb (List.subset_append_left _ _),
          fun k hk hkn => ?_, hrun⟩
        rcases Nat.lt_succ_iff_lt_or_eq.1 hkn with hlt | rfl
        · exact List.Subset.trans (hrest k hk hlt) (List.subset_append_left _ _)
        · exact List.subset_append_right _ _

/-- The entry of the page itself comes behind every table of its round. -/
theorem entry_mem_of_install {st : Stock} {page slot f : ℕ} {value : Word} {a b : List Effect}
    (h : st.mapping page value = a ++ .install slot f :: b) : Effect.entry page value ∈ b := by
  obtain ⟨es, hes⟩ := exists_effects_append st.frames st.table page value
  rw [mapping, hes] at h
  have hlast := congrArg List.getLast? h
  rw [List.getLast?_append_cons, List.getLast?_singleton, List.getLast?_append_cons] at hlast
  cases b with
  | nil => exact absurd (Option.some.inj hlast).symm (Effect.install_ne_entry _ _ _ _)
  | cons e b =>
    rw [List.getLast?_cons_cons] at hlast
    exact List.mem_of_getLast? hlast.symm

/-- A round that installs a table starts without one in the slot of its page. -/
theorem not_isSome_of_install {st : Stock} {page slot f : ℕ} {value : Word} {a b : List Effect}
    (h : st.mapping page value = a ++ .install slot f :: b) :
    ¬(st.table (page / 1024)).isSome := by
  intro hsome
  rw [mapping, effects_of_isSome hsome] at h
  have hmem : Effect.install slot f ∈ [Effect.entry page value] :=
    h ▸ List.mem_append_right a List.mem_cons_self
  exact Effect.install_ne_entry _ _ _ _ (List.mem_singleton.1 hmem)

/-- With one first page at most, no table that is installed later damages an entry of the
range. -/
theorem lasts_rangeEffects {st : Stock} {q n j : ℕ} (hn : q + n ≤ 2 ^ 20) (hsup : st.Supplies q n)
    (hj : j < n) (hone : ∀ i < n, ∀ k < n, (q + i) % 1024 = 0 → (q + k) % 1024 = 0 → i = k) :
    st.Lasts (q + j) (st.rangeEffects q n) := by
  intro es₁ slot f es₂ hsplit hs
  obtain ⟨hfirst, -⟩ := not_not.1 hs
  obtain ⟨i, hi, a, b, hround, hb, hrest, -⟩ := exists_round hsplit
  rw [pageEffects, Nat.mod_eq_of_lt (by omega : q + i < 2 ^ 20)] at hround
  rcases Nat.lt_trichotomy j i with hlt | rfl | hgt
  · -- The region of page `i` is a later one, as that of page `j` has its table.
    refine absurd ?_ (not_isSome_of_install hround)
    have hown := isSome_of_meets_served (hsup j hj)
    rw [Nat.mod_eq_of_lt (by omega : q + j < 2 ^ 20)] at hown
    have hsame : (q + i) / 1024 = (q + j) / 1024 := by
      by_contra hne
      have hsecond := hone j hj ((q + i) / 1024 * 1024 - q) (by omega) hfirst (by omega)
      omega
    rw [hsame]
    refine isSome_afterPages (i := j + 1) hlt ?_
    rw [afterPages, Nat.mod_eq_of_lt (by omega : q + j < 2 ^ 20)]
    exact hown
  · exact ⟨_, hb (entry_mem_of_install hround)⟩
  · exact ⟨_, hrest j hgt hj (st.entry_mem_pageEffects (by omega))⟩

/-! ## One slot without a table -/

/-- At most the slot `g` has no table, and then a frame is there for it. -/
def Short (st : Stock) (g : ℕ) : Prop :=
  (∀ slot < 1024, slot ≠ g → (st.table slot).isSome) ∧
    ((st.table g).isSome ∨ ∃ f rest, st.frames = f :: rest ∧ f < 2 ^ 20)

/-- A mapping that creates the table serves its entries, as the frame is in a slot that has a
table. -/
theorem Short.mapping {st : Stock} {g page : ℕ} (h : st.Short g) (hpage : page < 2 ^ 20)
    (value : Word) :
    Meets after Served st (st.mapping page value) ∧
      (run after st (st.mapping page value)).Short g := by
  by_cases hsome : (st.table (page / 1024)).isSome
  · rw [Stock.mapping, effects_of_isSome hsome]
    exact ⟨⟨hsome, trivial⟩, h⟩
  · obtain ⟨hothers, hg⟩ := h
    have hslot : page / 1024 = g := by
      by_contra hne
      exact hsome (hothers _ (by omega) hne)
    obtain ⟨f, rest, hframes, hf⟩ := hg.resolve_left (hslot ▸ hsome)
    have hnow : ∀ slot < 1024, ((st.after (.install g f)).table slot).isSome := by
      intro slot hlt
      by_cases hslotg : slot = g
      · exact hslotg ▸ isSome_after_install st g f
      · exact isSome_after (hothers slot hlt hslotg) _
    have hself : effects rest (Function.update st.table g (some f)) f (frameEntry f) =
        [.entry f (frameEntry f)] := effects_of_isSome (hnow _ (by omega)) _
    have heffects : st.mapping page value =
        [.install g f, .entry f (frameEntry f), .entry page value] := by
      rw [Stock.mapping, hframes, effects_of_empty hsome, hslot, hself]
      rfl
    rw [heffects]
    refine ⟨⟨trivial, hnow _ (by omega), hnow _ (by omega), trivial⟩,
      fun slot hlt _ => hnow slot hlt, Or.inl ?_⟩
    exact hnow g (by omega)

/-- A stock that is short of one table stays so along the loop. -/
theorem Short.afterPages {st : Stock} {g : ℕ} (h : st.Short g) (q : ℕ) :
    ∀ i, (st.afterPages q q i).Short g
  | 0 => h
  | i + 1 => ((Short.afterPages h q i).mapping (Nat.mod_lt _ (by norm_num)) _).2

/-- Such a stock supplies no range that needs the table. -/
theorem Short.supplies {st : Stock} {g : ℕ} (h : st.Short g) (q n : ℕ) : st.Supplies q n :=
  fun i _ => ((h.afterPages q i).mapping (Nat.mod_lt _ (by norm_num)) _).1

/-- With every table in place a range is entries only. -/
theorem pageEffects_of_full {st : Stock} (h : ∀ slot < 1024, (st.table slot).isSome) (q i : ℕ) :
    st.pageEffects q q i = [.entry ((q + i) % 2 ^ 20) (frameEntry (q + i))] :=
  effects_of_isSome (isSome_afterPages (Nat.zero_le i) (h _ (by omega))) _

theorem rangeEffects_add (st : Stock) (q m n : ℕ) :
    st.rangeEffects q (m + n) =
      st.rangeEffects q m ++ (List.range n).flatMap fun i => st.pageEffects q q (m + i) := by
  rw [rangeEffects, List.range_add, List.flatMap_append, List.flatMap_map, rangeEffects]

section Damage

variable {st : Stock} {q k f : ℕ} (hothers : ∀ slot < 1024, slot ≠ k + 1 → (st.table slot).isSome)

include hothers

/-- The pages before the first of slot `k + 1` take no frame. -/
theorem afterPages_of_le {i : ℕ} (hq : q + i < 2 ^ 20) (hi : q + i ≤ (k + 1) * 1024) :
    st.afterPages q q i = st := by
  induction i with
  | zero => rfl
  | succ i ih =>
    have hsome : (st.table ((q + i) % 2 ^ 20 / 1024)).isSome := hothers _ (by omega) (by omega)
    rw [afterPages, ih (by omega) (by omega), mapping, effects_of_isSome hsome]
    rfl

/-- The frame that goes to slot `k + 1` is the one before that of slot `k`, and nothing stores
the entry of the first page of slot `k` again. -/
theorem not_lasts_rangeEffects {n : ℕ} (hn : q + n ≤ 2 ^ 20) (hk : q ≤ k * 1024)
    (hk' : (k + 1) * 1024 < q + n) (hframes : st.frames = [f]) (hsome : st.table k = some (f + 1))
    (hnone : st.table (k + 1) = none) (hf : f ≠ k * 1024) :
    ¬st.Lasts (k * 1024) (st.rangeEffects q n) := by
  obtain ⟨m, hm⟩ : ∃ m, q + m = (k + 1) * 1024 := ⟨(k + 1) * 1024 - q, by omega⟩
  obtain ⟨rest, rfl⟩ : ∃ rest, n = m + 1 + rest := ⟨n - (m + 1), by omega⟩
  have hstock : st.afterPages q q m = st := afterPages_of_le hothers (by omega) hm.le
  have hpage : (q + m) % 2 ^ 20 / 1024 = k + 1 := by omega
  have hempty : ¬(st.table ((q + m) % 2 ^ 20 / 1024)).isSome := by
    rw [hpage, hnone]
    decide
  obtain ⟨es, hround⟩ : ∃ es, st.pageEffects q q m = .install (k + 1) f :: es := by
    rw [pageEffects, hstock, mapping, hframes, effects_of_empty hempty, hpage]
    exact ⟨_, rfl⟩
  intro hlasts
  rw [rangeEffects_add, rangeEffects_succ, hround, List.append_assoc] at hlasts
  obtain ⟨value, hmem⟩ := hlasts (st.rangeEffects q m) (k + 1) f _ rfl (by
    rw [run_rangeEffects, hstock]
    exact not_not.2 ⟨Nat.mul_mod_left k 1024, by rw [Nat.mul_div_cancel k (by norm_num), hsome]⟩)
  obtain ⟨i, hi, hentry⟩ : ∃ i, m ≤ i ∧ i < m + 1 + rest ∧
      .entry (k * 1024) value ∈ st.pageEffects q q i := by
    rcases List.mem_append.1 hmem with hes | htail
    · exact ⟨m, le_rfl, by omega, hround ▸ List.mem_cons_of_mem _ hes⟩
    · obtain ⟨i, hi, hentry⟩ := List.mem_flatMap.1 htail
      exact ⟨m + 1 + i, by omega, by have := List.mem_range.1 hi; omega, hentry⟩
  rcases entry_mem_effects _ _ hentry.2 with ⟨heq, -⟩ | ⟨hframe, -⟩
  · rw [Nat.mod_eq_of_lt (by omega)] at heq
    omega
  · have hfree := frames_afterPages_subset st q q i hframe
    rw [hframes, List.mem_singleton] at hfree
    exact hf hfree.symm

end Damage

end Stock

/-! ## Address spaces with such a stock -/

namespace Pmm

/-- A manager of 16 MiB with one clear frame. -/
def oneLeft (f : ℕ) : Pmm :=
  { mmapUnset fullPmm (BitVec.ofNat 32 f) with
    mmngrMemorySize := 16384
    mmngrUsedBlocks := 4095
    mmngrMaxBlocks := 4096 }

variable {f g : ℕ} (hf : f < 4096)

include hf

theorem mem_clear_oneLeft : g ∈ (oneLeft f).clear ↔ g = f := by
  have hlimit : frameLimit = 2 ^ 35 := rfl
  have hmax : (oneLeft f).mmngrMaxBlocks.toNat = 4096 := rfl
  have hbit : ∀ g < frameLimit, (oneLeft f).frameUsed g = if g = f then false else true := by
    intro g hg
    have hused := frameUsed_mmapUnset fullPmm (BitVec.ofNat 32 f) g
    rw [bitNumber_ofNat (by omega), Nat.mod_eq_of_lt hg, (mem_used_fullPmm hg).2] at hused
    exact hused
  rw [mem_clear, hmax]
  constructor
  · rintro ⟨hlt, hclear⟩
    rw [hbit g (by omega)] at hclear
    by_contra hne
    rw [if_neg hne] at hclear
    contradiction
  · rintro rfl
    exact ⟨by omega, by rw [hbit g (by omega), if_pos rfl]⟩

theorem mem_clearList_oneLeft : g ∈ (oneLeft f).clearList ↔ g = f := by
  have hlimit : frameLimit = 2 ^ 35 := rfl
  rw [mem_clearList, mem_clear_oneLeft hf]
  exact and_iff_right_of_imp fun heq => by omega

theorem freeList_oneLeft : (oneLeft f).freeList = [f] := by
  have hcount : pmmngrGetFreeBlockCount (oneLeft f) = 1 := by
    show (4096 - 4095 : Word) = 1
    decide
  have hone : (1 : Word).toNat = 1 := rfl
  rw [freeList, hcount, hone]
  cases hlist : (oneLeft f).clearList with
  | nil => exact absurd (hlist ▸ (mem_clearList_oneLeft hf).2 rfl) List.not_mem_nil
  | cons g tail =>
    have hhead : g = f := (mem_clearList_oneLeft hf).1 (hlist ▸ List.mem_cons_self)
    rw [hhead]
    rfl

end Pmm

namespace Vmm

/-- Word `n` of the directory in frame `3000`, in which slot `i` has the table in frame
`2000 - i`. Slot `g` has none, and everything else is clear. -/
def gapWord (g n : ℕ) : Word :=
  if n / 1024 = 3000 ∧ n % 1024 ≠ g then frameEntry (2000 - n % 1024) else 0

/-- The frame that slot `g` leaves out is the last one to be handed out. -/
def gapSpace (g : ℕ) : Vmm where
  pmm := oneLeft (2000 - g)
  mem := Mem.ofWords (gapWord g)
  curDirectory := 0xBB8000
  nullStores := 0

theorem curDirectory_gapSpace (g : ℕ) : (gapSpace g).curDirectory = 0xBB8000 :=
  rfl

section Gap

variable {g : ℕ}

theorem pagedir_gapSpace {i : Word} (hi : i.toNat < 1024) :
    (gapSpace g).pagedir 0xBB8000 i = if i.toNat ≠ g then frameEntry (2000 - i.toNat) else 0 := by
  have haddr : (0xBB8000 + 4 * i : Word).toNat = 4 * (3000 * 1024 + i.toNat) := by bv_omega
  have hload := Mem.load32_ofWords (gapWord g) (a := 0xBB8000 + 4 * i) (by omega)
  have hdiv : (3000 * 1024 + i.toNat) / 1024 = 3000 := by omega
  have hmod : (3000 * 1024 + i.toNat) % 1024 = i.toNat := by omega
  rw [haddr, Nat.mul_div_cancel_left _ (by norm_num), gapWord, hdiv, hmod] at hload
  simp only [true_and] at hload
  exact hload

/-- The tables are in frames of their own. -/
theorem pageOf_pagedir_gapSpace {i : Word} (hi : i.toNat < 1024)
    (hne : (gapSpace g).pagedir 0xBB8000 i ≠ 0) :
    i.toNat ≠ g ∧ pageOf ((gapSpace g).pagedir 0xBB8000 i) = frameAddr (2000 - i.toNat) := by
  rw [pagedir_gapSpace hi] at hne ⊢
  split_ifs at hne ⊢ with h
  · exact ⟨h, pageOf_frameEntry _⟩
  · exact absurd rfl hne

theorem toNat_frameAddr_gap (i : ℕ) : (frameAddr (2000 - i)).toNat = (2000 - i) * 4096 := by
  rw [toNat_frameAddr, Nat.mod_eq_of_lt (by omega)]

/-- The frames of the tables are apart from the one that is left. -/
theorem gapSpace_sound (hg : g ≤ 1024) : (gapSpace g).Sound 0xBB8000 := by
  refine ⟨⟨rfl, fun i hi hne => ?_, fun i j hi hj hne hne' heq => ?_⟩, by decide,
    fun i hi hne => ?_, fun f hf => ?_⟩
  · rw [(pageOf_pagedir_gapSpace hi hne).2]
    have haddr := toNat_frameAddr_gap i.toNat
    bv_omega
  · rw [(pageOf_pagedir_gapSpace hi hne).2, (pageOf_pagedir_gapSpace hj hne').2] at heq
    have hframe := frameAddr_inj (by omega) (by omega) heq
    exact BitVec.toNat_inj.1 (by omega)
  · rw [(pageOf_pagedir_gapSpace hi hne).2]
    have haddr := toNat_frameAddr_gap i.toNat
    bv_omega
  · have hfree : f ∈ (oneLeft (2000 - g)).freeList := hf
    rw [freeList_oneLeft (by omega), List.mem_singleton] at hfree
    subst hfree
    have haddr := toNat_frameAddr_gap g
    refine ⟨by omega, by omega, by bv_omega, by bv_omega, fun i hi hne heq => ?_⟩
    obtain ⟨hig, hpage⟩ := pageOf_pagedir_gapSpace hi hne
    rw [hpage] at heq
    have hframe := frameAddr_inj (by omega) (by omega) heq
    omega

theorem tables_gapSpace {slot : ℕ} (hslot : slot < 1024) :
    (gapSpace g).tables 0xBB8000 slot = if slot ≠ g then some (2000 - slot) else none := by
  have hi : (BitVec.ofNat 32 slot).toNat = slot := toNat_ofNat_of_lt (by omega)
  rw [tables, pagedir_gapSpace (by omega), hi]
  by_cases h : slot ≠ g
  · rw [if_pos h, if_pos h, if_pos ⟨hslot, frameEntry_ne_zero _⟩]
    have hpage := congrArg BitVec.toNat (pageOf_frameEntry (2000 - slot))
    rw [toNat_pageOf, toNat_frameAddr_gap] at hpage
    congr 1
    omega
  · rw [if_neg h, if_neg h, if_neg fun hand => hand.2 rfl]

theorem frames_gapSpace (g : ℕ) : ((gapSpace g).stock 0xBB8000).frames = [2000 - g] := by
  have hpmm : (gapSpace g).pmm = oneLeft (2000 - g) := rfl
  rw [frames_stock, hpmm, freeList_oneLeft (by omega)]

theorem gapSpace_short (hg : g ≤ 1024) : ((gapSpace g).stock 0xBB8000).Short g := by
  refine ⟨fun slot hslot hne => ?_, Or.inr ⟨2000 - g, [], frames_gapSpace g, by omega⟩⟩
  show ((gapSpace g).tables 0xBB8000 slot).isSome
  rw [tables_gapSpace hslot, if_pos hne]
  rfl

/-- No page is mapped. -/
theorem gapSpace_unmapped (v : Word) :
    vmmngrGetPhysicalAddress (gapSpace g) 0xBB8000 v = 0 := by
  by_cases hv : (gapSpace g).pagedir 0xBB8000 (dirIndex v) = 0
  · exact getPhysicalAddress_of_empty hv
  · have hpage := (pageOf_pagedir_gapSpace (dirIndex_lt v) hv).2
    have hslot := dirIndex_lt v
    have hindex := tableIndex_lt v
    have hframe := toNat_frameAddr_gap (dirIndex v).toNat
    have haddr : ((gapSpace g).entryAddr 0xBB8000 v).toNat =
        4 * ((2000 - (dirIndex v).toNat) * 1024 + (tableIndex v).toNat) := by
      rw [entryAddr, hpage]
      bv_omega
    have hload := Mem.load32_ofWords (gapWord g) (a := (gapSpace g).entryAddr 0xBB8000 v) (by omega)
    rw [haddr, Nat.mul_div_cancel_left _ (by norm_num), gapWord, if_neg (by omega)] at hload
    rw [getPhysicalAddress_of_table hv]
    exact hload

end Gap

/-! ## The ranges that go wrong -/

section Ranges

variable (r : ByteRange)

/-- A safe range is mapped wherever its frames last. -/
theorem identMapped_of_safe (hr : r.Safe) {s : Vmm} (h : s.Sound s.curDirectory)
    (hsup : (s.stock s.curDirectory).Supplies r.page r.pages) : s.IdentMapped r := by
  rcases hr with hzero | ⟨hoff, hfit, hone⟩
  · rw [identMapped_iff_pages]
    exact fun p hp => absurd hp.1 (by omega)
  · have hle := r.page_add_pages_le
    have hmissed : ¬r.Missed := fun hm => absurd hm.2 (not_lt.2 hfit)
    refine (h.identMapped_iff_lasts r hsup).2 ⟨fun _ => hoff, fun p hp => ?_⟩
    obtain ⟨j, hj, rfl⟩ := (r.touches_iff.1 hp).resolve_right fun hand => hmissed hand.1
    have hfirst : ∀ i < r.pages, ∀ k < r.pages, (r.page + i) % 1024 = 0 →
        (r.page + k) % 1024 = 0 → i = k := fun i hi k hk hi0 hk0 =>
      Nat.add_left_cancel (hone _ _ (r.touches_of_lt hi) (r.touches_of_lt hk) hi0 hk0)
    exact ⟨Or.inr (Or.inl (Stock.stored_rangeEffects _ hle hj)),
      Stock.lasts_rangeEffects hle hsup hj hfirst⟩

/-- With every table in place a page that is missed stays unmapped. -/
theorem not_identMapped_of_missed (hm : r.Missed) : ¬(gapSpace 1024).IdentMapped r := by
  have hshort := gapSpace_short (g := 1024) le_rfl
  have hfull : ∀ slot < 1024, (((gapSpace 1024).stock 0xBB8000).table slot).isSome :=
    fun slot hlt => hshort.1 slot hlt hlt.ne
  have hp : r.Touches (r.page + r.pages) := r.touches_iff.2 (Or.inr ⟨hm, rfl⟩)
  have hlt := hp.lt
  intro hmap
  have hready : Meets Stock.after Stock.Ready ((gapSpace 1024).stock 0xBB8000)
      (((gapSpace 1024).stock 0xBB8000).rangeEffects r.page r.pages) :=
    Stock.meets_ready_rangeEffects (fun f hf => (gapSpace_sound le_rfl).frames_lt hf) _ _
  obtain ⟨hstart, -⟩ :=
    (((gapSpace_sound le_rfl).identMapped_iff_lasts r (hshort.supplies _ _)).1 hmap).2 _ hp
  rcases hstart with hget | ⟨value, hmem⟩ | hstale
  · exact frameEntry_ne_zero _ (hget.symm.trans (gapSpace_unmapped _))
  · obtain ⟨i, hi, hentry⟩ := List.mem_flatMap.1 hmem
    have hround := List.mem_range.1 hi
    rw [curDirectory_gapSpace, Stock.pageEffects_of_full hfull, List.mem_singleton,
      Effect.entry.injEq] at hentry
    omega
  · exact not_stale_of_isSome hready (hfull _ (by omega)) hstale

/-- The table of slot `k + 1` damages the first entry of slot `k`. -/
theorem not_identMapped_of_first_pages (hm : ¬r.Missed) {k p' : ℕ} (hk : r.Touches (k * 1024))
    (hp' : r.Touches p') (hlt : (k + 1) * 1024 ≤ p') : ¬(gapSpace (k + 1)).IdentMapped r := by
  have hle := r.page_add_pages_le
  obtain ⟨j, hj, rfl⟩ := (r.touches_iff.1 hp').resolve_right fun hand => hm hand.1
  have hshort := gapSpace_short (g := k + 1) (by omega)
  intro hmap
  obtain ⟨-, hlasts⟩ :=
    (((gapSpace_sound (by omega)).identMapped_iff_lasts r (hshort.supplies _ _)).1 hmap).2 _ hk
  refine Stock.not_lasts_rangeEffects hshort.1 hle hk.2.1 ?_ (frames_gapSpace (k + 1)) ?_ ?_ ?_
    hlasts
  · omega
  · refine (tables_gapSpace (by omega)).trans ?_
    rw [if_pos (by omega)]
    congr 1
    omega
  · refine (tables_gapSpace (by omega)).trans ?_
    rw [if_neg (not_not.2 rfl)]
  · omega

/-- For a range that is not safe there is an address space where it is not mapped. -/
theorem exists_not_identMapped (hr : ¬r.Safe) : ∃ g ≤ 1024, ¬(gapSpace g).IdentMapped r := by
  obtain ⟨hpos, hr⟩ := not_or.1 hr
  by_cases hoff : r.offset < 4
  · by_cases hm : r.Missed
    · exact ⟨1024, le_rfl, not_identMapped_of_missed r hm⟩
    · have hfit : r.offset + r.size.toNat ≤ r.pages * 4096 :=
        not_lt.1 fun hlt => hm ⟨Nat.pos_of_ne_zero hpos, hlt⟩
      have hdamage : ∀ p p', r.Touches p → r.Touches p' → p % 1024 = 0 → p' % 1024 = 0 → p < p' →
          ∃ g ≤ 1024, ¬(gapSpace g).IdentMapped r := by
        intro p p' hp hp' hfirst hfirst' hlt
        have hlast := hp'.lt
        have hk : p / 1024 * 1024 = p := Nat.div_mul_cancel (Nat.dvd_of_mod_eq_zero hfirst)
        exact ⟨p / 1024 + 1, by omega,
          not_identMapped_of_first_pages r hm (hk.symm ▸ hp) hp' (by omega)⟩
      by_contra hnone
      refine hr ⟨hoff, hfit, fun p p' hp hp' hfirst hfirst' => ?_⟩
      rcases Nat.lt_trichotomy p p' with hlt | heq | hgt
      · exact absurd (hdamage p p' hp hp' hfirst hfirst' hlt) hnone
      · exact heq
      · exact absurd (hdamage p' p hp' hp hfirst' hfirst hgt) hnone
  · refine ⟨1024, le_rfl, ?_⟩
    exact (gapSpace_sound le_rfl).not_identMapped r ((gapSpace_short le_rfl).supplies _ _)
      (Nat.pos_of_ne_zero hpos) hoff

end Ranges

/-- A page of bytes that starts four bytes into page `5`. -/
def fromFour : ByteRange where
  virt := 0x5004
  size := 0x1000
  fits := by decide

end Vmm

end Scorch
