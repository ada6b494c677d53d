import Scorch.Pool

/-!
# Runs of the allocator

Every run from the boot on whose steps conform keeps the blocks in order (`order_of_conforms`),
and every call of it returns what it is for (`returns_of_conforms`). Blocks that are held have no
byte in common (`held_apart`) and keep their contents (`contents_kept`), and when none is held at
most five ranges of each list stand by (`standby_le`).

Each of the five comes from one lemma about one call (`Ordered.step`, `Ordered.returns`,
`Ordered.kept`) and the induction over runs that meet a condition.
-/

open ByteMemory GuardedRun

namespace Scorch

open Liballoc

/-- The call takes the block at `ptr` from its holder. -/
def PoolCall.Frees (ptr : Word) : PoolCall → Prop
  | .free ptr' => ptr' = ptr
  | .realloc ptr' _ _ => ptr' = ptr
  | _ => False

namespace Pool

variable {n : ℕ} {p : Pool} {c : PoolCall} {cs : List PoolCall} {ptr ptr' size size' x : Word}
variable {L : Layout}

/-- What a call of `malloc` returns : a block that nobody holds, and null only when
`liballoc_alloc` was asked for the pages of the size and returned null. -/
def HandsBlock (p : Pool) (ptr size answer : Word) (asked : Option Word) : Prop :=
  (ptr = 0 → asked = some (pagesFor size) ∧ answer = 0) ∧ (ptr ≠ 0 → p.held ptr = none)

/-- The pages that a call gives to `liballoc_free` are one of the ranges. -/
def GivesBack (ranges : List (ℕ × ℕ)) (released : Option (Word × Word)) : Prop :=
  ∀ a pages, released = some (a, pages) → (a.toNat, 4096 * pages.toNat) ∈ ranges

/-- A call that returns no pages. -/
theorem givesBack_none (ranges : List (ℕ × ℕ)) : GivesBack ranges none := by
  rintro a pages ⟨⟩

/-- What the calls are for. `malloc` hands out a block, `calloc` one with zeros in it, and
`realloc` one with the contents of the block that it frees, as far as they fit. -/
def Returns (n : ℕ) (p : Pool) : PoolCall → Prop
  | .malloc size answer => ∃ run, p.heap.malloc n (fun _ => answer) size = some run ∧
      p.HandsBlock run.ptr size answer run.asked
  | .free ptr => ∃ run, p.heap.free n ptr = some run ∧ GivesBack p.ranges run.released
  | .calloc nobj size answer => ∃ run, p.heap.calloc n (fun _ => answer) nobj size = some run ∧
      run.ptr ≠ 0 ∧ p.held run.ptr = none ∧
      ∀ x ∈ Mem.block run.ptr (nobj * size).toNat, run.state.mem x = 0
  | .realloc ptr size answer => ∃ run, p.heap.realloc n (fun _ => answer) ptr size = some run ∧
      GivesBack (grownRanges (fun _ => answer) p.ranges run.asked) run.released ∧
      (size = 0 → run.ptr = 0) ∧
      (size ≠ 0 → p.HandsBlock run.ptr size answer run.asked) ∧
      ∀ old, p.held ptr = some old → size ≠ 0 → run.ptr ≠ 0 ∧
        ∀ d : Word, d.toNat < min old.toNat size.toNat →
          run.state.mem (run.ptr + d) = p.heap.mem (ptr + d)
  | .store _ _ => True

/-! ## A short run -/

/-- A heap in which nothing stands. -/
def emptyHeap : Liballoc where
  mem _ := 0
  freePages _ := 0
  completePages _ := 0
  initialized := false

/-- A hundred bytes with zeros in them, of which half are then moved to other pages. -/
def halfMoved : List PoolCall :=
  [.calloc 4 25 0x10000, .realloc 0x10020 50 0x30000]

/-- Any range in memory is apart from no ranges. -/
theorem fresh_nil {t pages : Word} (ht : t ≠ 0) (hfits : t.toNat + 4096 * pages.toNat < 2 ^ 32) :
    Fresh [] t pages :=
  ⟨ht, hfits, fun _ hr => absurd hr List.not_mem_nil⟩

theorem meets_halfMoved :
    Meets (step (2 ^ 27 + 1)) (Conforms (2 ^ 27 + 1)) (boot emptyHeap) halfMoved := by
  have hranges : (step (2 ^ 27 + 1) (boot emptyHeap) (.calloc 4 25 0x10000)).ranges =
    [(0x10000, 0x10000)] := by decide +kernel
  refine ⟨⟨⟨by decide, fun _ hne => fresh_nil hne (by decide)⟩, fun _ => by decide⟩,
    ⟨Or.inr rfl, fun _ => ⟨⟨by decide, fun _ _ => ?_⟩, fun _ _ => by decide⟩⟩, trivial⟩
  rw [hranges]
  exact ⟨by decide, by decide, by decide⟩

/-- A hundred bytes. -/
def oneBlock : List PoolCall :=
  [.malloc 100 0x10000]

/-- A run may start with the block of the example. -/
theorem meets_oneBlock (cs : List PoolCall)
    (h : Meets (step (2 ^ 27 + 1)) (Conforms (2 ^ 27 + 1))
      (run (step (2 ^ 27 + 1)) (boot emptyHeap) oneBlock) cs) :
    Meets (step (2 ^ 27 + 1)) (Conforms (2 ^ 27 + 1)) (boot emptyHeap) (oneBlock ++ cs) :=
  ⟨⟨by decide, fun _ hne => fresh_nil hne (by decide)⟩, h⟩

theorem held_oneBlock :
    (run (step (2 ^ 27 + 1)) (boot emptyHeap) oneBlock).held 0x10020 = some 100 :=
  rfl

section Runs

variable (hn : 2 ^ 27 < n) {s : Liballoc}

include hn

/-- Every run whose calls conform keeps the blocks in order. -/
theorem order_of_conforms (h : Meets (step n) (Conforms n) (boot s) cs) :
    ∃ L, Ordered (run (step n) (boot s) cs) L :=
  h.invariant (I := fun p => ∃ L, Ordered p L) (fun _ _ hp hc => hp.elim fun _ hp => hp.step hn hc)
    ⟨noBlocks, ordered_boot s⟩

/-- A block that is held lies in a range, with room for its tag in front of it, and no two have
a byte in common. -/
theorem held_apart (h : Meets (step n) (Conforms n) (boot s) cs) :
    let p := run (step n) (boot s) cs
    (∀ ptr size, p.held ptr = some size → ∃ r ∈ p.ranges, r.1 + 32 ≤ ptr.toNat ∧
      ptr.toNat + size.toNat ≤ r.1 + r.2 ∧ r.1 + r.2 < 2 ^ 32) ∧
    ∀ ptr size ptr' size', p.held ptr = some size → p.held ptr' = some size' → ptr = ptr' ∨
      ptr.toNat + size.toNat + 32 ≤ ptr'.toNat ∨ ptr'.toNat + size'.toNat + 32 ≤ ptr.toNat := by
  obtain ⟨L, hL⟩ := order_of_conforms hn h
  exact ⟨fun ptr size hptr => hL.within hptr, fun ptr size ptr' size' => hL.apart⟩

end Runs

/-- A run with a block cut, freed and taken again. -/
theorem order_of_conforms_halfMoved :
    ∃ L, Ordered (run (step (2 ^ 27 + 1)) (boot emptyHeap) halfMoved) L :=
  order_of_conforms (by decide) meets_halfMoved

theorem held_apart_oneBlock :
    ∃ r ∈ (run (step (2 ^ 27 + 1)) (boot emptyHeap) (oneBlock ++ [])).ranges,
      r.1 + 32 ≤ (0x10020 : Word).toNat ∧ (0x10020 : Word).toNat + (100 : Word).toNat ≤ r.1 + r.2 ∧
        r.1 + r.2 < 2 ^ 32 :=
  (held_apart (by decide) (meets_oneBlock [] (meets_nil _))).1 _ _ held_oneBlock

/-! ## What the calls return -/

section Runs

variable (hn : 2 ^ 27 < n) {s : Liballoc}

include hn

/-- `malloc` returns a block of its own, or null when there is none. -/
theorem Ordered.handsBlock {answer : Word} (h : Ordered p L) (ha : p.Admits n size answer) :
    Returns n p (.malloc size answer) := by
  obtain ⟨run, _, hrun, _, hasked, hcases⟩ := h.malloc hn ha.1 ha.2
  refine ⟨run, hrun, fun hptr => ?_, fun hptr => ?_⟩
  · rcases hcases with ⟨-, hnull, hasks, -⟩ | ⟨hne, -⟩
    · exact ⟨hasked.trans (if_pos hasks), hnull⟩
    · exact absurd hptr hne
  · rcases hcases with ⟨hnull, -⟩ | ⟨-, hnone, -⟩
    · exact absurd hnull hptr
    · exact hnone

/-- The pages that `free` returns are one of the ranges. -/
theorem Ordered.givesBack (h : Ordered p L) (hptr : ptr = 0 ∨ (p.held ptr).isSome) :
    Returns n p (.free ptr) := by
  rcases hptr with rfl | hptr
  · exact ⟨⟨p.heap, none⟩, rfl, givesBack_none _⟩
  · obtain ⟨size, hsize⟩ := Option.isSome_iff_exists.1 hptr
    obtain ⟨run, -, hrun, -, hreleased, -⟩ := h.free hn hsize
    exact ⟨run, hrun, hreleased⟩

/-- Every conforming call returns what it should, one case for each function. -/
theorem Ordered.returns (h : Ordered p L) (hc : Conforms n p c) : Returns n p c := by
  cases c with
  | malloc size answer => exact h.handsBlock hn hc
  | free ptr => exact h.givesBack hn hc
  | calloc nobj size answer =>
    obtain ⟨run, -, hrun, -, hne, hnone, hzero, -⟩ := h.calloc hn hc.1 hc.2
    exact ⟨run, hrun, hne, hnone, hzero⟩
  | realloc ptr size answer =>
    by_cases hsize : size = 0
    · subst hsize
      obtain ⟨f, hf, hback⟩ := h.givesBack hn hc.1
      refine ⟨⟨0, f.state, none, f.released⟩, ?_, hback, fun _ => rfl, fun hne => absurd rfl hne,
        fun _ _ hne => absurd rfl hne⟩
      rw [Liballoc.realloc, if_pos rfl, hf, Option.map_some]
    · obtain ⟨ha, hanswer⟩ := hc.2 hsize
      rcases hc.1 with rfl | hptr
      · obtain ⟨r, hr, hout⟩ := h.handsBlock hn ha
        refine ⟨⟨r.ptr, r.state, r.asked, none⟩, ?_, givesBack_none _,
          fun heq => absurd heq hsize, fun _ => hout, fun old hold => ?_⟩
        · rw [Liballoc.realloc, if_neg hsize, if_pos rfl, hr, Option.map_some]
        · exact absurd rfl (h.ne_zero hold)
      · obtain ⟨size₀, hsize₀⟩ := Option.isSome_iff_exists.1 hptr
        obtain ⟨run, -, hrun, -, hne, hnone, hcopy, hback, -⟩ :=
          h.realloc hn hsize₀ hsize ha (hanswer (h.ne_zero hsize₀))
        refine ⟨run, hrun, hback, fun heq => absurd heq hsize,
          fun _ => ⟨fun heq => absurd heq hne, fun _ => hnone⟩, fun old hold _ => ⟨hne, ?_⟩⟩
        obtain rfl := Option.some.inj (hsize₀.symm.trans hold)
        exact hcopy
  | store a b => trivial

/-- Every call of a run that conforms returns. -/
theorem returns_of_conforms (h : Meets (step n) (Conforms n) (boot s) cs) :
    Meets (step n) (Returns n) (boot s) cs :=
  h.imp (I := fun p => ∃ L, Ordered p L) (fun _ _ hp hc => hp.elim fun _ hp => hp.step hn hc)
    (fun _ _ hp hc => hp.elim fun _ hp => hp.returns hn hc) ⟨noBlocks, ordered_boot s⟩

end Runs

theorem returns_of_conforms_halfMoved :
    Meets (step (2 ^ 27 + 1)) (Returns (2 ^ 27 + 1)) (boot emptyHeap) halfMoved :=
  returns_of_conforms (by decide) meets_halfMoved

/-! ## Contents -/

section Runs

variable (hn : 2 ^ 27 < n) {s : Liballoc}

include hn

/-- A call keeps a block that it does not free, and every byte of it that it does not write. -/
theorem Ordered.kept (h : Ordered p L) (hc : Conforms n p c) (hptr : p.held ptr = some size)
    (hfree : ¬c.Frees ptr) : (p.step n c).held ptr = some size ∧
      ∀ x ∈ Mem.block ptr size.toNat, (∀ b, c ≠ .store x b) →
        (p.step n c).heap.mem x = p.heap.mem x := by
  have hkeeps : Keeps p (p.step n c) ptr size → (p.step n c).held ptr = some size ∧
      ∀ x ∈ Mem.block ptr size.toNat, (∀ b, c ≠ .store x b) →
        (p.step n c).heap.mem x = p.heap.mem x :=
    fun hk => ⟨hk.1, fun x hx _ => hk.2 x hx⟩
  -- A `free` of another block keeps this one.
  have hfreed : ∀ ptr', ptr' ≠ ptr → ptr' = 0 ∨ (p.held ptr').isSome →
      Keeps p (p.step n (.free ptr')) ptr size := by
    rintro ptr' hne (rfl | hptr')
    · rw [h.step_free_zero]
      exact ⟨hptr, fun _ _ => rfl⟩
    · obtain ⟨size', hsize'⟩ := Option.isSome_iff_exists.1 hptr'
      exact h.keeps_free hn hsize' hptr hne.symm
  -- One case for each function. `realloc` frees its own block only.
  cases c with
  | malloc size' answer => exact hkeeps (h.keeps_malloc hn hc hptr)
  | free ptr' => exact hkeeps (hfreed ptr' hfree hc)
  | calloc nobj size' answer =>
    obtain ⟨_, -, -, -, -, -, -, hkeep⟩ := h.calloc hn hc.1 hc.2
    exact hkeeps (hkeep ptr size hptr)
  | realloc ptr' size' answer =>
    by_cases hsize : size' = 0
    · subst hsize
      rw [step_realloc_zero] at hkeeps ⊢
      exact hkeeps (hfreed ptr' hfree hc.1)
    · obtain ⟨ha, hanswer⟩ := hc.2 hsize
      rcases hc.1 with rfl | hptr'
      · obtain ⟨_, _, -, h', -⟩ := h.malloc hn ha.1 ha.2
        rw [step_realloc_null hsize h'.held_zero] at hkeeps ⊢
        exact hkeeps (h.keeps_malloc hn ha hptr)
      · obtain ⟨size₀, hsize₀⟩ := Option.isSome_iff_exists.1 hptr'
        obtain ⟨_, -, -, -, -, -, -, -, hkeep⟩ :=
          h.realloc hn hsize₀ hsize ha (hanswer (h.ne_zero hsize₀))
        exact hkeeps (hkeep ptr size hptr fun heq => hfree heq.symm)
  | store a b =>
    exact ⟨hptr, fun x _ hne => if_neg fun hxa : x = a => hne b (hxa ▸ rfl)⟩

/-- A block that is not freed stays held, and what is not written to it stays as it is, whatever
else is allocated and freed. -/
theorem contents_kept {cs' : List PoolCall}
    (h : Meets (step n) (Conforms n) (boot s) (cs ++ cs'))
    (hptr : (run (step n) (boot s) cs).held ptr = some size) (hfree : ∀ c ∈ cs', ¬c.Frees ptr) :
    let p := run (step n) (boot s) cs
    let p' := run (step n) p cs'
    p'.held ptr = some size ∧ ∀ x ∈ Mem.block ptr size.toNat, (∀ b, .store x b ∉ cs') →
      p'.heap.mem x = p.heap.mem x := by
  obtain ⟨hcs, hcs'⟩ := (meets_append _ cs cs').1 h
  obtain ⟨L, hL⟩ := order_of_conforms hn hcs
  clear h hcs
  generalize run (step n) (boot s) cs = p at *
  dsimp only
  induction cs' generalizing p L with
  | nil => exact ⟨hptr, fun _ _ _ => rfl⟩
  | cons c cs' ih =>
    obtain ⟨L', hL'⟩ := hL.step hn hcs'.1
    have hkept := hL.kept hn hcs'.1 hptr (hfree c List.mem_cons_self)
    obtain ⟨hheld, hmem⟩ := ih (fun c' hc' => hfree c' (List.mem_cons_of_mem c hc')) L'
      (p.step n c) hkept.1 hcs'.2 hL'
    refine ⟨hheld, fun x hx hstore => ?_⟩
    have hrest := hmem x hx fun b hb => hstore b (List.mem_cons_of_mem c hb)
    exact hrest.trans (hkept.2 x hx fun b hc => hstore b (hc ▸ List.mem_cons_self))

end Runs

/-- A byte is written to the block. -/
theorem contents_kept_oneBlock :
    (run (step (2 ^ 27 + 1)) (run (step (2 ^ 27 + 1)) (boot emptyHeap) oneBlock)
      [.store 0x10022 7]).heap.mem 0x10021 =
        (run (step (2 ^ 27 + 1)) (boot emptyHeap) oneBlock).heap.mem 0x10021 :=
  (contents_kept (by decide) (meets_oneBlock [.store 0x10022 7]
      ⟨Or.inl ⟨0x10020, 100, held_oneBlock, by rw [Mem.mem_block]; decide⟩, trivial⟩)
    held_oneBlock (by simp [PoolCall.Frees])).2 0x10021 (by rw [Mem.mem_block]; decide) (by simp)

/-! ## Ranges that stand by -/

section Runs

variable (hn : 2 ^ 27 < n) {s : Liballoc}

include hn

/-- When no block is held, at most five ranges of each list are kept. -/
theorem standby_le (h : Meets (step n) (Conforms n) (boot s) cs)
    (hheld : ∀ ptr, (run (step n) (boot s) cs).held ptr = none) (k : ℕ) :
    ((run (step n) (boot s) cs).ranges.countP fun r => classOf (r.2 - 32) = k) ≤ 5 := by
  obtain ⟨L, hL⟩ := order_of_conforms hn h
  generalize run (step n) (boot s) cs = p at *
  have hfree : ∀ t, L.Has t → p.heap.initArrays.get t .index ≠ -1 := fun t ht hindex => by
    have hsome := (hL.held (t + 32) _).2 ⟨t, rfl, ht, hL.order.wf.ne_zero ht, hindex, rfl⟩
    simp [hheld] at hsome
  have hone : ∀ r ∈ L.ranges, ∃ t, L.tags r.1 = [t] ∧ p.heap.initArrays.whole t ∧
      t ∈ L.lists (classOf (r.2 - 32)) := fun r hr =>
    hL.order.whole_of_free hr fun t ht => hfree t ⟨r, hr, ht⟩
  rw [← hL.ranges, List.countP_eq_length_filter]
  -- a range of list `k` goes to its tag
  have hnodup : ((L.ranges.filter fun r => classOf (r.2 - 32) = k).map
      fun r => (L.tags r.1).headD 0).Nodup := by
    refine List.Nodup.map_on (fun r hr r' hr' heq => ?_) (hL.order.wf.distinct.filter _)
    obtain ⟨t, htags, -⟩ := hone r (List.mem_of_mem_filter hr)
    obtain ⟨t', htags', -⟩ := hone r' (List.mem_of_mem_filter hr')
    rw [htags, htags'] at heq
    refine hL.order.wf.range_unique (t := t) (List.mem_of_mem_filter hr) ?_
      (List.mem_of_mem_filter hr') ?_
    · rw [htags]
      exact List.mem_singleton_self t
    · rw [htags']
      exact List.mem_singleton.2 heq
  have hsub : ((L.ranges.filter fun r => classOf (r.2 - 32) = k).map
      fun r => (L.tags r.1).headD 0) ⊆ (L.lists k).filter p.heap.initArrays.whole := by
    intro x hx
    obtain ⟨r, hr, rfl⟩ := List.mem_map.1 hx
    obtain ⟨hr, hk⟩ := List.mem_filter.1 hr
    obtain ⟨t, htags, hwhole, ht⟩ := hone r hr
    rw [of_decide_eq_true hk] at ht
    rw [htags]
    exact List.mem_filter.2 ⟨ht, hwhole⟩
  have hle := (List.subperm_of_subset hnodup hsub).length_le
  rw [List.length_map] at hle
  refine hle.trans ?_
  rw [← List.countP_eq_length_filter]
  exact hL.order.count_le k

end Runs

theorem held_none_oneBlock (ptr : Word) :
    (run (step (2 ^ 27 + 1)) (boot emptyHeap) (oneBlock ++ [.free 0x10020])).held ptr = none := by
  have hheld : (run (step (2 ^ 27 + 1)) (boot emptyHeap) (oneBlock ++ [.free 0x10020])).held =
      Function.update (Function.update (fun _ => none) 0x10020 (some 100)) 0x10020 none := rfl
  rw [hheld, Function.update_idem, Function.update_eq_self_iff.2 rfl]

/-- The range of 16 pages stands by in list `15`. -/
theorem standby_le_oneBlock :
    ((run (step (2 ^ 27 + 1)) (boot emptyHeap) (oneBlock ++ [.free 0x10020])).ranges.countP
      fun r => classOf (r.2 - 32) = 15) ≤ 5 :=
  standby_le (by decide) (meets_oneBlock [.free 0x10020] ⟨Or.inr rfl, trivial⟩)
    held_none_oneBlock 15

end Pool

end Scorch
