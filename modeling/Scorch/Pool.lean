import Scorch.BlockSupply
import Scorch.Lib.GuardedRun

/-!
# The allocator and its callers

A pool is the allocator with the ranges that `liballoc_alloc` has returned and the blocks that
its callers hold. A step of it is a call of `malloc`, `free`, `calloc` or `realloc`, or a write
to memory. It `Conforms` when it asks for fewer than `2^32 - 32` bytes, when `liballoc_alloc`
answers it with null or with pages that are held by nobody, when it frees a block that is held,
and when a write goes to a block that is held or to none of the ranges. As `calloc` and `realloc`
do not look at what `malloc` returns, they must not be answered with null.

The blocks of a pool are `Ordered`, and what a call does to the pool is stated for every ordered
pool (`Ordered.malloc`, `Ordered.free`, `Ordered.calloc`, `Ordered.realloc`).

Each call keeps the order (`Ordered.step`), since it is a sequence of the steps of the two modules
before : `calloc` is `malloc` and a write, and `realloc` is `malloc`, a copy to a block that does
not overlap, and `free`.
-/

open ByteMemory GuardedRun

namespace Scorch

namespace Liballoc

variable {s s' : Liballoc} {L : Layout} {t u size : Word} {n : ℕ}

/-! ## What holds a block -/

/-- The order is in the tags. -/
theorem Orderly.congr (h : Orderly s L t) (hget : ∀ u, L.Has u → ∀ g, s'.get u g = s.get u g)
    (hfree : s'.freePages = s.freePages) (hpages : s'.completePages = s.completePages) :
    Orderly s' L t ∧ ∀ u m, InUse s' L t u m ↔ InUse s L t u m := by
  have hwhole : ∀ k, (L.lists k).countP s'.whole = (L.lists k).countP s.whole := fun k =>
    List.countP_congr fun u hu => by
      have hu' := h.wf.has_of_mem hu
      unfold whole
      rw [hget u hu', hget u hu']
  refine ⟨⟨h.wf.congr hfree fun u hu g _ => hget u hu g, fun k u hu => ?_, fun r hr => ?_,
    fun k => ?_, fun k hk8 hk => ?_, fun u hu hut hindex => ?_⟩, fun u m => ?_⟩
  · rw [real_congr (hget u (h.wf.has_of_mem hu) _)]
    exact h.sorted k u hu
  · exact (h.parted r hr).mono fun u hu hindex => (hget u ⟨r, hr, hu⟩ _).trans hindex
  · exact (hwhole k).trans_le (h.count_le k)
  · rw [hpages, hwhole]
    exact h.counted k hk8 hk
  · rw [hget u hu] at hindex ⊢
    rw [real_congr (hget u hu _)]
    exact h.room u hu hut hindex
  · constructor
    · rintro ⟨hu, hut, hindex, hsize⟩
      exact ⟨hu, hut, (hget u hu _).symm.trans hindex, (hget u hu _).symm.trans hsize⟩
    · rintro ⟨hu, hut, hindex, hsize⟩
      exact ⟨hu, hut, (hget u hu _).trans hindex, (hget u hu _).trans hsize⟩

/-- A write that meets no tag keeps the order. -/
theorem Orderly.setMem {S : Set Word} {m : Mem} (h : Orderly s L t) (hframe : Mem.Frame S s.mem m)
    (hS : ∀ x ∈ headers L.all, x ∉ S) :
    Orderly (s.setMem m) L t ∧ ∀ u n, InUse (s.setMem m) L t u n ↔ InUse s L t u n :=
  h.congr (fun u hu g => Mem.field_congr (h.wf.separate.fits u hu) g.place_lt
    fun x hx => hframe x (hS x ⟨u, hu, hx⟩)) rfl rfl

/-- A block that is handed out lies in its range, behind its tag. -/
theorem Orderly.payload (h : Orderly s L 0) (hu : InUse s L 0 t size) :
    ∃ r ∈ L.ranges, r.1 ≤ t.toNat ∧ (t + 32).toNat = t.toNat + 32 ∧
      t.toNat + 32 + size.toNat ≤ t.toNat + s.real t ∧ t.toNat + s.real t ≤ r.1 + r.2 ∧
      r.1 + r.2 < 2 ^ 32 := by
  have hroom := h.room t hu.has hu.ne hu.index
  have hnat := (h.wf.toNat_payload hu.has).1
  rw [hu.size] at hroom
  obtain ⟨r, hr, htr⟩ := hu.has
  have hbounds := h.wf.bounds hr htr
  exact ⟨r, hr, hbounds.2.1, hnat, by omega, hbounds.2.2.1, hbounds.2.2.2⟩

/-- No byte of a block that is handed out is in a tag. -/
theorem Orderly.notMem_headers (h : Orderly s L 0) (hu : InUse s L 0 t size) {x : Word}
    (hx : x ∈ Mem.block (t + 32) size.toNat) : x ∉ headers L.all := by
  obtain ⟨r, hr, hlow, hnat, hroom, hhigh, hend⟩ := h.payload hu
  rw [Mem.mem_block_iff (by omega)] at hx
  rintro ⟨v, hv, hxv⟩
  have hheader := h.wf.header v hv
  have hfits := h.wf.separate.fits v hv
  unfold Mem.RecordFits at hfits
  rw [Mem.mem_block_iff (by omega)] at hxv
  rcases h.wf.eq_or_apart hu.has hv with rfl | hapart <;> omega

/-- The tags lie in the ranges. -/
theorem Wf.notMem_headers (h : Wf s L) {x : Word}
    (hx : ∀ r ∈ L.ranges, x.toNat < r.1 ∨ r.1 + r.2 ≤ x.toNat) : x ∉ headers L.all := by
  rintro ⟨v, hv, hxv⟩
  have hheader := h.header v hv
  have hfits := h.separate.fits v hv
  unfold Mem.RecordFits at hfits
  rw [Mem.mem_block_iff (by omega)] at hxv
  obtain ⟨r, hr, hvr⟩ := hv
  have hbounds := h.bounds hr hvr
  have hout := hx r hr
  omega

/-- A range without a block that is handed out is one free block. -/
theorem Orderly.whole_of_free {r : ℕ × ℕ} (h : Orderly s L 0)
    (hr : r ∈ L.ranges) (hfree : ∀ t ∈ L.tags r.1, s.get t .index ≠ -1) :
    ∃ t, L.tags r.1 = [t] ∧ s.whole t ∧ t ∈ L.lists (classOf (r.2 - 32)) := by
  obtain ⟨n, hn, hlen⟩ := (h.wf.range r hr).pages
  have htiles := (h.wf.range r hr).tiles
  have hparted := h.parted r hr
  obtain ⟨t, htags⟩ : ∃ t, L.tags r.1 = [t] := by
    rcases heq : L.tags r.1 with - | ⟨a, - | ⟨b, l⟩⟩
    · rw [heq] at htiles
      have hempty : r.1 = r.1 + r.2 := htiles
      omega
    · exact ⟨a, rfl⟩
    · rw [heq] at hparted hfree
      rcases (List.isChain_cons_cons.1 hparted).1 with ha | hb
      · exact absurd ha (hfree a (by simp))
      · exact absurd hb (hfree b (by simp))
  have ht : t ∈ L.tags r.1 := by simp [htags]
  refine ⟨t, htags, (h.wf.whole_iff hr ht).2 htags, ?_⟩
  obtain ⟨k, hk⟩ := (h.wf.index t ⟨r, hr, ht⟩).resolve_left fun hused => hfree t ht hused.1
  rw [htags] at htiles
  have hend : r.1 + s.real t = r.1 + r.2 := htiles.2
  have hsorted := h.sorted k t hk
  rw [show s.real t = r.2 by omega] at hsorted
  rwa [hsorted]

/-- The arrays do not depend on the memory. -/
theorem initArrays_setMem (s : Liballoc) (m : Mem) :
    (s.setMem m).initArrays = s.initArrays.setMem m := by
  unfold initArrays setMem
  split_ifs <;> rfl

/-- `calloc` is `malloc`, and the block is cleared. -/
theorem calloc_of_malloc {alloc : Word → Word} {nobj : Word} {r : MallocRun}
    (h : s.malloc n alloc (nobj * size) = some r) : s.calloc n alloc nobj size =
      some { r with state := r.state.setMem (r.state.mem.fill r.ptr 0 (nobj * size).toNat) } := by
  rw [calloc, h, Option.map_some]

/-- The bytes that `realloc` copies. -/
def keptSize (s : Liballoc) (ptr size : Word) : Word :=
  if s.get (ptr - 32) .size > size then size else s.get (ptr - 32) .size

/-- The memory between the calls of `malloc` and `free` in `realloc`. -/
def copied (s : Liballoc) (r : MallocRun) (ptr size : Word) : Mem :=
  liballocMemcpy r.state.mem r.ptr ptr (s.keptSize ptr size).toNat

/-- `realloc` is `malloc`, a copy, and `free` of the old block. -/
theorem realloc_of_malloc_free {alloc : Word → Word} {ptr : Word} {r : MallocRun} {f : FreeRun}
    (hsize : size ≠ 0) (hptr : ptr ≠ 0) (hmalloc : s.malloc n alloc size = some r)
    (hfree : (r.state.setMem (s.copied r ptr size)).free n ptr = some f) :
    s.realloc n alloc ptr size = some ⟨r.ptr, f.state, r.asked, f.released⟩ := by
  rw [realloc, if_neg hsize, if_neg hptr]
  dsimp only
  rw [hmalloc, Option.bind_some]
  exact congrArg (Option.map _) hfree

/-- Each byte after a copy between blocks that do not overlap. -/
theorem liballocMemcpy_apply {m : Mem} {dst src : Word} {k : ℕ} (hk : k < 2 ^ 32)
    (h : ∀ x ∈ Mem.block src k, x ∉ Mem.block dst k) (x : Word) :
    liballocMemcpy m dst src k x = if (x - dst).toNat < k then m (src + (x - dst)) else m x := by
  have hdiv : 4 * (k / 4) + k % 4 = k := Nat.div_add_mod k 4
  have hnat : (BitVec.ofNat 32 (4 * (k / 4))).toNat = 4 * (k / 4) := toNat_ofNat_of_lt (by omega)
  refine (Mem.copyWords_copyBytes_apply hnat (by omega) ?_ x).trans ?_
  · rwa [hdiv]
  · rw [hdiv]

end Liballoc

open Liballoc

/-! ## Calls -/

/-- The allocator, the ranges that it has, and the sizes of the blocks that are held. -/
structure Pool where
  heap : Liballoc
  ranges : List (ℕ × ℕ)
  held : Word → Option Word

/-- A call, with what `liballoc_alloc` answers if it is asked, and a write to memory. -/
inductive PoolCall where
  | malloc (size answer : Word)
  | free (ptr : Word)
  | calloc (nobj size answer : Word)
  | realloc (ptr size answer : Word)
  | store (a : Word) (b : Byte)

namespace Pool

variable {n : ℕ} {p : Pool} {c : PoolCall} {cs : List PoolCall} {ptr ptr' size size' x : Word}

/-- The pool with another memory. -/
def setMem (p : Pool) (m : Mem) : Pool :=
  { p with heap := p.heap.setMem m }

/-- What a call does, where the loops may go on for `n` rounds. -/
def step (n : ℕ) (p : Pool) : PoolCall → Pool
  | .malloc size answer =>
    match p.heap.malloc n (fun _ => answer) size with
    | none => p
    | some run =>
      { heap := run.state
        ranges := grownRanges (fun _ => answer) p.ranges run.asked
        held := if run.ptr = 0 then p.held else Function.update p.held run.ptr (some size) }
  | .free ptr =>
    match p.heap.free n ptr with
    | none => p
    | some run =>
      { heap := run.state
        ranges := leftRanges p.ranges run.released
        held := Function.update p.held ptr none }
  | .calloc nobj size answer =>
    match p.heap.calloc n (fun _ => answer) nobj size with
    | none => p
    | some run =>
      { heap := run.state
        ranges := grownRanges (fun _ => answer) p.ranges run.asked
        held :=
          if run.ptr = 0 then p.held
          else Function.update p.held run.ptr (some (nobj * size)) }
  | .realloc ptr size answer =>
    match p.heap.realloc n (fun _ => answer) ptr size with
    | none => p
    | some run =>
      { heap := run.state
        ranges := leftRanges (grownRanges (fun _ => answer) p.ranges run.asked) run.released
        held :=
          let held := if run.ptr = 0 then p.held else Function.update p.held run.ptr (some size)
          Function.update held ptr none }
  | .store a b => p.setMem (p.heap.mem.store8 a b)

theorem step_malloc {answer : Word} {r : MallocRun}
    (h : p.heap.malloc n (fun _ => answer) size = some r) : p.step n (.malloc size answer) =
      ⟨r.state, grownRanges (fun _ => answer) p.ranges r.asked,
        if r.ptr = 0 then p.held else Function.update p.held r.ptr (some size)⟩ := by
  simp only [step, h]

theorem step_free {r : FreeRun} (h : p.heap.free n ptr = some r) : p.step n (.free ptr) =
    ⟨r.state, leftRanges p.ranges r.released, Function.update p.held ptr none⟩ := by
  simp only [step, h]

/-- `calloc` is `malloc` and clearing. -/
theorem step_calloc {nobj answer : Word} {r : MallocRun}
    (h : p.heap.malloc n (fun _ => answer) (nobj * size) = some r) :
    p.step n (.calloc nobj size answer) = (p.step n (.malloc (nobj * size) answer)).setMem
      (r.state.mem.fill r.ptr 0 (nobj * size).toNat) := by
  simp only [step, h, calloc_of_malloc h]
  rfl

/-- `realloc` is `malloc`, copying and `free`. -/
theorem step_realloc {answer : Word} {r : MallocRun} {f : FreeRun} (hsize : size ≠ 0)
    (hptr : ptr ≠ 0) (hmalloc : p.heap.malloc n (fun _ => answer) size = some r)
    (hfree : (r.state.setMem (p.heap.copied r ptr size)).free n ptr = some f) :
    p.step n (.realloc ptr size answer) =
      ((p.step n (.malloc size answer)).setMem (p.heap.copied r ptr size)).step n (.free ptr) := by
  have hrealloc := realloc_of_malloc_free hsize hptr hmalloc hfree
  rw [step_malloc hmalloc]
  simp only [step, hrealloc, setMem, hfree]

theorem step_realloc_zero (ptr answer : Word) :
    p.step n (.realloc ptr 0 answer) = p.step n (.free ptr) := by
  simp only [step, realloc]
  cases p.heap.free n ptr <;> rfl

/-- `realloc` of the null pointer is `malloc`. -/
theorem step_realloc_null {answer : Word} (hsize : size ≠ 0)
    (hheld : (p.step n (.malloc size answer)).held 0 = none) :
    p.step n (.realloc 0 size answer) = p.step n (.malloc size answer) := by
  cases hrun : p.heap.malloc n (fun _ => answer) size with
  | none => simp only [step, realloc, if_neg hsize, hrun, reduceIte, Option.map_none]
  | some r =>
    rw [step_malloc hrun] at hheld ⊢
    have hrealloc : p.heap.realloc n (fun _ => answer) 0 size =
        some ⟨r.ptr, r.state, r.asked, none⟩ := by
      rw [realloc, if_neg hsize, if_pos rfl, hrun, Option.map_some]
    simp only [step, hrealloc]
    rw [Function.update_eq_self_iff.2 (by exact hheld.symm)]
    rfl

/-- A call of `malloc` is for a size that can be rounded, and `liballoc_alloc` answers it with
null or with fresh pages if it is asked. -/
def Admits (n : ℕ) (p : Pool) (size answer : Word) : Prop :=
  size.toNat + 32 < 2 ^ 32 ∧
    (Asks n p.heap size → answer ≠ 0 → Fresh p.ranges answer (pagesFor size))

/-- The callers keep to the rules. -/
def Conforms (n : ℕ) (p : Pool) : PoolCall → Prop
  | .malloc size answer => p.Admits n size answer
  | .free ptr => ptr = 0 ∨ (p.held ptr).isSome
  | .calloc nobj size answer =>
    p.Admits n (nobj * size) answer ∧ (Asks n p.heap (nobj * size) → answer ≠ 0)
  | .realloc ptr size answer => (ptr = 0 ∨ (p.held ptr).isSome) ∧
      (size ≠ 0 → p.Admits n size answer ∧ (ptr ≠ 0 → Asks n p.heap size → answer ≠ 0))
  | .store a _ => (∃ ptr size, p.held ptr = some size ∧ a ∈ Mem.block ptr size.toNat) ∨
      ∀ r ∈ p.ranges, a.toNat < r.1 ∨ r.1 + r.2 ≤ a.toNat

/-- Nothing has been allocated. -/
def boot (s : Liballoc) : Pool where
  heap := { s with initialized := false }
  ranges := []
  held := fun _ => none

/-- The blocks are in order, and those that are held are handed out. -/
structure Ordered (p : Pool) (L : Layout) : Prop where
  order : Orderly p.heap.initArrays L 0
  ranges : L.ranges = p.ranges
  held : ∀ ptr size, p.held ptr = some size ↔
    ∃ t, ptr = t + 32 ∧ InUse p.heap.initArrays L 0 t size
  cleared : p.heap.initialized = true ∨ p.ranges = []

/-! ## The order along a run -/

/-- No range, no tag, and nothing in a list. -/
def noBlocks : Layout where
  ranges := []
  tags := fun _ => []
  lists := fun _ => []

theorem ordered_boot (s : Liballoc) : Ordered (boot s) noBlocks := by
  have hnone : ∀ u, ¬noBlocks.Has u := fun u ⟨r, hr, _⟩ => List.not_mem_nil hr
  refine ⟨⟨⟨fun r hr => absurd hr List.not_mem_nil, List.nodup_nil,
    fun r hr => absurd hr List.not_mem_nil, fun t ht => absurd ht (hnone t),
    fun t ht => absurd ht (hnone t), fun k _ hk => if_pos hk, fun k => trivial,
    fun k => List.nodup_nil, fun k t ht => absurd ht List.not_mem_nil,
    fun t ht => absurd ht (hnone t)⟩, fun k u hu => absurd hu List.not_mem_nil,
    fun r hr => absurd hr List.not_mem_nil, fun k => Nat.zero_le 5, fun k _ hk => if_pos hk,
    fun u hu => absurd hu (hnone u)⟩, rfl, fun ptr size => ?_, Or.inr rfl⟩
  refine iff_of_false (by simp [boot]) ?_
  rintro ⟨t, -, ht⟩
  exact hnone t ht.has

/-- Once a block is held the arrays have been set up. -/
theorem Ordered.initArrays (h : Ordered p L) (hptr : p.held ptr = some size) :
    p.heap.initArrays = p.heap := by
  obtain ⟨t, -, ht⟩ := (h.held ptr size).1 hptr
  obtain ⟨r, hr, -⟩ := ht.has
  rcases h.cleared with hinit | hnone
  · exact initArrays_of_initialized hinit
  · rw [h.ranges, hnone] at hr
    exact absurd hr List.not_mem_nil

theorem Ordered.held_zero (h : Ordered p L) : p.held 0 = none := by
  rw [Option.eq_none_iff_forall_ne_some]
  intro size hsize
  obtain ⟨t, ht0, ht⟩ := (h.held 0 size).1 hsize
  exact (h.order.wf.toNat_payload ht.has).2.1 ht0.symm

theorem Ordered.ne_zero (h : Ordered p L) (hptr : p.held ptr = some size) : ptr ≠ 0 := by
  rintro rfl
  exact absurd (h.held_zero.symm.trans hptr) (by simp)

/-- A block that is held is freed. -/
theorem Ordered.free (hn : 2 ^ 27 < n) (h : Ordered p L) (hptr : p.held ptr = some size) :
    ∃ run L', p.heap.free n ptr = some run ∧ Ordered (p.step n (.free ptr)) L' ∧
      (∀ a pages, run.released = some (a, pages) → (a.toNat, 4096 * pages.toNat) ∈ p.ranges) ∧
      Mem.Frame (headers L.all) p.heap.mem run.state.mem := by
  have hinit := h.initArrays hptr
  obtain ⟨t, rfl, ht⟩ := (h.held ptr size).1 hptr
  have horder := h.order
  rw [hinit] at horder ht
  obtain ⟨run, L', hrun, h', hranges, hreleased, hinUse, hframe, hinit'⟩ := horder.free ht hn
  have hinit_run : run.state.initialized = true := by
    rw [hinit', ← hinit]
    exact initialized_initArrays _
  refine ⟨run, L', hrun, ?_, fun a pages heq => h.ranges ▸ hreleased a pages heq, hframe⟩
  rw [step_free hrun]
  refine ⟨?_, hranges.trans (by rw [h.ranges]), fun ptr' size' => ?_, Or.inl hinit_run⟩
  · rwa [initArrays_of_initialized hinit_run]
  · rw [initArrays_of_initialized hinit_run]
    simp only [hinUse]
    have hold := h.held ptr' size'
    rw [hinit] at hold
    rcases eq_or_ne ptr' (t + 32) with rfl | hne
    · rw [Function.update_self]
      refine iff_of_false (by simp) ?_
      rintro ⟨u, hu, -, hut⟩
      exact hut (add_right_cancel hu).symm
    · rw [Function.update_of_ne hne, hold]
      constructor
      · rintro ⟨u, rfl, hu⟩
        exact ⟨u, rfl, hu, fun hut => hne (hut ▸ rfl)⟩
      · rintro ⟨u, hu, hinUse_u, -⟩
        exact ⟨u, hu, hinUse_u⟩

/-- A call of `malloc` hands out a block that nobody holds, or returns null when
`liballoc_alloc` was asked and did so. -/
theorem Ordered.malloc {answer : Word} (hn : 2 ^ 27 < n) (h : Ordered p L)
    (hsize : size.toNat + 32 < 2 ^ 32)
    (hanswer : Asks n p.heap size → answer ≠ 0 → Fresh p.ranges answer (pagesFor size)) :
    ∃ run L', p.heap.malloc n (fun _ => answer) size = some run ∧
      Ordered (p.step n (.malloc size answer)) L' ∧
      run.asked = (if Asks n p.heap size then some (pagesFor size) else none) ∧
      (run.ptr = 0 ∧ answer = 0 ∧ Asks n p.heap size ∧ run.state.mem = p.heap.mem ∨
        run.ptr ≠ 0 ∧ p.held run.ptr = none ∧
          Mem.Frame (headers L'.all) p.heap.mem run.state.mem) := by
  obtain ⟨run, L', hrun, h', hasked, hranges, hcases⟩ := h.order.malloc (fun _ => answer) hsize
    (fun hasks hne => h.ranges ▸ hanswer hasks hne) hn
  rw [h.ranges] at hranges
  refine ⟨run, L', hrun, ?_, hasked, ?_⟩
  -- The pool stays in order, whatever was returned.
  · rw [step_malloc hrun]
    rcases hcases with ⟨hptr, -, -, hstate, hL⟩ | ⟨t, hptr, hout⟩
    · have hinit : run.state.initialized = true := by rw [hstate, initialized_initArrays]
      rw [if_pos hptr]
      refine ⟨?_, hranges, fun ptr' size' => ?_, Or.inl hinit⟩
      · rwa [initArrays_of_initialized hinit]
      · rw [initArrays_of_initialized hinit, hstate, hL]
        exact h.held ptr' size'
    · have hinit : run.state.initialized = true := hout.initialized.trans (initialized_initArrays _)
      have ht : InUse run.state L' 0 t size := (hout.inUse t size).2 (Or.inr ⟨rfl, rfl⟩)
      have hne : run.ptr ≠ 0 := hptr ▸ (h'.wf.toNat_payload ht.has).2.1
      rw [if_neg hne]
      refine ⟨?_, hranges, fun ptr' size' => ?_, Or.inl hinit⟩
      · rwa [initArrays_of_initialized hinit]
      · rw [initArrays_of_initialized hinit, hptr]
        simp only [hout.inUse]
        -- The block that was handed out is held with its size, and the others as before.
        rcases eq_or_ne ptr' (t + 32) with rfl | hne'
        · rw [Function.update_self, Option.some.injEq]
          constructor
          · rintro rfl
            exact ⟨t, rfl, Or.inr ⟨rfl, rfl⟩⟩
          · rintro ⟨u, hu, hin | ⟨-, hsize'⟩⟩
            · obtain rfl := add_right_cancel hu
              exact absurd hin (hout.notInUse _)
            · exact hsize'.symm
        · rw [Function.update_of_ne hne', h.held]
          constructor
          · rintro ⟨u, rfl, hu⟩
            exact ⟨u, rfl, Or.inl hu⟩
          · rintro ⟨u, rfl, hin | ⟨rfl, -⟩⟩
            · exact ⟨u, rfl, hin⟩
            · exact absurd rfl hne'
  -- Null is returned only when pages were asked for and refused, and otherwise a block that was
  -- free.
  · rcases hcases with ⟨hptr, hnull, hasks, hstate, -⟩ | ⟨t, hptr, hout⟩
    · refine Or.inl ⟨hptr, hnull, ?_, by rw [hstate, mem_initArrays]⟩
      by_contra hasks'
      rw [if_neg hasks'] at hasked
      rw [hasked] at hasks
      exact nomatch hasks
    · have ht : InUse run.state L' 0 t size := (hout.inUse t size).2 (Or.inr ⟨rfl, rfl⟩)
      refine Or.inr ⟨hptr ▸ (h'.wf.toNat_payload ht.has).2.1, ?_, ?_⟩
      · rw [Option.eq_none_iff_forall_ne_some]
        intro size' hsize'
        obtain ⟨u, hu, hin⟩ := (h.held _ _).1 hsize'
        obtain rfl := add_right_cancel (hptr.symm.trans hu)
        exact hout.notInUse _ hin
      · have hframe := hout.frame
        rwa [mem_initArrays] at hframe

/-! ## Blocks that are held -/

/-- A block that is held lies in a range, with room for its tag in front of it. -/
theorem Ordered.within (h : Ordered p L) (hptr : p.held ptr = some size) :
    ∃ r ∈ p.ranges, r.1 + 32 ≤ ptr.toNat ∧ ptr.toNat + size.toNat ≤ r.1 + r.2 ∧
      r.1 + r.2 < 2 ^ 32 := by
  obtain ⟨t, rfl, ht⟩ := (h.held ptr size).1 hptr
  obtain ⟨r, hr, hlow, hnat, hroom, hhigh, hend⟩ := h.order.payload ht
  exact ⟨r, h.ranges ▸ hr, by omega, by omega, hend⟩

/-- Two blocks that are held have a tag between them. -/
theorem Ordered.apart (h : Ordered p L) (hptr : p.held ptr = some size)
    (hptr' : p.held ptr' = some size') : ptr = ptr' ∨
      ptr.toNat + size.toNat + 32 ≤ ptr'.toNat ∨ ptr'.toNat + size'.toNat + 32 ≤ ptr.toNat := by
  obtain ⟨t, rfl, ht⟩ := (h.held ptr size).1 hptr
  obtain ⟨u, rfl, hu⟩ := (h.held ptr' size').1 hptr'
  obtain ⟨_, -, -, hnat, hroom, -⟩ := h.order.payload ht
  obtain ⟨_, -, -, hnat', hroom', -⟩ := h.order.payload hu
  rcases h.order.wf.eq_or_apart ht.has hu.has with rfl | hapart
  · exact Or.inl rfl
  · right
    omega

/-- They have no byte in common. -/
theorem Ordered.notMem_block (h : Ordered p L) (hptr : p.held ptr = some size)
    (hptr' : p.held ptr' = some size') (hne : ptr ≠ ptr') (hx : x ∈ Mem.block ptr size.toNat) :
    x ∉ Mem.block ptr' size'.toNat := by
  obtain ⟨r, -, -, hend, hr⟩ := h.within hptr
  obtain ⟨r', -, -, hend', hr'⟩ := h.within hptr'
  refine Mem.notMem_block_of_apart ?_ (by omega) (by omega) hx
  rcases (h.apart hptr hptr').resolve_left hne with hle | hle <;> omega

/-- No byte of them is in a tag. -/
theorem Ordered.notMem_headers (h : Ordered p L) (hptr : p.held ptr = some size)
    (hx : x ∈ Mem.block ptr size.toNat) : x ∉ headers L.all := by
  obtain ⟨t, rfl, ht⟩ := (h.held ptr size).1 hptr
  exact h.order.notMem_headers ht hx

/-- A block that is held is none that nobody holds. -/
theorem ne_of_held (hptr : p.held ptr = some size) (hnone : p.held ptr' = none) : ptr ≠ ptr' := by
  rintro rfl
  simp [hnone] at hptr

/-- The block at `ptr` is held as before, with the same contents. -/
def Keeps (p q : Pool) (ptr size : Word) : Prop :=
  q.held ptr = some size ∧ ∀ x ∈ Mem.block ptr size.toNat, q.heap.mem x = p.heap.mem x

/-- Contents that two calls keep are kept. -/
theorem Keeps.trans {q r : Pool} (h : Keeps p q ptr size) (h' : Keeps q r ptr size) :
    Keeps p r ptr size :=
  ⟨h'.1, fun x hx => (h'.2 x hx).trans (h.2 x hx)⟩

/-- A call of `malloc` keeps every block. -/
theorem Ordered.keeps_malloc {answer : Word} (hn : 2 ^ 27 < n) (h : Ordered p L)
    (ha : p.Admits n size' answer) (hptr : p.held ptr = some size) :
    Keeps p (p.step n (.malloc size' answer)) ptr size := by
  obtain ⟨run, L', hrun, h', -, hcases⟩ := h.malloc hn ha.1 ha.2
  have hstep := step_malloc hrun
  have hheld : (p.step n (.malloc size' answer)).held ptr = some size := by
    rw [hstep]
    rcases hcases with ⟨hnull, -⟩ | ⟨hne, hnone, -⟩
    · rwa [if_pos hnull]
    · rw [if_neg hne]
      exact (Function.update_of_ne (ne_of_held hptr hnone) _ _).trans hptr
  refine ⟨hheld, fun x hx => ?_⟩
  have hx' := h'.notMem_headers hheld hx
  rw [hstep]
  rcases hcases with ⟨-, -, -, hmem⟩ | ⟨-, -, hframe⟩
  · exact congrFun hmem x
  · exact hframe x hx'

/-- A call of `free` keeps every other block. -/
theorem Ordered.keeps_free (hn : 2 ^ 27 < n) (h : Ordered p L) (hptr' : p.held ptr' = some size')
    (hptr : p.held ptr = some size) (hne : ptr ≠ ptr') :
    Keeps p (p.step n (.free ptr')) ptr size := by
  obtain ⟨run, -, hrun, -, -, hframe⟩ := h.free hn hptr'
  rw [step_free hrun]
  exact ⟨(Function.update_of_ne hne _ _).trans hptr,
    fun x hx => hframe x (h.notMem_headers hptr hx)⟩

/-- A write that meets no tag keeps the order. -/
theorem Ordered.setMem {S : Set Word} {m : Mem} (h : Ordered p L)
    (hframe : Mem.Frame S p.heap.mem m) (hS : ∀ x ∈ headers L.all, x ∉ S) :
    Ordered (p.setMem m) L := by
  have hinit : (p.setMem m).heap.initArrays = p.heap.initArrays.setMem m :=
    initArrays_setMem p.heap m
  obtain ⟨h', hinUse⟩ := h.order.setMem (S := S) (m := m) (by rwa [mem_initArrays]) hS
  refine ⟨hinit ▸ h', h.ranges, fun ptr size => ?_, h.cleared⟩
  rw [hinit]
  simp only [hinUse]
  exact h.held ptr size

/-- A write to a block that is held, or to no range, meets no tag. -/
theorem Ordered.store {b : Byte} (h : Ordered p L) (hc : Conforms n p (.store x b)) :
    Ordered (p.step n (.store x b)) L := by
  have hout : x ∉ headers L.all := by
    rcases hc with ⟨ptr, size, hptr, hx⟩ | hx
    · exact h.notMem_headers hptr hx
    · exact h.order.wf.notMem_headers (h.ranges ▸ hx)
  refine h.setMem (Mem.frame_store8 _ x b) fun y hy hyx => ?_
  rw [Mem.mem_block] at hyx
  obtain rfl : y = x := by bv_omega
  exact hout hy

/-- Writes to a block that is held keep the order and the other blocks. -/
theorem Ordered.overwrite {m : Mem} {k : ℕ} (h : Ordered p L) (hptr : p.held ptr = some size)
    (hk : k ≤ size.toNat) (hframe : Mem.Frame (Mem.block ptr k) p.heap.mem m) :
    Ordered (p.setMem m) L ∧ ∀ ptr' size', p.held ptr' = some size' → ptr' ≠ ptr →
      Keeps p (p.setMem m) ptr' size' := by
  have hsub : ∀ y ∈ Mem.block ptr k, y ∈ Mem.block ptr size.toNat := fun y hy => by
    rw [Mem.mem_block] at hy ⊢
    omega
  refine ⟨h.setMem hframe fun y hy hyk => h.notMem_headers hptr (hsub y hyk) hy,
    fun ptr' size' hptr' hne => ⟨hptr', fun y hy => hframe y fun hyk => ?_⟩⟩
  exact h.notMem_block hptr' hptr hne hy (hsub y hyk)

/-! ## `calloc` and `realloc` -/

/-- A call of `malloc` that is not answered with null hands out a block. -/
theorem Ordered.malloc_of_ne {answer : Word} (hn : 2 ^ 27 < n) (h : Ordered p L)
    (ha : p.Admits n size answer) (hanswer : Asks n p.heap size → answer ≠ 0) :
    ∃ run L', p.heap.malloc n (fun _ => answer) size = some run ∧
      Ordered (p.step n (.malloc size answer)) L' ∧ run.ptr ≠ 0 ∧ p.held run.ptr = none ∧
      p.step n (.malloc size answer) = ⟨run.state, grownRanges (fun _ => answer) p.ranges run.asked,
        Function.update p.held run.ptr (some size)⟩ := by
  obtain ⟨run, L', hrun, h', -, hcases⟩ := h.malloc hn ha.1 ha.2
  rcases hcases with ⟨-, hnull, hasks, -⟩ | ⟨hne, hnone, -⟩
  · exact absurd hnull (hanswer hasks)
  · refine ⟨run, L', hrun, h', hne, hnone, ?_⟩
    rw [step_malloc hrun, if_neg hne]

/-- A call of `calloc` hands out a block that nobody holds, with zeros in it. -/
theorem Ordered.calloc {nobj answer : Word} (hn : 2 ^ 27 < n) (h : Ordered p L)
    (ha : p.Admits n (nobj * size) answer) (hanswer : Asks n p.heap (nobj * size) → answer ≠ 0) :
    ∃ run L', p.heap.calloc n (fun _ => answer) nobj size = some run ∧
      Ordered (p.step n (.calloc nobj size answer)) L' ∧ run.ptr ≠ 0 ∧ p.held run.ptr = none ∧
      (∀ x ∈ Mem.block run.ptr (nobj * size).toNat, run.state.mem x = 0) ∧
      ∀ ptr size', p.held ptr = some size' →
        Keeps p (p.step n (.calloc nobj size answer)) ptr size' := by
  obtain ⟨r, L', hr, h', hne, hnone, hstep⟩ := h.malloc_of_ne hn ha hanswer
  have hle : (nobj * size).toNat ≤ 2 ^ 32 := (BitVec.isLt _).le
  have hnew : (p.step n (.malloc (nobj * size) answer)).held r.ptr = some (nobj * size) := by
    rw [hstep]
    exact Function.update_self _ _ _
  obtain ⟨h'', hkeep⟩ := h'.overwrite hnew le_rfl (Mem.frame_fill _ r.ptr 0 hle)
  have hcalloc := step_calloc (p := p) hr
  have hmem : (p.step n (.malloc (nobj * size) answer)).heap.mem = r.state.mem := by rw [hstep]
  rw [hmem, ← hcalloc] at h'' hkeep
  refine ⟨_, L', calloc_of_malloc hr, h'', hne, hnone, fun x hx => Mem.fill_of_mem hle hx,
    fun ptr size' hptr => ?_⟩
  have hkept := h.keeps_malloc hn ha hptr
  exact hkept.trans (hkeep ptr size' hkept.1 (ne_of_held hptr hnone))

/-- `realloc` keeps the bytes that both blocks have. -/
theorem Ordered.toNat_keptSize (h : Ordered p L) (hptr : p.held ptr = some size) :
    (p.heap.keptSize ptr size').toNat = min size.toNat size'.toNat := by
  have hinit := h.initArrays hptr
  obtain ⟨t, rfl, ht⟩ := (h.held ptr size).1 hptr
  have hsize := ht.size
  rw [hinit] at hsize
  rw [keptSize, add_sub_cancel_right, hsize]
  split_ifs with hgt
  · have hgt' : size'.toNat < size.toNat := hgt
    omega
  · have hle : size.toNat ≤ size'.toNat := Nat.not_lt.1 hgt
    omega

/-- A call of `realloc` for a block that is held moves what fits of it to a block that nobody
holds, and frees it. -/
theorem Ordered.realloc {answer : Word} (hn : 2 ^ 27 < n) (h : Ordered p L)
    (hptr : p.held ptr = some size) (hsize : size' ≠ 0) (ha : p.Admits n size' answer)
    (hanswer : Asks n p.heap size' → answer ≠ 0) :
    ∃ run L', p.heap.realloc n (fun _ => answer) ptr size' = some run ∧
      Ordered (p.step n (.realloc ptr size' answer)) L' ∧ run.ptr ≠ 0 ∧ p.held run.ptr = none ∧
      (∀ d : Word, d.toNat < min size.toNat size'.toNat →
        run.state.mem (run.ptr + d) = p.heap.mem (ptr + d)) ∧
      (∀ a pages, run.released = some (a, pages) →
        (a.toNat, 4096 * pages.toNat) ∈ grownRanges (fun _ => answer) p.ranges run.asked) ∧
      ∀ ptr' size₁, p.held ptr' = some size₁ → ptr' ≠ ptr →
        Keeps p (p.step n (.realloc ptr size' answer)) ptr' size₁ := by
  obtain ⟨r, L₁, hr, h₁, hne, hnone, hstep⟩ := h.malloc_of_ne hn ha hanswer
  have hk : (p.heap.keptSize ptr size').toNat = min size.toNat size'.toNat :=
    h.toNat_keptSize hptr
  have hptr0 := h.ne_zero hptr
  have hneptr : r.ptr ≠ ptr := (ne_of_held hptr hnone).symm
  have hold := h.keeps_malloc hn ha hptr
  have hnew : (p.step n (.malloc size' answer)).held r.ptr = some size' := by
    rw [hstep]
    exact Function.update_self _ _ _
  have hmem : (p.step n (.malloc size' answer)).heap.mem = r.state.mem := by rw [hstep]
  -- what is copied goes to the new block
  have hcopy : ∀ x, p.heap.copied r ptr size' x =
      if (x - r.ptr).toNat < min size.toNat size'.toNat then r.state.mem (ptr + (x - r.ptr))
      else r.state.mem x := fun x => by
    rw [copied, hk]
    refine liballocMemcpy_apply (by omega) (fun y hy hyd => ?_) x
    rw [Mem.mem_block] at hy hyd
    have hyold : y ∈ Mem.block ptr size.toNat := Mem.mem_block.2 (by omega)
    exact h₁.notMem_block hold.1 hnew hneptr.symm hyold (Mem.mem_block.2 (by omega))
  have hframe : Mem.Frame (Mem.block r.ptr (min size.toNat size'.toNat))
      (p.step n (.malloc size' answer)).heap.mem (p.heap.copied r ptr size') := fun x hx => by
    rw [hmem, hcopy, if_neg (mt Mem.mem_block.2 hx)]
  obtain ⟨h₂, hkeep₂⟩ := h₁.overwrite hnew (by omega) hframe
  -- the old block is freed
  obtain ⟨f, L₃, hf, h₃, hreleased, -⟩ := h₂.free hn (hkeep₂ ptr size hold.1 hneptr.symm).1
  have hkeep₃ : ∀ ptr' size₁, ((p.step n (.malloc size' answer)).setMem
      (p.heap.copied r ptr size')).held ptr' = some size₁ → ptr' ≠ ptr →
      Keeps _ (((p.step n (.malloc size' answer)).setMem (p.heap.copied r ptr size')).step n
        (.free ptr)) ptr' size₁ :=
    fun _ _ => h₂.keeps_free hn (hkeep₂ ptr size hold.1 hneptr.symm).1
  have hheap : ((p.step n (.malloc size' answer)).setMem (p.heap.copied r ptr size')).heap =
      r.state.setMem (p.heap.copied r ptr size') := by rw [hstep]; rfl
  rw [hheap] at hf
  have hrealloc := step_realloc hsize hptr0 hr hf
  rw [← hrealloc] at h₃ hkeep₃
  refine ⟨_, L₃, realloc_of_malloc_free hsize hptr0 hr hf, h₃, hne, hnone, fun d hd => ?_,
    fun a pages heq => ?_, fun ptr' size₁ hptr' hne' => ?_⟩
  · have hnew₂ : r.ptr + d ∈ Mem.block r.ptr size'.toNat := by
      rw [Mem.mem_block, add_sub_cancel_left]
      omega
    have hlast := (hkeep₃ r.ptr size' hnew hneptr).2 (r.ptr + d) hnew₂
    have hmem₃ : (p.step n (.realloc ptr size' answer)).heap.mem = f.state.mem := by
      rw [hrealloc, step_free (by rw [hheap]; exact hf)]
    rw [hmem₃] at hlast
    rw [hlast]
    show p.heap.copied r ptr size' (r.ptr + d) = _
    rw [hcopy, add_sub_cancel_left, if_pos hd, ← hmem]
    refine hold.2 (ptr + d) (Mem.mem_block.2 ?_)
    rw [add_sub_cancel_left]
    omega
  · have hin := hreleased a pages heq
    rwa [hstep] at hin
  · have hkept₁ := h.keeps_malloc hn ha hptr'
    have hkept₂ := hkeep₂ ptr' size₁ hkept₁.1 (ne_of_held hptr' hnone)
    exact (hkept₁.trans hkept₂).trans (hkeep₃ ptr' size₁ hkept₂.1 hne')

/-! ## Every call -/

/-- `free` of the null pointer does nothing. -/
theorem Ordered.step_free_zero (h : Ordered p L) : p.step n (.free 0) = p := by
  have hheld : Function.update p.held 0 none = p.held :=
    Function.update_eq_self_iff.2 h.held_zero.symm
  show (⟨p.heap, p.ranges, Function.update p.held 0 none⟩ : Pool) = p
  rw [hheld]

/-- A call that conforms keeps the order. -/
theorem Ordered.step (hn : 2 ^ 27 < n) (h : Ordered p L) (hc : Conforms n p c) :
    ∃ L', Ordered (p.step n c) L' := by
  have hfree : ∀ ptr, ptr = 0 ∨ (p.held ptr).isSome → ∃ L', Ordered (p.step n (.free ptr)) L' := by
    rintro ptr (rfl | hptr)
    · exact ⟨L, h.step_free_zero.symm ▸ h⟩
    · obtain ⟨size, hsize⟩ := Option.isSome_iff_exists.1 hptr
      obtain ⟨_, L', -, h', -⟩ := h.free hn hsize
      exact ⟨L', h'⟩
  have hmalloc : ∀ size answer, p.Admits n size answer →
      ∃ L', Ordered (p.step n (.malloc size answer)) L' := fun size answer ha => by
    obtain ⟨_, L', -, h', -⟩ := h.malloc hn ha.1 ha.2
    exact ⟨L', h'⟩
  -- One case for each function. `realloc` is one of the others when it is called with null or
  -- for no bytes.
  cases c with
  | malloc size answer => exact hmalloc size answer hc
  | free ptr => exact hfree ptr hc
  | calloc nobj size answer =>
    obtain ⟨_, L', -, h', -⟩ := h.calloc hn hc.1 hc.2
    exact ⟨L', h'⟩
  | realloc ptr size answer =>
    by_cases hsize : size = 0
    · subst hsize
      rw [step_realloc_zero]
      exact hfree ptr hc.1
    · obtain ⟨ha, hanswer⟩ := hc.2 hsize
      rcases hc.1 with rfl | hptr
      · obtain ⟨L', h'⟩ := hmalloc size answer ha
        rw [step_realloc_null hsize h'.held_zero]
        exact ⟨L', h'⟩
      · obtain ⟨size₀, hsize₀⟩ := Option.isSome_iff_exists.1 hptr
        obtain ⟨_, L', -, h', -⟩ := h.realloc hn hsize₀ hsize ha (hanswer (h.ne_zero hsize₀))
        exact ⟨L', h'⟩
  | store a b => exact ⟨L, h.store hc⟩

end Pool

end Scorch
