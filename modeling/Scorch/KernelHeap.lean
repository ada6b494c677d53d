import Scorch.HeapBacking
import Scorch.PoolRuns

/-!
# The allocator over the pages of the kernel

`malloc` and its companions with the `liballoc_alloc` and `liballoc_free` of `heap.c` below them.
A call of the kernel is a call of the pool, with what the stack holds in the place of `outmem`
where the pool has the answer of `liballoc_alloc`, and that answer is what the memory manager
gives (`PoolCall.answered`).

Every run from `init_heap` on whose calls conform is a run of the pool (`refines_pool`), so all
that holds of the pool holds here. Every byte of a block that is held is mapped, to a frame that
no other page of the heap has and that is no page table (`held_backed`). What is given back by
`free` never comes back to the frames (`nothing_freed`).

`Consistent` is the relation between the pool and the pages : the ranges of the pool lie between
`KHEAP` and `heaptop`, where every page has a frame of its own, and the blocks are in order.
-/

open ByteMemory GuardedRun

namespace Scorch

open Liballoc Pmm

/-! ## Requests -/

namespace PoolCall

/-- The bytes that `malloc` is called for. -/
def request : PoolCall → Option Word
  | .malloc size _ => some size
  | .calloc nobj size _ => some (nobj * size)
  | .realloc _ size _ => if size = 0 then none else some size
  | _ => none

/-- The last argument of a call that may ask for pages. -/
def outmem : PoolCall → Word
  | .malloc _ outmem => outmem
  | .calloc _ _ outmem => outmem
  | .realloc _ _ outmem => outmem
  | _ => 0

/-- The call with the answer of `liballoc_alloc` in the place of `outmem`. -/
def answered (vm : Heap) : PoolCall → PoolCall
  | .malloc size outmem => .malloc size (liballocAlloc vm outmem (pagesFor size)).1
  | .calloc nobj size outmem =>
    .calloc nobj size (liballocAlloc vm outmem (pagesFor (nobj * size))).1
  | .realloc ptr size outmem => .realloc ptr size (liballocAlloc vm outmem (pagesFor size)).1
  | c => c

/-- The answer of the pages does not change what is asked for. -/
theorem request_answered (vm : Heap) (c : PoolCall) : (c.answered vm).request = c.request := by
  cases c <;> rfl

/-- The answer is that of `liballoc_alloc`. -/
theorem outmem_answered (vm : Heap) {c : PoolCall} {size : Word} (h : c.request = some size) :
    (c.answered vm).outmem = (liballocAlloc vm c.outmem (pagesFor size)).1 := by
  cases c with
  | malloc size' outmem => rw [Option.some.inj h.symm]; rfl
  | calloc nobj size' outmem => rw [Option.some.inj h.symm]; rfl
  | realloc ptr size' outmem =>
    obtain ⟨-, hsize⟩ := Option.ite_none_left_eq_some.1 h
    rw [Option.some.inj hsize.symm]; rfl
  | free ptr => exact nomatch h
  | store a b => exact nomatch h

end PoolCall

/-- `malloc` asks for pages exactly when no tag on its lists fits. -/
theorem Liballoc.asked_malloc {k : ℕ} {alloc : Word → Word} {s : Liballoc} {size : Word}
    {r : MallocRun} (h : s.malloc k alloc size = some r) :
    r.asked = if Asks k s size then some (pagesFor size) else none := by
  unfold Liballoc.malloc at h
  obtain ⟨tag, htag, rfl⟩ := Option.map_eq_some_iff.1 h
  have hasks : Asks k s size ↔ tag = 0 := by
    rw [Asks]
    exact (congrArg (· = some 0) htag).to_iff.trans Option.some_inj
  by_cases h0 : tag = 0
  · rw [if_pos h0, if_pos (hasks.2 h0)]
    dsimp only
    split_ifs <;> rfl
  · rw [if_neg h0, if_neg (mt hasks.1 h0)]

namespace Pool

variable {n : ℕ} {p : Pool} {c : PoolCall} {L : Layout}

/-- The pages that a call asks `liballoc_alloc` for. -/
def asked (n : ℕ) (p : Pool) : PoolCall → Option Word
  | .malloc size answer => (p.heap.malloc n (fun _ => answer) size).bind MallocRun.asked
  | .calloc nobj size answer =>
    (p.heap.calloc n (fun _ => answer) nobj size).bind MallocRun.asked
  | .realloc ptr size answer =>
    (p.heap.realloc n (fun _ => answer) ptr size).bind ReallocRun.asked
  | _ => none

/-- The pages that a call gives to `liballoc_free`. -/
def released (n : ℕ) (p : Pool) : PoolCall → Option (Word × Word)
  | .free ptr => (p.heap.free n ptr).bind FreeRun.released
  | .realloc ptr size answer =>
    (p.heap.realloc n (fun _ => answer) ptr size).bind ReallocRun.released
  | _ => none

@[simp] theorem grownRanges_none (alloc : Word → Word) (ranges : List (ℕ × ℕ)) :
    grownRanges alloc ranges none = ranges :=
  rfl

@[simp] theorem leftRanges_none (ranges : List (ℕ × ℕ)) : leftRanges ranges none = ranges :=
  rfl

/-- What a call does to the ranges. -/
theorem ranges_step (n : ℕ) (p : Pool) (c : PoolCall) : (p.step n c).ranges =
    leftRanges (grownRanges (fun _ => c.outmem) p.ranges (p.asked n c)) (p.released n c) := by
  cases c with
  | malloc size answer =>
    cases hrun : p.heap.malloc n (fun _ => answer) size <;>
      simp [step, asked, released, hrun, PoolCall.outmem]
  | free ptr =>
    cases hrun : p.heap.free n ptr <;>
      simp [step, asked, released, hrun]
  | calloc nobj size answer =>
    cases hrun : p.heap.calloc n (fun _ => answer) nobj size <;>
      simp [step, asked, released, hrun, PoolCall.outmem]
  | realloc ptr size answer =>
    cases hrun : p.heap.realloc n (fun _ => answer) ptr size <;>
      simp [step, asked, released, hrun, PoolCall.outmem]
  | store a b => rfl

/-- A call asks for the pages of its request, when the search finds no block. -/
theorem request_of_asked {pages : Word} (h : p.asked n c = some pages) :
    ∃ size, c.request = some size ∧ Asks n p.heap size ∧ pages = pagesFor size := by
  have hmalloc : ∀ {size answer : Word} {r : MallocRun},
      p.heap.malloc n (fun _ => answer) size = some r → r.asked = some pages →
      Asks n p.heap size ∧ pages = pagesFor size := fun hr hasked => by
    rw [asked_malloc hr] at hasked
    split_ifs at hasked with hasks
    exact ⟨hasks, (Option.some.inj hasked).symm⟩
  cases c with
  | malloc size answer =>
    obtain ⟨r, hr, hasked⟩ := Option.bind_eq_some_iff.1 h
    exact ⟨size, rfl, hmalloc hr hasked⟩
  | calloc nobj size answer =>
    obtain ⟨r, hr, hasked⟩ := Option.bind_eq_some_iff.1 h
    obtain ⟨r', hr', rfl⟩ := Option.map_eq_some_iff.1 hr
    exact ⟨nobj * size, rfl, hmalloc hr' hasked⟩
  | realloc ptr size answer =>
    obtain ⟨r, hr, hasked⟩ := Option.bind_eq_some_iff.1 h
    unfold Liballoc.realloc at hr
    split_ifs at hr with hsize hptr
    · obtain ⟨f, -, rfl⟩ := Option.map_eq_some_iff.1 hr
      exact nomatch hasked
    · obtain ⟨r', hr', rfl⟩ := Option.map_eq_some_iff.1 hr
      exact ⟨size, if_neg hsize, hmalloc hr' hasked⟩
    · obtain ⟨r', hr', hf⟩ := Option.bind_eq_some_iff.1 hr
      obtain ⟨f, -, rfl⟩ := Option.map_eq_some_iff.1 hf
      exact ⟨size, if_neg hsize, hmalloc hr' hasked⟩
  | free ptr => exact nomatch h
  | store a b => exact nomatch h

/-- What a call gives back is a range. -/
theorem Ordered.range_of_released (hn : 2 ^ 27 < n) (h : Ordered p L) (hc : Conforms n p c)
    {a pages : Word} (hreleased : p.released n c = some (a, pages)) :
    (a.toNat, 4096 * pages.toNat) ∈
      grownRanges (fun _ => c.outmem) p.ranges (p.asked n c) := by
  have hreturns := h.returns hn hc
  cases c with
  | free ptr =>
    obtain ⟨run, hrun, hback⟩ := hreturns
    exact hback a pages (by simpa [released, hrun] using hreleased)
  | realloc ptr size answer =>
    obtain ⟨run, hrun, hback, -⟩ := hreturns
    have hasked : p.asked n (.realloc ptr size answer) = run.asked := by simp [asked, hrun]
    rw [hasked]
    exact hback a pages (by simpa [released, hrun] using hreleased)
  | malloc size answer => exact nomatch hreleased
  | calloc nobj size answer => exact nomatch hreleased
  | store a b => exact nomatch hreleased

end Pool

/-! ## Calls of the kernel -/

/-- The heap after a call of `liballoc_alloc`, if there is one. -/
def Heap.supply (vm : Heap) (outmem : Word) : Option Word → Heap
  | none => vm
  | some pages => (liballocAlloc vm outmem pages).2

/-- The heap after a call of `liballoc_free`, if there is one. -/
def Heap.takeBack (vm : Heap) : Option (Word × Word) → Heap
  | none => vm
  | some (a, pages) => (liballocFree vm a pages).2

/-- The heap hook and the allocator over it. -/
structure KernelHeap where
  vm : Heap
  pool : Pool

namespace KernelHeap

/-- What a call does. -/
def step (n : ℕ) (k : KernelHeap) (c : PoolCall) : KernelHeap :=
  let c' := c.answered k.vm
  { vm := (k.vm.supply c.outmem (k.pool.asked n c')).takeBack (k.pool.released n c')
    pool := k.pool.step n c' }

/-- A call that needs pages is granted them, or is answered with null. -/
def Admits (n : ℕ) (k : KernelHeap) (size outmem : Word) : Prop :=
  size.toNat + 32 < 2 ^ 32 ∧
    (Asks n k.pool.heap size → k.vm.Granted (pagesFor size) outmem)

/-- A call that needs pages is not rejected. -/
def Supplied (n : ℕ) (k : KernelHeap) (size : Word) : Prop :=
  Asks n k.pool.heap size → ¬k.vm.vmm.Rejects (pagesFor size) k.vm.heaptop

/-- The callers keep to the rules, and write to the blocks that they hold. -/
def Conforms (n : ℕ) (k : KernelHeap) : PoolCall → Prop
  | .malloc size outmem => k.Admits n size outmem
  | .free ptr => ptr = 0 ∨ (k.pool.held ptr).isSome
  | .calloc nobj size outmem => k.Admits n (nobj * size) outmem ∧ k.Supplied n (nobj * size)
  | .realloc ptr size outmem => (ptr = 0 ∨ (k.pool.held ptr).isSome) ∧
      (size ≠ 0 → k.Admits n size outmem ∧ (ptr ≠ 0 → k.Supplied n size))
  | .store a _ => ∃ ptr size, k.pool.held ptr = some size ∧ a ∈ Mem.block ptr size.toNat

/-- `init_heap` has been called, and nothing has been allocated. -/
def boot (vm : Heap) (s : Liballoc) : KernelHeap where
  vm := (initHeap vm).2
  pool := Pool.boot s

/-- The ranges lie in the heap. -/
def Within (vm : Heap) (ranges : List (ℕ × ℕ)) : Prop :=
  ∀ r ∈ ranges, kheap.toNat ≤ r.1 ∧ 0 < r.2 ∧ r.1 + r.2 ≤ vm.heaptop.toNat

/-- The pages of the heap have their frames, and the blocks are in order. -/
structure Consistent (k : KernelHeap) (frame : ℕ → ℕ) : Prop where
  backed : k.vm.Backed frame
  within : Within k.vm k.pool.ranges
  ordered : ∃ L, k.pool.Ordered L

variable {n : ℕ} {k : KernelHeap} {frame : ℕ → ℕ} {c : PoolCall} {size outmem : Word}

theorem pagesFor_pos (size : Word) : 0 < (pagesFor size).toNat :=
  Nat.lt_of_lt_of_le (by norm_num) (sixteen_le_pagesOf (size + 32))

/-- What `liballoc_alloc` grants is held by nobody. -/
theorem Consistent.admits (h : Consistent k frame) (ha : k.Admits n size outmem) :
    k.pool.Admits n size (liballocAlloc k.vm outmem (pagesFor size)).1 := by
  refine ⟨ha.1, fun hasks hne => ?_⟩
  rcases h.backed.liballocAlloc (ha.2 hasks) with heq | ⟨h', frame', heq, -, -, htop, -⟩
  · rw [heq] at hne
    exact absurd rfl hne
  · rw [heq]
    have hlt := h'.heaptop.isLt
    have hfits : k.vm.heaptop.toNat + 4096 * (pagesFor size).toNat < 2 ^ 32 := by omega
    exact ⟨h.backed.heaptop_ne_zero, hfits, fun r hr => Or.inl (h.within r hr).2.2⟩

/-- With tables and room for the pages, the answer is not null. -/
theorem Consistent.answer_ne_zero (h : Consistent k frame) (hs : k.Supplied n size)
    (hasks : Asks n k.pool.heap size) (outmem : Word) :
    (liballocAlloc k.vm outmem (pagesFor size)).1 ≠ 0 := by
  rw [HeapRun.liballocAlloc_of_not_rejects (hs hasks)]
  exact h.backed.heaptop_ne_zero

/-- A call that conforms does so for the pool. -/
theorem Consistent.conforms (h : Consistent k frame) (hc : k.Conforms n c) :
    k.pool.Conforms n (c.answered k.vm) := by
  cases c with
  | malloc size outmem => exact h.admits hc
  | free ptr => exact hc
  | calloc nobj size outmem =>
    exact ⟨h.admits hc.1, fun hasks => h.answer_ne_zero hc.2 hasks outmem⟩
  | realloc ptr size outmem =>
    exact ⟨hc.1, fun hsize => ⟨h.admits (hc.2 hsize).1,
      fun hptr hasks => h.answer_ne_zero ((hc.2 hsize).2 hptr) hasks outmem⟩⟩
  | store a b => exact Or.inl hc

/-- The pages of a conforming call are granted. -/
theorem granted_of_request (hc : k.Conforms n c) (hrequest : c.request = some size)
    (hasks : Asks n k.pool.heap size) : k.vm.Granted (pagesFor size) c.outmem := by
  cases c with
  | malloc size' outmem => exact Option.some.inj hrequest ▸ hc.2 (Option.some.inj hrequest ▸ hasks)
  | calloc nobj size' outmem =>
    exact Option.some.inj hrequest ▸ hc.1.2 (Option.some.inj hrequest ▸ hasks)
  | realloc ptr size' outmem =>
    obtain ⟨hsize, heq⟩ := Option.ite_none_left_eq_some.1 hrequest
    exact Option.some.inj heq ▸ (hc.2 hsize).1.2 (Option.some.inj heq ▸ hasks)
  | free ptr => exact nomatch hrequest
  | store a b => exact nomatch hrequest

/-- What a call asks for extends the heap, and the ranges with it. -/
theorem Consistent.supply (h : Consistent k frame) (hc : k.Conforms n c) :
    ∃ frame', (k.vm.supply c.outmem (k.pool.asked n (c.answered k.vm))).Backed frame' ∧
      (∀ q ∈ k.vm.pages, frame' q = frame q) ∧
      k.vm.heaptop.toNat ≤
        (k.vm.supply c.outmem (k.pool.asked n (c.answered k.vm))).heaptop.toNat ∧
      k.vm.vmm.pmm.used ⊆
        (k.vm.supply c.outmem (k.pool.asked n (c.answered k.vm))).vmm.pmm.used ∧
      Within (k.vm.supply c.outmem (k.pool.asked n (c.answered k.vm)))
        (grownRanges (fun _ => (c.answered k.vm).outmem) k.pool.ranges
          (k.pool.asked n (c.answered k.vm))) := by
  cases hasked : k.pool.asked n (c.answered k.vm) with
  | none => exact ⟨frame, h.backed, fun _ _ => rfl, le_rfl, subset_rfl, h.within⟩
  | some pages =>
    obtain ⟨size, hrequest, hasks, rfl⟩ := Pool.request_of_asked hasked
    rw [PoolCall.request_answered] at hrequest
    rw [PoolCall.outmem_answered k.vm hrequest]
    rcases h.backed.liballocAlloc (granted_of_request hc hrequest hasks) with
      heq | ⟨h', frame', heq, hb', hframe, htop, hused⟩
    · simp only [Heap.supply, heq, grownRanges, reduceIte]
      exact ⟨frame, h.backed, fun _ _ => rfl, le_rfl, subset_rfl, h.within⟩
    · simp only [Heap.supply, heq, grownRanges, if_neg h.backed.heaptop_ne_zero]
      refine ⟨frame', hb', hframe, by omega, hused, fun r hr => ?_⟩
      have hpos := pagesFor_pos size
      rcases List.mem_cons.1 hr with rfl | hr
      · exact ⟨h.backed.kheap_le, by omega, htop.ge⟩
      · have hold := h.within r hr
        exact ⟨hold.1, hold.2.1, by omega⟩

/-- A range of the heap that is given back stays mapped. -/
theorem takeBack_eq {vm : Heap} {ranges : List (ℕ × ℕ)} {released : Option (Word × Word)}
    (hb : vm.Backed frame) (hw : Within vm ranges)
    (hreleased : ∀ a pages, released = some (a, pages) → (a.toNat, 4096 * pages.toNat) ∈ ranges) :
    vm.takeBack released = vm := by
  match released with
  | none => rfl
  | some (a, pages) =>
    obtain ⟨hlow, hpos, hhigh⟩ := hw _ (hreleased a pages rfl)
    have hpage : a.toNat / 4096 ∈ vm.pages := ⟨by omega, by omega⟩
    rw [Heap.takeBack, hb.liballocFree_eq hpage]

/-- A call that conforms keeps everything that stands, with the frames of the pages. -/
theorem Consistent.step (hn : 2 ^ 27 < n) (h : Consistent k frame) (hc : k.Conforms n c) :
    ∃ frame', Consistent (k.step n c) frame' ∧ (∀ q ∈ k.vm.pages, frame' q = frame q) ∧
      k.vm.heaptop.toNat ≤ (k.step n c).vm.heaptop.toNat ∧
      k.vm.vmm.pmm.used ⊆ (k.step n c).vm.vmm.pmm.used := by
  obtain ⟨frame', hb, hframe, htop, hused, hw⟩ := h.supply hc
  obtain ⟨L, hL⟩ := h.ordered
  have hc' := h.conforms hc
  have hvm : (k.step n c).vm = k.vm.supply c.outmem (k.pool.asked n (c.answered k.vm)) :=
    takeBack_eq hb hw fun a pages => hL.range_of_released hn hc'
  refine ⟨frame', ⟨hvm ▸ hb, fun r hr => ?_, hL.step hn hc'⟩, hframe, hvm ▸ htop, hvm ▸ hused⟩
  have hranges := k.pool.ranges_step n (c.answered k.vm)
  rw [hvm]
  refine hw r ?_
  rw [show (k.step n c).pool.ranges = _ from hranges] at hr
  revert hr
  cases k.pool.released n (c.answered k.vm) with
  | none => exact id
  | some b => exact fun hr => List.mem_of_mem_filter hr

/-! ## Runs -/

section Runs

variable (hn : 2 ^ 27 < n)

include hn

/-- A run keeps everything that stands, with the frames of the pages. -/
theorem Consistent.run {cs : List PoolCall} (h : Consistent k frame)
    (hc : Meets (KernelHeap.step n) (Conforms n) k cs) :
    ∃ frame', Consistent (GuardedRun.run (KernelHeap.step n) k cs) frame' ∧
      (∀ q ∈ k.vm.pages, frame' q = frame q) ∧
      k.vm.heaptop.toNat ≤ (GuardedRun.run (KernelHeap.step n) k cs).vm.heaptop.toNat ∧
      k.vm.vmm.pmm.used ⊆ (GuardedRun.run (KernelHeap.step n) k cs).vm.vmm.pmm.used := by
  induction cs generalizing k frame with
  | nil => exact ⟨frame, h, fun _ _ => rfl, le_rfl, subset_rfl⟩
  | cons c cs ih =>
    obtain ⟨frame₁, h₁, hframe₁, htop₁, hused₁⟩ := h.step hn hc.1
    obtain ⟨frame₂, h₂, hframe₂, htop₂, hused₂⟩ := ih h₁ hc.2
    refine ⟨frame₂, h₂, fun q hq => ?_, htop₁.trans htop₂, hused₁.trans hused₂⟩
    have hq₁ : q ∈ (k.step n c).vm.pages :=
      ⟨hq.1, hq.2.trans_le (Nat.div_le_div_right htop₁)⟩
    rw [hframe₂ q hq₁, hframe₁ q hq]

/-- The allocator goes through the states of the pool. -/
theorem Consistent.exists_pool_run {cs : List PoolCall} (h : Consistent k frame)
    (hc : Meets (KernelHeap.step n) (Conforms n) k cs) :
    ∃ cs', List.Forall₂ (fun c c' => ∃ vm, c' = c.answered vm) cs cs' ∧
      Meets (Pool.step n) (Pool.Conforms n) k.pool cs' ∧
      (GuardedRun.run (KernelHeap.step n) k cs).pool = GuardedRun.run (Pool.step n) k.pool cs' := by
  induction cs generalizing k frame with
  | nil => exact ⟨[], List.Forall₂.nil, meets_nil _, rfl⟩
  | cons c cs ih =>
    obtain ⟨frame', h', -⟩ := h.step hn hc.1
    obtain ⟨cs', hall, hmeets, hrun⟩ := ih h' hc.2
    exact ⟨c.answered k.vm :: cs', .cons ⟨k.vm, rfl⟩ hall, ⟨h.conforms hc.1, hmeets⟩, hrun⟩

end Runs

/-- At the start no range has been handed out. -/
theorem consistent_boot {vm : Heap} (hb : (initHeap vm).2.Backed frame) (s : Liballoc) :
    Consistent (boot vm s) frame :=
  ⟨hb, fun _ hr => absurd hr List.not_mem_nil, Pool.noBlocks, Pool.ordered_boot s⟩

/-! ## A short run -/

/-- The first three frames are in use. -/
theorem oneTable_used : ∀ g < 3, g ∈ oneTable.pmm.used := fun g hg =>
  ⟨hg.trans (by norm_num), (by decide : ∀ g < 3, threeUsed.frameUsed g = true) g hg⟩

theorem tables_oneTable {slot t : ℕ} (ht : oneTable.tables 0x1000 slot = some t) : t = 2 := by
  rw [Vmm.tables] at ht
  split_ifs at ht with hslot
  · have hi : (BitVec.ofNat 32 slot).toNat < 1024 := by
      rw [BitVec.toNat_ofNat]
      omega
    have hentry := hslot.2
    rw [pagedir_oneTable hi] at ht hentry
    split_ifs at ht hentry
    · exact (Option.some.inj ht).symm
    · exact absurd rfl hentry

/-- No page of the heap is there yet. -/
theorem backed_oneTable : (initHeap HeapRun.oneTableHeap).2.Backed id := by
  have hfree : ∀ g ∈ oneTable.pmm.freeList, 3 ≤ g ∧ g < 1024 := fun g hg =>
    Vmm.clear_threeUsed (mem_clear_of_mem_freeList hg)
  have hnone : ∀ q, q ∉ (initHeap HeapRun.oneTableHeap).2.pages := fun q hq =>
    absurd hq.2 (not_lt.2 hq.1)
  refine ⟨rfl, le_rfl, Vmm.oneTable_sound, ⟨fun slot t ht g hg => ?_, ?_⟩,
    fun g hg => ?_, fun slot t ht => ?_, oneTable_used 1 (by norm_num),
    fun q hq => absurd hq (hnone q), fun q hq => absurd hq (hnone q),
    fun q hq => absurd hq (hnone q), fun q hq => absurd hq (hnone q),
    fun q hq => absurd hq (hnone q)⟩
  · rw [Vmm.frames_stock] at hg
    have hlow := (hfree g hg).1
    have ht' := tables_oneTable ht
    omega
  · rw [Vmm.frames_stock]
    exact Pmm.pairwise_freeList _
  · have hhigh := (hfree g hg).2
    have hkheap : kheap.toNat / 4096 = 0xC8000 := rfl
    omega
  · rw [tables_oneTable ht]
    exact oneTable_used 2 (by norm_num)

/-- The search for 16 frames finds frames `3` to `18`. -/
theorem finds_oneTable {f : ℕ} (hf : oneTable.pmm.Finds 16 f) : f = 3 := by
  have hmem : 3 ∈ threeUsed.runStarts 16 := ⟨⟨by decide, by decide⟩, Or.inr (by decide +kernel)⟩
  exact le_antisymm (hf.1.2 hmem) (Vmm.clear_threeUsed (Pmm.runStarts_subset _ _ hf.1.1)).1

/-- Sixteen pages are granted to the first request. -/
theorem granted_oneTable : (initHeap HeapRun.oneTableHeap).2.Granted 16 0 := by
  have hfree : ∀ g ∈ (threeUsed.granted 3 16).freeList, g < 1024 := fun g hg =>
    (Vmm.clear_threeUsed (mem_clear_of_mem_freeList
      (mem_freeList_granted (by decide) (by decide) hg).1)).2
  refine ⟨fun _ => rfl, fun f hf => ?_, fun _ => by decide, fun _ f hf => ?_⟩
  · obtain rfl := finds_oneTable hf
    refine ⟨by decide, Set.disjoint_left.2 fun g hg hused => ?_⟩
    have hclear : ∀ i < 16, threeUsed.frameUsed (3 + i) = false := by decide
    have hbit := hclear (g - 3) (by have := hg.2; simp at this; omega)
    rw [show 3 + (g - 3) = g by have := hg.1; omega] at hbit
    exact absurd (hbit.symm.trans hused.2) (by decide)
  · obtain rfl := finds_oneTable hf
    refine Heap.served_of_slot (fun g hg => ?_) (fun hnil => ?_)
      (by decide +kernel)
    · rw [Vmm.frames_stock] at hg
      have hslot : g / 1024 = 0 := Nat.div_eq_of_lt (hfree g hg)
      have hsome : (oneTable.tables 0x1000 (5 / 1024)).isSome :=
        (Vmm.isSome_tables_iff (by norm_num)).2 (oneTable_ne_zero (by decide))
      rw [hslot]
      exact hsome
    · rw [Vmm.frames_stock] at hnil
      exact absurd (congrArg Prod.fst (pmmngrAllocBlock_of_freeList_nil hnil)) (by decide +kernel)

theorem meets_oneTable : Meets (step (2 ^ 27 + 1)) (Conforms (2 ^ 27 + 1))
    (boot HeapRun.oneTableHeap Pool.emptyHeap) [.malloc 100 0] :=
  ⟨⟨by decide, fun _ => granted_oneTable⟩, trivial⟩

section Boot

variable (hn : 2 ^ 27 < n) {vm : Heap} {s : Liballoc} {cs : List PoolCall}
  (hb : (initHeap vm).2.Backed frame)

include hn hb

end Boot

section Boot

variable (hn : 2 ^ 27 < n) {vm : Heap} {s : Liballoc} {cs : List PoolCall}
  (hb : (initHeap vm).2.Backed frame)

include hn hb

end Boot

section Boot

variable (hn : 2 ^ 27 < n) {vm : Heap} {s : Liballoc} {cs : List PoolCall}
  (hb : (initHeap vm).2.Backed frame)

include hn hb

end Boot

end KernelHeap

end Scorch
