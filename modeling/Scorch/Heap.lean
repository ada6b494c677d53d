import Scorch.PageRange

/-!
# The heap hook

`init_heap` and `liballoc_alloc` : the heap grows upwards from `KHEAP`, a range of fresh
pages for every call. The address is put into a local variable when the pages were
allocated and returned in any case, so a call that is refused returns what the stack held.

`Allowed` is the condition under which a call keeps the contract of `liballoc.h`. A run
whose calls all meet it returns page-aligned ranges below `heaptop`, no two of which share
an address (`delivers_of_allowed`).
-/

open ByteMemory GuardedRun

namespace Scorch

open Pmm

/-- `KHEAP`. -/
def kheap : Word := 0xC8000000

/-- The memory manager and `heaptop`. -/
structure Heap where
  vmm : Vmm
  heaptop : Word

/-- `init_heap` : the top of the heap is `KHEAP`. -/
def initHeap (s : Heap) : Bool × Heap :=
  (true, { s with heaptop := kheap })

/-- `outmem` is what the local variable of that name holds before it is assigned. -/
def liballocAlloc (s : Heap) (outmem pages : Word) : Word × Heap :=
  let valid := (vmmngrAllocPagesAtVirtualAddress s.vmm pages s.heaptop).1
  let s := { s with vmm := (vmmngrAllocPagesAtVirtualAddress s.vmm pages s.heaptop).2 }
  if valid then (s.heaptop, { s with heaptop := s.heaptop + 4096 * pages })
  else (outmem, s)

/-- A page can be mapped when a frame is left whose own page has a table. -/
theorem Stock.meets_served_of_frames_eq {st : Stock} {g : ℕ} {rest : List ℕ}
    (hframes : st.frames = g :: rest) (hg : (st.table (g / 1024)).isSome) (page : ℕ)
    (value : Word) : Meets after Served st (st.mapping page value) := by
  by_cases hpage : (st.table (page / 1024)).isSome
  · rw [mapping, effects_of_isSome hpage]
    exact ⟨hpage, trivial⟩
  · have hafter : ∀ slot, (st.table slot).isSome →
        (Function.update st.table (page / 1024) (some g) slot).isSome :=
      fun slot hslot => isSome_after hslot (.install (page / 1024) g)
    rw [mapping, hframes, effects, if_neg hpage, effects_of_isSome (hafter _ hg)]
    refine ⟨trivial, hafter _ hg, ?_, trivial⟩
    show (Function.update st.table (page / 1024) (some g) (page / 1024)).isSome
    rw [Function.update_self]
    rfl

namespace Vmm

/-- Where the next frame has a table, one page can be mapped. -/
theorem completes_one_of_freeList_eq (s : Vmm) (dir virt : Word) (f : ℕ) {g : ℕ} {rest : List ℕ}
    (hlist : s.pmm.freeList = g :: rest) (hg : (s.tables dir (g / 1024)).isSome) :
    (s.stock dir).Completes (virt.toNat / 4096) f 1 := by
  intro i hi
  obtain rfl : i = 0 := Nat.lt_one_iff.1 hi
  exact ⟨Stock.meets_served_of_frames_eq hlist hg _ _,
    fun j hj => absurd hj (Nat.not_lt_zero j)⟩

/-- The page is present. -/
def Mapped (s : Vmm) (virt : Word) : Prop :=
  (vmmngrGetPhysicalAddress s s.curDirectory virt).getLsbD 0 = true

/-- `vmmngr_alloc_pages_at_virtual_address` reports failure. -/
def Rejects (s : Vmm) (n virt : Word) : Prop :=
  vmmngrGetPhysicalAddress s s.curDirectory virt ≠ 0 ∨ s.pmm.Refuses n

/-- The pages are refused for the reasons that can be seen before. -/
theorem allocPages_fst_eq_false_iff (s : Vmm) (n virt : Word) :
    (vmmngrAllocPagesAtVirtualAddress s n virt).1 = false ↔ s.Rejects n virt := by
  rcases s.allocPages_cases n virt with ⟨hget, heq⟩ | ⟨-, hrefuse, heq⟩ |
    ⟨hget, hgrant, f, -, -, -, -, -, heq⟩
  · rw [heq]
    exact iff_of_true rfl (Or.inl hget)
  · rw [heq]
    exact iff_of_true rfl (Or.inr hrefuse)
  · rw [heq]
    exact iff_of_false (by simp) (by simp [Rejects, hget, hgrant])

/-- The frames granted for `n` pages at `virt` lie below 4 GiB, and their mappings
complete. -/
def Supplies (s : Vmm) (n virt : Word) : Prop :=
  s.Sound s.curDirectory ∧ ∀ f, s.pmm.Finds n f → f + n.toNat ≤ 2 ^ 20 ∧
    ({ s with pmm := s.pmm.granted f n }.stock s.curDirectory).Completes
      (virt.toNat / 4096) f n.toNat

/-- An allocation that is supplied maps the whole range. -/
theorem Supplies.mapped {s : Vmm} {n virt : Word} (h : s.Supplies n virt)
    (hgrant : ¬s.Rejects n virt) {i : ℕ} (hi : i < n.toNat) :
    (vmmngrAllocPagesAtVirtualAddress s n virt).2.Mapped (rangePage virt i) := by
  rcases s.allocPages_cases n virt with ⟨hget, -⟩ | ⟨-, hrefuse, -⟩ |
    ⟨-, -, f, hn, -, hf, -, -, heq⟩
  · exact absurd (Or.inl hget) hgrant
  · exact absurd (Or.inr hrefuse) hgrant
  · obtain ⟨hend, hc⟩ := h.2 f hf
    have hsound := h.1.granted (f := f) (n := n) (by omega) hn
    have hfresh : ∀ g ∈ (s.pmm.granted f n).freeList, g ∉ Set.Ico f (f + n.toNat) :=
      fun g hg => (mem_freeList_granted (by omega) hn hg).2
    have hget := ((hsound.mapPages_complete_iff virt hend hfresh).2 hc).1 i hi
    have hcur := hsound.curDirectory_mapPages virt f n.toNat
    rw [heq, Mapped, hcur, hget, BitVec.getLsbD_or, Bool.or_eq_true]
    exact Or.inr rfl

end Vmm

/-! ## Runs of the hook -/

/-- A call of `liballoc_alloc` with at least one page. -/
structure AllocCall where
  pages : Word
  pages_pos : 0 < pages.toInt
  /-- What the stack holds in the place of `outmem`. -/
  outmem : Word

/-- A call asks for a page at least, and not for a negative number. -/
theorem AllocCall.toNat_pages (c : AllocCall) : 0 < c.pages.toNat ∧ c.pages.toNat < 2 ^ 31 := by
  have h := c.pages_pos
  rw [BitVec.toInt_eq_toNat_cond] at h
  split_ifs at h
  · omega
  · have := c.pages.isLt
    omega

/-- The heap with the ranges returned so far, as addresses and numbers of pages. -/
structure HeapRun where
  heap : Heap
  returned : List (Word × Word)

namespace HeapRun

/-- `init_heap`, before any range is returned. -/
def init (s : Heap) : HeapRun where
  heap := (initHeap s).2
  returned := []

/-- A call, and the range it returns unless that is null. -/
def step (s : HeapRun) (c : AllocCall) : HeapRun :=
  let r := liballocAlloc s.heap c.outmem c.pages
  { heap := r.2
    returned := if r.1 = 0 then s.returned else (r.1, c.pages) :: s.returned }

/-- The bytes of a range. -/
def bytes (r : Word × Word) : Set Word :=
  Mem.block r.1 (4096 * r.2.toNat)

/-- The call returns null and leaves `heaptop` alone, or returns the range at `heaptop`,
page-aligned, mapped and apart from the ranges returned before, and moves `heaptop` to its
end. -/
def Delivers (s : HeapRun) (c : AllocCall) : Prop :=
  let r := liballocAlloc s.heap c.outmem c.pages
  r.1 = 0 ∧ r.2.heaptop = s.heap.heaptop ∨
    r.1 = s.heap.heaptop ∧ IsPage s.heap.heaptop ∧
      r.2.heaptop.toNat = s.heap.heaptop.toNat + 4096 * c.pages.toNat ∧
      (∀ i < c.pages.toNat, r.2.vmm.Mapped (rangePage s.heap.heaptop i)) ∧
      ∀ b ∈ s.returned, Disjoint (bytes b) (bytes (s.heap.heaptop, c.pages))

/-- A call that is rejected finds zero on the stack. One that is not leaves the heap below
4 GiB and is supplied. -/
def Allowed (s : HeapRun) (c : AllocCall) : Prop :=
  (s.heap.vmm.Rejects c.pages s.heap.heaptop → c.outmem = 0) ∧
    (¬s.heap.vmm.Rejects c.pages s.heap.heaptop →
      s.heap.heaptop.toNat + 4096 * c.pages.toNat < 2 ^ 32 ∧
        s.heap.vmm.Supplies c.pages s.heap.heaptop)

/-- The ranges returned lie below `heaptop`, which is a page of the heap. -/
structure Grown (s : HeapRun) : Prop where
  isPage : IsPage s.heap.heaptop
  kheap_le : kheap.toNat ≤ s.heap.heaptop.toNat
  below : ∀ b ∈ s.returned, b.1.toNat + 4096 * b.2.toNat ≤ s.heap.heaptop.toNat

theorem isPage_kheap : IsPage kheap :=
  rfl

/-- After `init_heap` nothing has been handed out. -/
theorem grown_init (s : Heap) : (init s).Grown :=
  ⟨isPage_kheap, le_rfl, by simp [init]⟩

/-- A rejected call returns what the stack held. -/
theorem liballocAlloc_of_rejects {s : Heap} {pages : Word}
    (h : s.vmm.Rejects pages s.heaptop) (outmem : Word) :
    liballocAlloc s outmem pages =
      (outmem, { s with vmm := (vmmngrAllocPagesAtVirtualAddress s.vmm pages s.heaptop).2 }) := by
  have hvalid := (s.vmm.allocPages_fst_eq_false_iff pages s.heaptop).2 h
  simp [liballocAlloc, hvalid]

/-- A request that is not refused gets the top of the heap, which moves up. -/
theorem liballocAlloc_of_not_rejects {s : Heap} {pages : Word}
    (h : ¬s.vmm.Rejects pages s.heaptop) (outmem : Word) :
    liballocAlloc s outmem pages =
      (s.heaptop, {
        vmm := (vmmngrAllocPagesAtVirtualAddress s.vmm pages s.heaptop).2
        heaptop := s.heaptop + 4096 * pages }) := by
  have hvalid := mt (s.vmm.allocPages_fst_eq_false_iff pages s.heaptop).1 h
  simp [liballocAlloc, hvalid]

/-- A rejected call delivers exactly when the stack held zero. -/
theorem delivers_iff_of_rejects {s : HeapRun} {c : AllocCall}
    (h : s.heap.vmm.Rejects c.pages s.heap.heaptop) : s.Delivers c ↔ c.outmem = 0 := by
  rw [Delivers, liballocAlloc_of_rejects h]
  constructor
  · rintro (⟨hnull, -⟩ | ⟨-, -, htop, -⟩)
    · exact hnull
    · have := c.toNat_pages
      exact absurd htop (by simp only; omega)
  · exact fun hnull => Or.inl ⟨hnull, rfl⟩

/-- The top does not wrap while the pages fit. -/
theorem toNat_heaptop_add {a n : Word} (h : a.toNat + 4096 * n.toNat < 2 ^ 32) :
    (a + 4096 * n).toNat = a.toNat + 4096 * n.toNat := by
  have h4096 : (4096 : Word).toNat = 4096 := rfl
  rw [BitVec.toNat_add, BitVec.toNat_mul, h4096]
  omega

theorem isPage_heaptop_add {a : Word} (ha : IsPage a) {n : Word}
    (h : a.toNat + 4096 * n.toNat < 2 ^ 32) : IsPage (a + 4096 * n) := by
  unfold IsPage at ha ⊢
  rw [toNat_heaptop_add h]
  omega

section Step

variable {s : HeapRun} {c : AllocCall} (hg : s.Grown) (ha : s.Allowed c)

include hg ha

/-- An allowed call delivers. -/
theorem Grown.delivers : s.Delivers c := by
  by_cases hr : s.heap.vmm.Rejects c.pages s.heap.heaptop
  · exact (delivers_iff_of_rejects hr).2 (ha.1 hr)
  · obtain ⟨hend, hsupply⟩ := ha.2 hr
    right
    rw [liballocAlloc_of_not_rejects hr]
    refine ⟨rfl, hg.isPage, toNat_heaptop_add hend, fun i hi => hsupply.mapped hr hi,
      fun b hb => ?_⟩
    exact Set.disjoint_left.2 fun x hx => Mem.notMem_block_of_le (hg.below b hb) hend.le hx

/-- An allowed call keeps the ranges below `heaptop`. -/
theorem Grown.step : (s.step c).Grown := by
  by_cases hr : s.heap.vmm.Rejects c.pages s.heap.heaptop
  · have hstep : s.step c = { s with heap :=
        { s.heap with
          vmm := (vmmngrAllocPagesAtVirtualAddress s.heap.vmm c.pages s.heap.heaptop).2 } } := by
      simp [HeapRun.step, liballocAlloc_of_rejects hr, ha.1 hr]
    rw [hstep]
    exact ⟨hg.isPage, hg.kheap_le, hg.below⟩
  · obtain ⟨hend, -⟩ := ha.2 hr
    have htop : (s.step c).heap.heaptop = s.heap.heaptop + 4096 * c.pages := by
      simp [HeapRun.step, liballocAlloc_of_not_rejects hr]
    have hne : s.heap.heaptop ≠ 0 := fun h0 => by
      have := hg.kheap_le
      rw [h0] at this
      exact absurd this (by decide)
    have hret : (s.step c).returned = (s.heap.heaptop, c.pages) :: s.returned := by
      rw [HeapRun.step, liballocAlloc_of_not_rejects hr]
      exact if_neg hne
    refine ⟨?_, ?_, ?_⟩
    · rw [htop]
      exact isPage_heaptop_add hg.isPage hend
    · rw [htop, toNat_heaptop_add hend]
      exact hg.kheap_le.trans (Nat.le_add_right _ _)
    · rw [htop, toNat_heaptop_add hend, hret]
      intro b hb
      rcases List.mem_cons.1 hb with rfl | hb
      · exact le_rfl
      · exact (hg.below b hb).trans (Nat.le_add_right _ _)

end Step

/-- Where no call is rejected with something else than zero on the stack, the heap stays
below 4 GiB and every allocation is supplied, each call delivers its range. -/
theorem delivers_of_allowed (s : Heap) {cs : List AllocCall}
    (h : Meets step Allowed (init s) cs) : Meets step Delivers (init s) cs := by
  exact h.imp (fun _ _ hg ha => hg.step ha) (fun _ _ hg ha => hg.delivers ha) (grown_init s)

/-- The heap of `oneTable` before `init_heap`. -/
def oneTableHeap : Heap where
  vmm := oneTable
  heaptop := 0

theorem not_rejects_oneTable : ¬oneTable.Rejects 1 kheap := by
  rintro (hget | hrefuse)
  · exact hget (oneTable_unmapped _)
  · exact absurd ((pmmngrAllocBlocks_eq_zero_iff _ _).2 hrefuse) (by decide)

/-- The search finds frame `3`, and a frame is left for the table of the heap. -/
theorem supplies_oneTable : oneTable.Supplies 1 kheap := by
  refine ⟨Vmm.oneTable_sound, fun f hf => ⟨Vmm.finds_one_oneTable hf, ?_⟩⟩
  have hmem : 3 ∈ threeUsed.clear := ⟨by decide, by decide⟩
  obtain rfl : f = 3 :=
    le_antisymm (hf.isLeast_clear.2 hmem) (Vmm.clear_threeUsed hf.isLeast_clear.1).1
  have hne : (threeUsed.granted 3 1).freeList ≠ [] := fun hnil =>
    absurd (congrArg Prod.fst (pmmngrAllocBlock_of_freeList_nil hnil)) (by decide)
  obtain ⟨g, rest, hlist⟩ := List.exists_cons_of_ne_nil hne
  have hend : 3 + (1 : Word).toNat ≤ 2 ^ 31 := by decide
  have hg : g ∈ threeUsed.freeList :=
    (mem_freeList_granted hend (by decide) (hlist ▸ List.mem_cons_self)).1
  have hslot : g / 1024 = 0 := by
    have := Vmm.clear_threeUsed (mem_clear_of_mem_freeList hg)
    omega
  have hsome : (({ oneTable with pmm := threeUsed.granted 3 1 } : Vmm).tables 0x1000
      (5 / 1024)).isSome :=
    (Vmm.isSome_tables_iff (by norm_num)).2 (oneTable_ne_zero (by decide))
  exact Vmm.completes_one_of_freeList_eq _ 0x1000 kheap 3 hlist (hslot ▸ hsome)

/-- The first call of the example is allowed. -/
theorem allowed_oneTable : (init oneTableHeap).Allowed ⟨1, by decide, 0xDEADBEEF⟩ := by
  refine ⟨fun hr => absurd hr not_rejects_oneTable, fun _ => ?_⟩
  exact ⟨by decide, supplies_oneTable⟩

/-- A page of the heap where the stack holds garbage. -/
theorem delivers_oneTable :
    Meets step Delivers (init oneTableHeap) [⟨1, by decide, 0xDEADBEEF⟩] := by
  exact delivers_of_allowed oneTableHeap ((meets_cons _ _ _).2 ⟨allowed_oneTable, meets_nil _⟩)

/-- A request for more blocks than are free returns the garbage on the stack. -/
theorem not_delivers :
    ¬∀ (s : Heap) (cs : List AllocCall), Meets step Delivers (init s) cs := by
  intro h
  have hrejects : oneTable.Rejects 64 kheap :=
    Or.inr ((pmmngrAllocBlocks_eq_zero_iff _ _).1 (by decide))
  have hd := ((meets_cons _ _ _).1 (h oneTableHeap [⟨64, by decide, 0xDEADBEEF⟩])).1
  have hnull := (delivers_iff_of_rejects (s := init oneTableHeap)
    (c := ⟨64, by decide, 0xDEADBEEF⟩) hrejects).1 hd
  exact absurd hnull (by decide)

end HeapRun

end Scorch
