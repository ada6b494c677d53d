import Scorch.Heap
import Scorch.RangeRelease
import Scorch.TableOrder

/-!
# The frames behind the heap

`Backed h frame` says that every page from `KHEAP` up to `heaptop` is mapped, page `q` to the
frame `frame q`, that no two pages have the same frame, and that these frames are marked in the
bitmap and hold neither a page table nor the directory. A call of `liballoc_alloc` keeps the
frames of the pages that were there (`Backed.liballocAlloc`) when the call is `Granted` : the
search of the bitmap finds clear frames, the heap ends below 4 GiB, and there are frames for the
tables.

`liballoc_free` changes nothing (`Backed.liballocFree_eq`). The pages it is called for are mapped,
and `vmmngr_dealloc_pages_at_virtual_address` does nothing for a page that is mapped.

The step has the loop over the new pages inside. It goes through because the frames for tables are
free ones, taken in ascending order, so that no new table lies before one in use, and because the
run that was found is taken out of the free frames before the first page is mapped.
-/

open ByteMemory GuardedRun

namespace Scorch

open Pmm

/-- `liballoc_free (ptr, pages)`. -/
def liballocFree (s : Heap) (ptr pages : Word) : Word × Heap :=
  let r := vmmngrDeallocPagesAtVirtualAddress s.vmm pages ptr
  (if r.1 then 1 else 0, { s with vmm := r.2 })

namespace Heap

/-- The directory in use. -/
def dir (h : Heap) : Word :=
  h.vmm.curDirectory

/-- The numbers of the pages of the heap. -/
def pages (h : Heap) : Set ℕ :=
  Set.Ico (kheap.toNat / 4096) (h.heaptop.toNat / 4096)

/-- The memory manager after `n` frames from `f` on were marked. -/
def granted (h : Heap) (f : ℕ) (n : Word) : Vmm :=
  { h.vmm with pmm := h.vmm.pmm.granted f n }

/-- Every page of the heap has a frame of its own. -/
structure Backed (h : Heap) (frame : ℕ → ℕ) : Prop where
  isPage : IsPage h.heaptop
  kheap_le : kheap.toNat ≤ h.heaptop.toNat
  sound : h.vmm.Sound h.dir
  ascending : (h.vmm.stock h.dir).Ascending
  /-- The memory ends below the heap. -/
  low : ∀ f ∈ h.vmm.pmm.freeList, f < kheap.toNat / 4096
  tablesUsed : h.vmm.TablesUsed h.dir
  dirUsed : h.dir.toNat / 4096 ∈ h.vmm.pmm.used
  hasTable : ∀ q ∈ h.pages, (h.vmm.tables h.dir (q / 1024)).isSome
  maps : ∀ q ∈ h.pages, vmmngrGetPhysicalAddress h.vmm h.dir (frameAddr q) = frameEntry (frame q)
  used : ∀ q ∈ h.pages, frame q ∈ h.vmm.pmm.used
  apart : ∀ q ∈ h.pages, frame q < 2 ^ 20 ∧ frame q ≠ h.dir.toNat / 4096 ∧
    ∀ slot, h.vmm.tables h.dir slot ≠ some (frame q)
  inj : Set.InjOn frame h.pages

/-- What a call of `liballoc_alloc` needs. -/
structure Granted (h : Heap) (n outmem : Word) : Prop where
  rejected : h.vmm.Rejects n h.heaptop → outmem = 0
  clear : ∀ f, h.vmm.pmm.Finds n f →
    f + n.toNat ≤ 2 ^ 20 ∧ Disjoint (Set.Ico f (f + n.toNat)) h.vmm.pmm.used
  room : ¬h.vmm.Rejects n h.heaptop → h.heaptop.toNat + 4096 * n.toNat < 2 ^ 32
  served : ¬h.vmm.Rejects n h.heaptop → ∀ f, h.vmm.pmm.Finds n f → ∀ i < n.toNat,
    let st := (h.granted f n).stock h.dir
    Meets Stock.after Stock.Served (st.afterPages (h.heaptop.toNat / 4096) f i)
      (st.pageEffects (h.heaptop.toNat / 4096) f i)

/-- A frame that can be handed out is not in use. -/
theorem notMem_used_of_mem_freeList {s : Pmm} {f : ℕ} (h : f ∈ s.freeList) : f ∉ s.used :=
  fun hused => by
    have hclear := (mem_clear_of_mem_freeList h).2
    rw [hused.2] at hclear
    exact nomatch hclear

variable {h : Heap} {frame : ℕ → ℕ} {n outmem : Word}

/-- The top of the heap is above `KHEAP`. -/
theorem Backed.heaptop_ne_zero (hb : h.Backed frame) : h.heaptop ≠ 0 := fun h0 => by
  have hle := hb.kheap_le
  rw [h0] at hle
  exact absurd hle (by decide)

/-- A call that is rejected leaves the heap alone. -/
theorem Backed.liballocAlloc_of_rejects (hb : h.Backed frame) (hg : h.Granted n outmem)
    (hr : h.vmm.Rejects n h.heaptop) : liballocAlloc h outmem n = (0, h) := by
  have hsame : (vmmngrAllocPagesAtVirtualAddress h.vmm n h.heaptop).2 = h.vmm := by
    rcases h.vmm.allocPages_cases n h.heaptop with ⟨-, heq⟩ | ⟨-, hrefuse, heq⟩ |
      ⟨hget, hgrant, -⟩
    · rw [heq]
    · rcases pmmngrAllocBlocks_cases h.vmm.pmm n with ⟨halloc, -⟩ | ⟨f, hcount, hn, hf, -⟩
      · rw [heq, halloc]
      · -- the frame that is found does not have a null address
        have hend := (hg.clear f hf).1
        have hpos := BitVec.toNat_pos_of_ne_zero hn
        have hne := hb.sound.frameAddr_ne_zero hcount hf (by omega)
        rcases hrefuse with hle | h0 | hnull
        · exact absurd hcount (BitVec.not_lt.2 hle)
        · exact absurd h0 hn
        · exact absurd (hnull f hf) hne
    · exact absurd hr (by simp [Vmm.Rejects, hget, hgrant])
  rw [HeapRun.liballocAlloc_of_rejects hr, hsame, hg.rejected hr]

section Grant

variable {f : ℕ} (hb : h.Backed frame) (hg : h.Granted n outmem)
  (hr : ¬h.vmm.Rejects n h.heaptop) (hn : n < pmmngrGetFreeBlockCount h.vmm.pmm)
  (hf : h.vmm.pmm.Finds n f)

include hb hg hn hf

/-- The frames that were granted can become pages. -/
theorem Backed.sound_granted : (h.granted f n).Sound h.dir := by
  have hend := (hg.clear f hf).1
  exact hb.sound.granted (by omega) hn

omit hb in
/-- The frames left for tables are free ones outside the run. -/
theorem Granted.mem_freeList {g : ℕ} (hmem : g ∈ (h.vmm.pmm.granted f n).freeList) :
    g ∈ h.vmm.pmm.freeList ∧ g ∉ Set.Ico f (f + n.toNat) := by
  have hend := (hg.clear f hf).1
  exact mem_freeList_granted (by omega) hn hmem

theorem Backed.ascending_granted :
    ((h.granted f n).stock h.dir).Ascending :=
  ⟨fun slot t ht g hmem => hb.ascending.below slot t ht g (hg.mem_freeList hn hf hmem).1,
    pairwise_freeList _⟩

include hr

omit hb hn hf in
theorem Granted.page_mod {i : ℕ} (hi : i < n.toNat) :
    (h.heaptop.toNat / 4096 + i) % 2 ^ 20 = h.heaptop.toNat / 4096 + i := by
  have hroom := hg.room hr
  omega

/-- The pages of a call are not the numbers of frames. -/
theorem Backed.page_notMem {i : ℕ} (hi : i < n.toNat) :
    (h.heaptop.toNat / 4096 + i) % 2 ^ 20 ∉ (h.vmm.pmm.granted f n).freeList := fun hmem => by
  have hlow := hb.low _ (hg.mem_freeList hn hf hmem).1
  rw [hg.page_mod hr hi] at hlow
  have hle := Nat.div_le_div_right (c := 4096) hb.kheap_le
  omega

/-- The mappings of a call complete. -/
theorem Backed.completes :
    ((h.granted f n).stock h.dir).Completes
      (h.heaptop.toNat / 4096) f n.toNat := by
  have hend := (hg.clear f hf).1
  exact (hb.ascending_granted hg hn hf).completes (hb.sound_granted hg hn hf).lt_of_mem_frames
    (by omega) (fun i hi => hb.page_notMem hg hr hn hf hi) (hg.served hr f hf)

/-- The pages of a call get the frames that were found. -/
theorem Backed.maps_new {i : ℕ} (hi : i < n.toNat) :
    vmmngrGetPhysicalAddress (mapPages h.dir n.toNat h.heaptop (frameAddr f)
      (h.granted f n)) h.dir
      (frameAddr (h.heaptop.toNat / 4096 + i)) = frameEntry (f + i) := by
  have hend := (hg.clear f hf).1
  have hsound := hb.sound_granted hg hn hf
  have hget := ((hsound.mapPages_complete_iff h.heaptop hend fun g hmem =>
    (hg.mem_freeList hn hf hmem).2).2 (hb.completes hg hr hn hf)).1 i hi
  rwa [Vmm.getPhysicalAddress_rangePage, hg.page_mod hr hi, Scorch.frameAddr_add] at hget

/-- Every new page has a table after the loop. -/
theorem Backed.hasTable_new {i : ℕ} (hi : i < n.toNat) :
    ((mapPages h.dir n.toNat h.heaptop (frameAddr f)
      (h.granted f n)).tables h.dir
        ((h.heaptop.toNat / 4096 + i) / 1024)).isSome := by
  have hsound := hb.sound_granted hg hn hf
  have hserved := Stock.isSome_of_meets_served (hg.served hr f hf i hi)
  rw [hsound.tables_mapPages]
  refine Stock.isSome_afterPages hi ?_
  rw [← hg.page_mod hr hi]
  exact hserved

/-- The pages that were there keep their frames. -/
theorem Backed.maps_old {q : ℕ} (hq : q ∈ h.pages) :
    vmmngrGetPhysicalAddress (mapPages h.dir n.toNat h.heaptop (frameAddr f)
      (h.granted f n)) h.dir (frameAddr q) = frameEntry (frame q) := by
  have htop := h.heaptop.isLt
  obtain ⟨hlow, hhigh⟩ := hq
  refine (hb.sound_granted hg hn hf).getPhysicalAddress_mapPages_of_ne
    (hb.ascending_granted hg hn hf) (by omega) (hb.hasTable q ⟨hlow, hhigh⟩)
    (frameEntry_present _) (hb.maps q ⟨hlow, hhigh⟩) (fun hmem => ?_) n.toNat fun i hi => ?_
  · exact absurd (hb.low q (hg.mem_freeList hn hf hmem).1) (not_lt.2 hlow)
  · rw [hg.page_mod hr hi]
    omega

omit hr in
/-- A table is in a frame that was used before, or in one that was free after the grant. -/
theorem Backed.tables_cases {slot t : ℕ}
    (ht : (mapPages h.dir n.toNat h.heaptop (frameAddr f)
      (h.granted f n)).tables h.dir slot = some t) :
    h.vmm.tables h.dir slot = some t ∨ t ∈ (h.vmm.pmm.granted f n).freeList := by
  have hsound := hb.sound_granted hg hn hf
  rw [hsound.tables_mapPages] at ht
  exact Stock.table_afterPages hsound.lt_of_mem_frames n.toNat ht

/-- The heap after the call. -/
def extended (h : Heap) (f : ℕ) (n : Word) : Heap where
  vmm := mapPages h.dir n.toNat h.heaptop (frameAddr f) (h.granted f n)
  heaptop := h.heaptop + 4096 * n

/-- The frames of its pages. -/
def extendedFrame (h : Heap) (frame : ℕ → ℕ) (f q : ℕ) : ℕ :=
  if q < h.heaptop.toNat / 4096 then frame q else f + (q - h.heaptop.toNat / 4096)

/-- The heap with the new pages is backed : the old pages keep their frames, since no table made
on the way spoils them, and the new ones have those of the run. -/
theorem Backed.extended : (h.extended f n).Backed (h.extendedFrame frame f) := by
  have hsound := hb.sound_granted hg hn hf
  obtain ⟨hend, hclear⟩ := hg.clear f hf
  have hroom := hg.room hr
  have htop : (h.extended f n).heaptop.toNat = h.heaptop.toNat + 4096 * n.toNat :=
    HeapRun.toNat_heaptop_add hroom
  have hdir : (h.extended f n).dir = h.dir := hsound.curDirectory_mapPages _ _ _
  have hisPage : h.heaptop.toNat % 4096 = 0 := hb.isPage
  have hfree : ∀ g ∈ (h.extended f n).vmm.pmm.freeList,
      g ∈ (h.granted f n).pmm.freeList := fun g hmem => by
    have hsub := Stock.frames_afterPages_subset ((h.granted f n).stock h.dir)
      (h.heaptop.toNat / 4096) f n.toNat
    rw [← (hsound.mapPages h.heaptop f n.toNat).2] at hsub
    exact hsub hmem
  have hused : h.vmm.pmm.used ∪ Set.Ico f (f + n.toNat) ⊆ (h.extended f n).vmm.pmm.used := by
    rw [← used_granted h.vmm.pmm (by omega)]
    exact hsound.used_subset_mapPages _ _ _
  -- a page is an old one or one of those that were asked for
  have hpages : ∀ q ∈ (h.extended f n).pages, q ∈ h.pages ∧ h.extendedFrame frame f q = frame q ∨
      ∃ i < n.toNat, q = h.heaptop.toNat / 4096 + i ∧ h.extendedFrame frame f q = f + i := by
    rintro q ⟨hlow, hhigh⟩
    rw [htop] at hhigh
    rcases Nat.lt_or_ge q (h.heaptop.toNat / 4096) with hlt | hge
    · exact Or.inl ⟨⟨hlow, hlt⟩, if_pos hlt⟩
    · exact Or.inr ⟨q - h.heaptop.toNat / 4096, by omega, by omega, if_neg (not_lt.2 hge)⟩
  refine ⟨?_, ?_, ?_, ?_, ?_, ?_, ?_, fun q hq => ?_, fun q hq => ?_, fun q hq => ?_,
    fun q hq => ?_, fun q hq q' hq' heq => ?_⟩
  · exact HeapRun.isPage_heaptop_add hb.isPage hroom
  · rw [htop]
    exact hb.kheap_le.trans (Nat.le_add_right _ _)
  · rw [hdir]
    exact (hsound.mapPages _ _ _).1
  · have hasc := (hb.ascending_granted hg hn hf).afterPages hsound.lt_of_mem_frames
      (q := h.heaptop.toNat / 4096) (f := f) n.toNat
    rw [← (hsound.mapPages h.heaptop f n.toNat).2] at hasc
    rw [hdir]
    exact hasc
  · exact fun g hmem => hb.low g (hg.mem_freeList hn hf (hfree g hmem)).1
  · rw [hdir]
    refine hsound.tablesUsed_mapPages (fun slot t ht => ?_) _ _ _
    exact used_subset_granted _ _ _ (hb.tablesUsed slot t ht)
  · rw [hdir]
    exact hused (Or.inl hb.dirUsed)
  · rw [hdir]
    rcases hpages q hq with ⟨hold, -⟩ | ⟨i, hi, rfl, -⟩
    · show ((mapPages _ _ _ _ _).tables _ _).isSome
      rw [hsound.tables_mapPages]
      exact Stock.isSome_afterPages (Nat.zero_le _) (hb.hasTable q hold)
    · exact hb.hasTable_new hg hr hn hf hi
  · rw [hdir]
    rcases hpages q hq with ⟨hold, hframe⟩ | ⟨i, hi, rfl, hframe⟩
    · rw [hframe]
      exact hb.maps_old hg hr hn hf hold
    · rw [hframe]
      exact hb.maps_new hg hr hn hf hi
  · rcases hpages q hq with ⟨hold, hframe⟩ | ⟨i, hi, rfl, hframe⟩
    · rw [hframe]
      exact hused (Or.inl (hb.used q hold))
    · rw [hframe]
      exact hused (Or.inr ⟨by omega, by omega⟩)
  · rw [hdir]
    rcases hpages q hq with ⟨hold, hframe⟩ | ⟨i, hi, rfl, hframe⟩
    · obtain ⟨hlt, hne, htable⟩ := hb.apart q hold
      rw [hframe]
      refine ⟨hlt, hne, fun slot ht => ?_⟩
      rcases hb.tables_cases hg hn hf ht with hold' | hmem
      · exact htable slot hold'
      · exact notMem_used_of_mem_freeList (hg.mem_freeList hn hf hmem).1 (hb.used q hold)
    · have hnot : f + i ∉ h.vmm.pmm.used :=
        Set.disjoint_left.1 hclear ⟨by omega, by omega⟩
      rw [hframe]
      refine ⟨by omega, fun heq => hnot (heq ▸ hb.dirUsed), fun slot ht => ?_⟩
      rcases hb.tables_cases hg hn hf ht with hold' | hmem
      · exact hnot (hb.tablesUsed slot _ hold')
      · exact (hg.mem_freeList hn hf hmem).2 ⟨by omega, by omega⟩
  · have hne : ∀ q ∈ h.pages, ∀ i < n.toNat, frame q ≠ f + i := fun q hq i hi heq =>
      Set.disjoint_left.1 hclear ⟨by omega, by omega⟩ (heq ▸ hb.used q hq)
    rcases hpages q hq with ⟨hold, hframe⟩ | ⟨i, hi, hqi, hframe⟩ <;>
      rcases hpages q' hq' with ⟨hold', hframe'⟩ | ⟨j, hj, hqj, hframe'⟩ <;>
      rw [hframe, hframe'] at heq
    · exact hb.inj hold hold' heq
    · exact absurd heq (hne q hold j hj)
    · exact absurd heq.symm (hne q' hold' i hi)
    · omega

end Grant

/-- A call that is granted keeps the frames of the pages that were there. It returns null and
changes nothing, or returns `heaptop` and moves it behind the pages. -/
theorem Backed.liballocAlloc (hb : h.Backed frame) (hg : h.Granted n outmem) :
    Scorch.liballocAlloc h outmem n = (0, h) ∨
      ∃ h' frame', Scorch.liballocAlloc h outmem n = (h.heaptop, h') ∧ h'.Backed frame' ∧
        (∀ q ∈ h.pages, frame' q = frame q) ∧
        h'.heaptop.toNat = h.heaptop.toNat + 4096 * n.toNat ∧
        h.vmm.pmm.used ⊆ h'.vmm.pmm.used := by
  by_cases hr : h.vmm.Rejects n h.heaptop
  · exact Or.inl (hb.liballocAlloc_of_rejects hg hr)
  · rcases h.vmm.allocPages_cases n h.heaptop with ⟨hget, -⟩ | ⟨-, hrefuse, -⟩ |
      ⟨-, -, f, hn, -, hf, -, -, heq⟩
    · exact absurd (Or.inl hget) hr
    · exact absurd (Or.inr hrefuse) hr
    · have hsound := hb.sound_granted hg hn hf
      refine Or.inr ⟨h.extended f n, h.extendedFrame frame f, ?_, hb.extended hg hr hn hf,
        fun q hq => if_pos hq.2, HeapRun.toNat_heaptop_add (hg.room hr),
        (used_subset_granted _ f n).trans (hsound.used_subset_mapPages _ _ _)⟩
      rw [HeapRun.liballocAlloc_of_not_rejects hr, heq]
      rfl

/-- Where the pages of the free frames have tables, one frame is enough for a range in one slot. -/
theorem served_of_slot {st : Stock} {q f n : ℕ}
    (hlow : ∀ g ∈ st.frames, (st.table (g / 1024)).isSome) (hne : st.frames ≠ [])
    (hslot : ∀ i < n, (q + i) % 2 ^ 20 / 1024 = q % 2 ^ 20 / 1024) :
    ∀ i < n, Meets Stock.after Stock.Served (st.afterPages q f i) (st.pageEffects q f i) := by
  obtain ⟨g, rest, hframes⟩ := List.exists_cons_of_ne_nil hne
  have hfirst : Meets Stock.after Stock.Served (st.afterPages q f 0) (st.pageEffects q f 0) :=
    Stock.meets_served_of_frames_eq hframes (hlow g (hframes ▸ List.mem_cons_self)) _ _
  intro i hi
  cases i with
  | zero => exact hfirst
  | succ i =>
    have hsome := Stock.isSome_afterPages (Nat.succ_le_succ i.zero_le)
      (Stock.isSome_of_meets_served hfirst)
    rw [Nat.add_zero, ← hslot (i + 1) hi] at hsome
    rw [Stock.pageEffects, Stock.mapping, Stock.effects_of_isSome hsome]
    exact ⟨hsome, trivial⟩

/-- A page of the heap is mapped, so it cannot be given back. -/
theorem Backed.liballocFree_eq (hb : h.Backed frame) {ptr pages : Word}
    (hptr : ptr.toNat / 4096 ∈ h.pages) : liballocFree h ptr pages = (0, h) := by
  have hne : vmmngrGetPhysicalAddress h.vmm h.vmm.curDirectory ptr ≠ 0 := by
    have hpage : pageOf ptr = pageOf (frameAddr (ptr.toNat / 4096)) := by
      rw [pageOf_eq_frameAddr, pageOf_frameAddr]
    rw [h.vmm.getPhysicalAddress_of_pageOf_eq _ hpage]
    have hmaps := hb.maps _ hptr
    rw [show h.vmm.curDirectory = h.dir from rfl, hmaps]
    exact frameEntry_ne_zero _
  rw [liballocFree, vmmngrDeallocPagesAtVirtualAddress, if_pos hne]
  rfl

end Heap

end Scorch
