import Scorch.BlockRelease

/-!
# Supply of a block

`malloc` takes the first block of its list that is long enough (`Wf.findTag_eq`), or asks
`liballoc_alloc` for a range. The block leaves its list (`Orderly.take`), or is the only one of
the new range (`Orderly.allocateNewTag`), gets its size (`Orderly.setSize`), and what it has
beyond that may become a free block of its own (`Orderly.splitTag`).

The steps follow the branches of the code, each as one step of the order of the blocks :

* the search asks for room for a second tag (`fitsIn`), so a block that is found can be cut;
* a cut makes no two free blocks neighbours : the new tag counts as handed out until it is in
  its list (`Orderly.parted_cut`), and makes no range whole (`Orderly.countP_cut`);
* `Orderly.takeOut` and `Orderly.malloc` put the steps together. What `malloc` asks
  `liballoc_alloc` for, and when, is `Asks`.
-/

open ByteMemory

namespace Scorch

namespace Liballoc

variable {s s' : Liballoc} {L L' : Layout} {t u v size : Word} {r r' : ℕ × ℕ} {k n : ℕ}
  {ls rs xs ys : List Word}

/-! ## The search -/

/-- The search asks for room for a second tag. -/
def fitsIn (s : Liballoc) (size t : Word) : Bool :=
  s.get t .realSize - 32 ≥ size + 32

/-- A tag that fits has room for the block and for the tag of what is left. -/
theorem Wf.fitsIn_iff (h : Wf s L) (ht : L.Has t) (hsize : size.toNat + 32 < 2 ^ 32) :
    s.fitsIn size t ↔ size.toNat + 64 ≤ s.real t := by
  have hheader := h.header t ht
  unfold fitsIn
  rw [decide_eq_true_iff, ge_iff_le, BitVec.le_def]
  unfold real at *
  bv_omega

/-- From a tag on, the search finds the first one with room. -/
theorem Wf.findTag_headD (h : Wf s L) (hlist : L.lists k = xs ++ ys) (hn : ys.length < n) :
    s.findTag size n (ys.headD 0) = some ((ys.find? (s.fitsIn size)).getD 0) := by
  induction n generalizing xs ys with
  | zero => exact absurd hn (Nat.not_lt_zero _)
  | succ n ih =>
    cases ys with
    | nil =>
      rw [findTag]
      exact if_pos rfl
    | cons t ys =>
      have ht : t ∈ L.lists k := by simp [hlist]
      have hnext := (h.list_neighbours hlist).2
      rw [findTag, List.headD_cons, if_neg (h.ne_zero (h.has_of_mem ht)), List.find?_cons, hnext]
      by_cases hfits : s.fitsIn size t = true
      · rw [hfits, if_pos (of_decide_eq_true hfits)]
        rfl
      · rw [Bool.not_eq_true] at hfits
        rw [hfits, if_neg (of_decide_eq_false hfits)]
        exact ih ((List.append_cons xs t ys).symm ▸ hlist) (by simpa using hn)

/-- The search takes the first tag of the list that fits, and ends, since a list has fewer than
`2 ^ 27` tags. -/
theorem Wf.findTag_eq (h : Wf s L) (hk8 : 8 ≤ k) (hk : k < 32) (hn : 2 ^ 27 < n) :
    s.findTag size n (s.freePages k) = some (((L.lists k).find? (s.fitsIn size)).getD 0) := by
  rw [h.heads k hk8 hk]
  have hlen := h.length_le (h.nodup k) fun t ht => h.has_of_mem ht
  exact h.findTag_headD (List.nil_append _).symm (by omega)

/-! ## A block leaves its list -/

/-- A free block is taken out of its list to be worked on. -/
theorem Orderly.take (h : Orderly s L 0) (hlist : L.lists k = xs ++ t :: ys)
    (hmem : s'.mem = (s.removeTag t).mem) (hfree : s'.freePages = (s.removeTag t).freePages)
    (hinit : s'.initialized = s.initialized)
    (hpages : ∀ k', s'.completePages k' =
      if k' = k ∧ s.whole t then s.completePages k' - 1 else s.completePages k') :
    Orderly s' (L.withList k (xs ++ ys)) t ∧ Carries s L 0 s' (L.withList k (xs ++ ys)) t ∧
      s'.get t .index = -1 ∧ ∀ u, L.Has u → s'.get u .realSize = s.get u .realSize ∧
        (u ≠ t → s'.get u .index = s.get u .index) := by
  have htk : t ∈ L.lists k := by simp [hlist]
  have ht := h.wf.has_of_mem htk
  have hmem_get : ∀ u g, s'.get u g = (s.removeTag t).get u g := fun u g => by
    unfold get
    rw [hmem]
  have hwf : Wf s' (L.withList k (xs ++ ys)) :=
    (h.wf.removeTag hlist).congr hfree fun u _ g _ => hmem_get u g
  have hget : ∀ u, L.Has u → ∀ g, s'.get u g = _ := fun u hu g =>
    (hmem_get u g).trans (h.wf.get_removeTag (g := g) htk hu)
  have hindex_t : s'.get t .index = -1 := (hget t ht .index).trans (if_pos rfl)
  have hindex : ∀ u, L.Has u → u ≠ t → s'.get u .index = s.get u .index := fun u hu hut =>
    (hget u hu .index).trans (if_neg hut)
  -- The block was free, so it is none of those that are handed out.
  have hne : ∀ u, s.get u .index = -1 → u ≠ t := fun u hindex heq =>
    h.wf.index_ne htk (heq ▸ hindex)
  have hreal : ∀ u, L.Has u → s'.real u = s.real u := fun u hu =>
    real_congr (hget u hu .realSize)
  have hwhole : ∀ u, L.Has u → s'.whole u = s.whole u := fun u hu => by
    have hleft := hget u hu .splitLeft
    have hright := hget u hu .splitRight
    unfold whole
    rw [hleft, hright]
  -- The list counts one less when the block is a whole range.
  have hcount : ∀ k', (L.lists k').countP s.whole =
      ((L.withList k (xs ++ ys)).lists k').countP s'.whole +
        if k' = k ∧ s.whole t then 1 else 0 := fun k' => by
    have hcongr : ((L.withList k (xs ++ ys)).lists k').countP s'.whole =
        ((L.withList k (xs ++ ys)).lists k').countP s.whole :=
      List.countP_congr fun u hu => by
        rw [hwhole u (h.wf.has_of_mem (Layout.mem_of_withList hlist hu))]
    rw [hcongr]
    rcases eq_or_ne k' k with hkk | hkk
    · rw [hkk, Layout.lists_withList_self, hlist, List.countP_append, List.countP_append,
        List.countP_cons]
      simp only [true_and]
      omega
    · rw [Layout.lists_withList_of_ne _ hkk, if_neg fun hk => hkk hk.1]
      rfl
  -- The fields of `Orderly`, with the block as the one that is worked on.
  refine ⟨⟨hwf, fun k' u hu => ?_, fun r' hr' => ?_, fun k' => ?_, fun k' hk8 hk => ?_,
    fun u hu hut hindex' => ?_⟩, ⟨rfl, fun u hu => hu, fun u m => ?_, ?_, hinit⟩, hindex_t,
    fun u hu => ⟨hget u hu .realSize, hindex u hu⟩⟩
  · rw [hreal u (hwf.has_of_mem hu)]
    exact h.sorted k' u (Layout.mem_of_withList hlist hu)
  · refine (h.parted r' hr').mono fun u hu hindex' => ?_
    exact (hindex u ⟨r', hr', hu⟩ (hne u hindex')).trans hindex'
  · have hle := h.count_le k'
    have hk := hcount k'
    omega
  · rw [hpages k', h.counted k' hk8 hk, hcount k']
    split_ifs with hw
    · rw [BitVec.ofNat_add]
      exact BitVec.add_sub_cancel _ _
    · rfl
  · rw [hreal u hu, hget u hu .size]
    exact h.room u hu (h.wf.ne_zero hu) ((hindex u hu hut).symm.trans hindex')
  · constructor
    · rintro ⟨hu, hut, hindex', hsize⟩
      exact ⟨hu, h.wf.ne_zero hu, (hindex u hu hut).symm.trans hindex',
        (hget u hu .size).symm.trans hsize⟩
    · rintro ⟨hu, -, hindex', hsize⟩
      have hut := hne u hindex'
      exact ⟨hu, hut, (hindex u hu hut).trans hindex', (hget u hu .size).trans hsize⟩
  · rw [hmem]
    exact h.wf.frame_removeTag htk

/-! ## A new range -/

/-- The only block of a new range is worked on. -/
theorem Orderly.allocateNewTag (h : Orderly s L 0) (hfresh : Fresh L.ranges t (pagesFor size)) :
    Orderly (s.allocateNewTag t size) (L.withRange t (4096 * (pagesFor size).toNat)) t ∧
      (∀ u m, InUse (s.allocateNewTag t size) (L.withRange t (4096 * (pagesFor size).toNat)) t u m ↔
        InUse s L 0 u m) ∧
      Mem.Frame (headers (L.withRange t (4096 * (pagesFor size).toNat)).all) s.mem
        (s.allocateNewTag t size).mem := by
  have hwf := h.wf.allocateNewTag hfresh
  have hhas : ∀ u, (L.withRange t (4096 * (pagesFor size).toNat)).Has u ↔ u = t ∨ L.Has u :=
    fun u => h.wf.has_withRange hfresh
  have hget : ∀ u, L.Has u → ∀ g, (s.allocateNewTag t size).get u g = s.get u g :=
    fun u hu g => h.wf.get_allocateNewTag hfresh hu
  have hwhole : ∀ u, L.Has u → (s.allocateNewTag t size).whole u = s.whole u := fun u hu => by
    unfold whole
    rw [hget u hu, hget u hu]
  have hcount : ∀ k, (L.lists k).countP (s.allocateNewTag t size).whole =
      (L.lists k).countP s.whole := fun k =>
    List.countP_congr fun u hu => by rw [hwhole u (h.wf.has_of_mem hu)]
  obtain ⟨hout, hT⟩ := h.wf.separate_fresh hfresh
  refine ⟨⟨hwf, fun k u hu => ?_, fun r hr => ?_, fun k => ?_, fun k hk8 hk => ?_,
    fun u hu hut hindex => ?_⟩, fun u m => ?_, ?_⟩
  · rw [real_congr (hget u (h.wf.has_of_mem hu) _)]
    exact h.sorted k u hu
  -- One block has no neighbours that could be free.
  · rcases List.mem_cons.1 hr with rfl | hr
    · have htags : (L.withRange t (4096 * (pagesFor size).toNat)).tags t.toNat = [t] :=
        Function.update_self _ _ _
      rw [htags]
      exact List.isChain_singleton t
    · rw [h.wf.tags_withRange hfresh hr]
      refine (h.parted r hr).mono fun u hu hindex => ?_
      rw [hget u ⟨r, hr, hu⟩]
      exact hindex
  · exact (hcount k).trans_le (h.count_le k)
  · exact (h.counted k hk8 hk).trans (congrArg _ (hcount k).symm)
  · have hu' := ((hhas u).1 hu).resolve_left hut
    rw [hget u hu'] at hindex ⊢
    rw [real_congr (hget u hu' _)]
    exact h.room u hu' (h.wf.ne_zero hu') hindex
  · constructor
    · rintro ⟨hu, hut, hindex, hsize⟩
      have hu' := ((hhas u).1 hu).resolve_left hut
      rw [hget u hu'] at hindex hsize
      exact ⟨hu', h.wf.ne_zero hu', hindex, hsize⟩
    · rintro ⟨hu, -, hindex, hsize⟩
      rw [← hget u hu] at hindex hsize
      exact ⟨(hhas u).2 (Or.inr hu), fun heq => hout (heq ▸ hu), hindex, hsize⟩
  · refine (hT.frame_allocateNewTag (Set.mem_insert t _) size).mono (headers_mono fun u hu => ?_)
    exact (hhas u).2 hu

/-! ## The size -/

/-- The block that is worked on is handed out with its size. -/
theorem Orderly.setSize (h : Orderly s L t) (ht : L.Has t) (hused : s.get t .index = -1)
    (hroom : 32 + size.toNat ≤ s.real t) : Orderly (s.set t .size size) L 0 ∧
      (∀ u m, InUse (s.set t .size size) L 0 u m ↔ InUse s L t u m ∨ u = t ∧ m = size) ∧
      ∀ u, L.Has u → ∀ g, (s.set t .size size).get u g =
        if u = t ∧ g = .size then size else s.get u g := by
  have hget : ∀ u, L.Has u → ∀ g, (s.set t .size size).get u g =
      if u = t ∧ g = .size then size else s.get u g :=
    fun u hu g => h.wf.separate.get_set ht hu size
  -- The size is read by nobody but the holder of the block.
  have hother : ∀ u, L.Has u → ∀ g, g ≠ .size → (s.set t .size size).get u g = s.get u g :=
    fun u hu g hg => (hget u hu g).trans (if_neg fun heq => hg heq.2)
  have hsize : ∀ u, L.Has u → u ≠ t → (s.set t .size size).get u .size = s.get u .size :=
    fun u hu hut => (hget u hu _).trans (if_neg fun heq => hut heq.1)
  have hsize_t : (s.set t .size size).get t .size = size :=
    (hget t ht _).trans (if_pos ⟨rfl, rfl⟩)
  have hwf : Wf (s.set t .size size) L := h.wf.congr rfl hother
  have hwhole : ∀ u, L.Has u → (s.set t .size size).whole u = s.whole u := fun u hu => by
    unfold whole
    rw [hother u hu _ (by decide), hother u hu _ (by decide)]
  have hcount : ∀ k, (L.lists k).countP (s.set t .size size).whole =
      (L.lists k).countP s.whole := fun k =>
    List.countP_congr fun u hu => by rw [hwhole u (h.wf.has_of_mem hu)]
  have hreal : ∀ u, L.Has u → (s.set t .size size).real u = s.real u := fun u hu =>
    real_congr (hother u hu _ (by decide))
  refine ⟨⟨hwf, fun k u hu => ?_, fun r hr => ?_, fun k => ?_, fun k hk8 hk => ?_,
    fun u hu _ hindex => ?_⟩, fun u m => ?_, hget⟩
  · rw [hreal u (h.wf.has_of_mem hu)]
    exact h.sorted k u hu
  · refine (h.parted r hr).mono fun u hu hindex => ?_
    exact (hother u ⟨r, hr, hu⟩ _ (by decide)).trans hindex
  · exact (hcount k).trans_le (h.count_le k)
  · exact (h.counted k hk8 hk).trans (congrArg _ (hcount k).symm)
  -- This is where the room for the size is needed.
  · rw [hother u hu _ (by decide)] at hindex
    rw [hreal u hu]
    rcases eq_or_ne u t with rfl | hut
    · rwa [hsize_t]
    · rw [hsize u hu hut]
      exact h.room u hu hut hindex
  · constructor
    · rintro ⟨hu, -, hindex, hm⟩
      rw [hother u hu _ (by decide)] at hindex
      rcases eq_or_ne u t with rfl | hut
      · exact Or.inr ⟨rfl, hm.symm.trans hsize_t⟩
      · exact Or.inl ⟨hu, hut, hindex, (hsize u hu hut).symm.trans hm⟩
    · rintro (⟨hu, hut, hindex, hm⟩ | ⟨rfl, rfl⟩)
      · exact ⟨hu, h.wf.ne_zero hu, (hother u hu _ (by decide)).trans hindex,
          (hsize u hu hut).trans hm⟩
      · exact ⟨ht, h.wf.ne_zero ht, (hother u ht _ (by decide)).trans hused, hsize_t⟩

/-! ## The rest of the block -/

section Cut

variable (h : Orderly s L 0) (hr : r ∈ L.ranges) (htags : L.tags r.1 = ls ++ t :: rs)
  (hused : s.get t .index = -1) (hL : L' = L.withTags r.1 (ls ++ t :: u :: rs))

include h hr hL

/-- A cut puts one tag behind another. -/
theorem Orderly.tags_cut (hr' : r' ∈ L.ranges) :
    L'.tags r'.1 = if r' = r then ls ++ t :: u :: rs else L.tags r'.1 := by
  rw [hL]
  split_ifs with heq
  · rw [heq]
    exact L.tags_withTags_self r.1 _
  · exact L.tags_withTags_of_ne (fun hb => heq (h.wf.base_inj hr' hr hb)) _

include htags

theorem Orderly.has_cut : L'.Has v ↔ v = u ∨ L.Has v := by
  have hhas : (L.withTags r.1 (ls ++ t :: u :: rs)).Has v ↔ _ := h.wf.has_withTags hr
  have hmem : v ∈ ls ++ t :: u :: rs ↔ v = u ∨ v ∈ L.tags r.1 := by
    rw [htags]
    simp only [List.mem_append, List.mem_cons]
    tauto
  rw [hL, hhas, hmem]
  constructor
  · rintro ((rfl | hv) | ⟨r', hr', -, hv⟩)
    · exact Or.inl rfl
    · exact Or.inr ⟨r, hr, hv⟩
    · exact Or.inr ⟨r', hr', hv⟩
  · rintro (rfl | ⟨r', hr', hv⟩)
    · exact Or.inl (Or.inl rfl)
    · rcases eq_or_ne r' r with rfl | hne
      · exact Or.inl (Or.inr hv)
      · exact Or.inr ⟨r', hr', hne, hv⟩

include hused

/-- The new tag is in use for now, so free tags are as far apart as they were. -/
theorem Orderly.parted_cut (hindex_u : s'.get u .index = -1)
    (hindex : ∀ w, L.Has w → s'.get w .index = s.get w .index) (hr' : r' ∈ L.ranges) :
    Parted (s'.get · .index = -1) (L'.tags r'.1) := by
  have hparted := h.parted r' hr'
  have hkeep : ∀ w ∈ L.tags r'.1, s.get w .index = -1 → s'.get w .index = -1 :=
    fun w hw hindex' => (hindex w ⟨r', hr', hw⟩).trans hindex'
  rw [h.tags_cut hr hL hr']
  split_ifs with heq
  · subst heq
    have hused' := hkeep t (by simp [htags]) hused
    rw [htags] at hparted hkeep
    obtain ⟨hls, hrs⟩ := (parted_middle (p := (s.get · .index = -1)) hused).1 hparted
    refine (parted_middle (p := (s'.get · .index = -1)) hused').2
      ⟨hls.mono fun w hw => hkeep w (List.mem_append_left _ hw), ?_⟩
    rw [← List.nil_append (u :: rs)]
    refine (parted_middle (p := (s'.get · .index = -1)) hindex_u).2 ⟨List.isChain_nil, ?_⟩
    exact hrs.mono fun w hw => hkeep w (List.mem_append_right ls (List.mem_cons_of_mem t hw))
  · exact hparted.mono hkeep

theorem Orderly.countP_cut (hwf : Wf s' L') :
    (L.lists k).countP s'.whole = (L.lists k).countP s.whole := by
  refine List.countP_congr fun w hw => ?_
  have hwt : w ≠ t := fun heq => h.wf.index_ne hw (heq ▸ hused)
  obtain ⟨r', hr', hwr⟩ := h.wf.has_of_mem hw
  have hranges : L'.ranges = L.ranges := hL ▸ rfl
  have htags' := h.tags_cut hr hL hr'
  have hwr' : w ∈ L'.tags r'.1 := by
    rw [htags']
    split_ifs with heq
    · subst heq
      rw [htags] at hwr
      simp only [List.mem_append, List.mem_cons] at hwr ⊢
      tauto
    · exact hwr
  rw [hwf.whole_iff (hranges ▸ hr') hwr', h.wf.whole_iff hr' hwr, htags']
  split_ifs with heq
  · subst heq
    have hone : ∀ l : List Word, t ∈ l → l ≠ [w] := fun l ht heq =>
      hwt (List.mem_singleton.1 (heq ▸ ht)).symm
    exact iff_of_false (hone _ (by simp)) (hone _ (by simp [htags]))
  · rfl

/-- The tag of the rest comes in to be worked on. -/
theorem Orderly.cut (hwf : Wf s' L') (hnew : ¬L.Has u) (hindex_u : s'.get u .index = -1)
    (hsame : ∀ w, L.Has w → s'.get w .index = s.get w .index ∧ s'.get w .size = s.get w .size)
    (hreal : ∀ w, L.Has w → w ≠ t → s'.real w = s.real w)
    (hreal_t : s'.real t = 32 + (s.get t .size).toNat)
    (hpages : s'.completePages = s.completePages) :
    Orderly s' L' u ∧ ∀ w m, InUse s' L' u w m ↔ InUse s L 0 w m := by
  have hhas : ∀ w, L'.Has w ↔ w = u ∨ L.Has w := fun w => h.has_cut hr htags hL
  have hcount : ∀ k, (L.lists k).countP s'.whole = (L.lists k).countP s.whole := fun k =>
    h.countP_cut hr htags hused hL hwf
  have hlists : L'.lists = L.lists := hL ▸ rfl
  have hranges : L'.ranges = L.ranges := hL ▸ rfl
  -- The new tag is the one that is worked on until it has its list.
  refine ⟨⟨hwf, fun k w hw => ?_, fun r' hr' => ?_, fun k => ?_, fun k hk8 hk => ?_,
    fun w hw hwu hindex' => ?_⟩, fun w m => ?_⟩
  · rw [hlists] at hw
    rw [hreal w (h.wf.has_of_mem hw) fun heq => h.wf.index_ne hw (heq ▸ hused)]
    exact h.sorted k w hw
  · exact h.parted_cut hr htags hused hL hindex_u (fun w hw => (hsame w hw).1) (hranges ▸ hr')
  · rw [hlists, hcount]
    exact h.count_le k
  · rw [hpages, hlists, hcount]
    exact h.counted k hk8 hk
  · have hw' := ((hhas w).1 hw).resolve_left hwu
    rw [(hsame w hw').1] at hindex'
    rw [(hsame w hw').2]
    -- The block that was cut has just the room for its size.
    rcases eq_or_ne w t with rfl | hwt
    · exact hreal_t.ge
    · rw [hreal w hw' hwt]
      exact h.room w hw' (h.wf.ne_zero hw') hindex'
  · constructor
    · rintro ⟨hw, hwu, hindex', hm⟩
      have hw' := ((hhas w).1 hw).resolve_left hwu
      obtain ⟨hi, hsize⟩ := hsame w hw'
      exact ⟨hw', h.wf.ne_zero hw', hi.symm.trans hindex', hsize.symm.trans hm⟩
    · rintro ⟨hw, -, hindex', hm⟩
      obtain ⟨hi, hsize⟩ := hsame w hw
      exact ⟨(hhas w).2 (Or.inr hw), fun heq => hnew (heq ▸ hw), hi.trans hindex',
        hsize.trans hm⟩

end Cut

/-- The rest of a block that is handed out becomes a free block. -/
theorem Orderly.splitTag (h : Orderly s L 0) (hr : r ∈ L.ranges)
    (htags : L.tags r.1 = ls ++ t :: rs) (hused : s.get t .index = -1)
    (hright : ∀ w ∈ rs.head?, s.get w .index = -1)
    (hroom : 64 + (s.get t .size).toNat ≤ s.real t) :
    ∃ L', Orderly (s.splitTag t).2 L' 0 ∧ L'.ranges = L.ranges ∧
      (∀ w m, InUse (s.splitTag t).2 L' 0 w m ↔ InUse s L 0 w m) ∧ (∀ w, L.Has w → L'.Has w) ∧
      Mem.Frame (headers L'.all) s.mem (s.splitTag t).2.mem ∧
      (s.splitTag t).2.initialized = s.initialized := by
  obtain ⟨u, hu⟩ : ∃ u, u = t + 32 + s.get t .size := ⟨_, rfl⟩
  obtain ⟨hnat, hinside, hend⟩ := h.wf.toNat_cut hr htags hu hroom
  have htr : t ∈ L.tags r.1 := by simp [htags]
  have ht : L.Has t := ⟨r, hr, htr⟩
  obtain ⟨hnew, hT⟩ := h.wf.separate_inside (u := u) ht (by omega) hinside
  have hlink : s.get t .splitRight = 0 ∨ s.get t .splitRight ∈ L.all := by
    rw [(h.wf.neighbours hr htags).2]
    refine (List.mem_cons.1 (DoublyLinked.headD_mem_cons rs 0)).imp_right fun hmem => ⟨r, hr, ?_⟩
    rw [htags]
    exact List.mem_append_right ls (List.mem_cons_of_mem t hmem)
  obtain ⟨s', hsplit, hcut⟩ := hT.exists_splitTag ht hnew hu hlink
  obtain ⟨-, hget, hget_u, hreal_t, -⟩ := h.wf.get_cutOff hr htags hu hroom hcut
  have hwf := h.wf.cutOff hr htags hu hroom hcut
  have hindex_u : (s'.set u .index (-1)).get u .index = -1 := (hget_u _).trans (if_pos rfl)
  have hsame : ∀ w, L.Has w → (s'.set u .index (-1)).get w .index = s.get w .index ∧
      (s'.set u .index (-1)).get w .size = s.get w .size := fun w hw =>
    ⟨(hget w hw _).trans (hcut.old w hw .index), (hget w hw _).trans (hcut.old w hw .size)⟩
  obtain ⟨h₁, hinUse⟩ := h.cut hr htags hused rfl hwf hnew hindex_u hsame
    (fun w hw hwt =>
      real_congr ((hget w hw _).trans ((hcut.old w hw .realSize).trans (if_neg hwt))))
    hreal_t hcut.completePages
  have hhas : ∀ w, (L.withTags r.1 (ls ++ t :: u :: rs)).Has w ↔ w = u ∨ L.Has w :=
    fun w => h.has_cut hr htags rfl
  have htags₁ : (L.withTags r.1 (ls ++ t :: u :: rs)).tags r.1 = (ls ++ [t]) ++ u :: rs := by
    rw [L.tags_withTags_self]
    simp
  -- the tag of the rest goes to the list for what it has
  have hinsert : (s.splitTag t).2 = (s'.set u .index (-1)).insertTag u
      (BitVec.ofNat 32 (classOf ((s'.set u .index (-1)).real u - 32))) := by
    have hheader := hwf.header u ((hhas u).2 (Or.inl rfl))
    have hreal : s'.get u .realSize = (s'.set u .index (-1)).get u .realSize :=
      (hget_u .realSize).symm
    have hlist : listOf (s'.get u .realSize - 32) =
        BitVec.ofNat 32 (classOf ((s'.set u .index (-1)).real u - 32)) := by
      rw [hreal, listOf_eq]
      congr 2
      unfold real at *
      bv_omega
    rw [hsplit, insertTag_neg_one, ← hlist, insertTag_set_index (not_slt_listOf _)]
  have hwhole : ¬(s'.set u .index (-1)).whole u = true := by
    rw [whole_eq_true_iff, hget_u, if_neg (by decide), hcut.splitLeft]
    exact fun hnull => h.wf.ne_zero ht hnull.1
  have hleft₁ : ∀ w ∈ (ls ++ [t]).getLast?, (s'.set u .index (-1)).get w .index = -1 := by
    intro w hw
    obtain rfl : t = w := by simpa using hw
    exact (hsame t ht).1.trans hused
  have hright₁ : ∀ w ∈ rs.head?, (s'.set u .index (-1)).get w .index = -1 := by
    intro w hw
    have hwr : w ∈ L.tags r.1 := by
      rw [htags]
      exact List.mem_append_right ls (List.mem_cons_of_mem t (List.mem_of_mem_head? hw))
    exact (hsame w ⟨r, hr, hwr⟩).1.trans (hright w hw)
  have hcarries := h₁.carries_insert hr htags₁ hindex_u rfl rfl rfl rfl
  rw [hinsert]
  refine ⟨_, h₁.insert hr htags₁ hindex_u hleft₁ hright₁ rfl rfl rfl (fun hw => absurd hw hwhole)
    fun k _ _ => (if_neg fun hw => hwhole hw.2).symm, rfl,
    fun w m => (hcarries.inUse w m).trans (hinUse w m), fun w hw => (hhas w).2 (Or.inr hw), ?_,
    hcarries.initialized.trans hcut.initialized⟩
  have hall : (Insert.insert u L.all : Set Word) ⊆ (L.withTags r.1 (ls ++ t :: u :: rs)).all :=
    fun w hw => (hhas w).2 hw
  have hmem : u ∈ (Insert.insert u L.all : Set Word) := Set.mem_insert u _
  exact ((hcut.frame.trans (hT.frame_set hmem (-1))).mono (headers_mono hall)).trans hcarries.frame

/-! ## A call of `malloc` -/

/-- A positive `int` is below `2 ^ 31`. -/
theorem toNat_lt_of_slt {w : Word} (h : (0 : Word).slt w) : w.toNat < 2 ^ 31 := by
  by_contra hge
  have hneg : w.toInt < 0 := by
    rw [BitVec.toInt_eq_toNat_cond, if_neg (by omega)]
    have hlt := w.isLt
    omega
  have hpos : (0 : Word).toInt < w.toInt := by
    rw [← BitVec.slt_iff_toInt_lt]
    exact h
  exact absurd hpos (not_lt.2 (by simpa using hneg.le))

/-- The end of `malloc` hands the block out that is worked on. -/
theorem Orderly.carve (h : Orderly s L t) (hr : r ∈ L.ranges) (htags : L.tags r.1 = ls ++ t :: rs)
    (hused : s.get t .index = -1) (hright : ∀ w ∈ rs.head?, s.get w .index = -1)
    (hroom : 32 + size.toNat ≤ s.real t) :
    ∃ L', Orderly (s.carve t size) L' 0 ∧ L'.ranges = L.ranges ∧
      (∀ w m, InUse (s.carve t size) L' 0 w m ↔ InUse s L t w m ∨ w = t ∧ m = size) ∧
      (∀ w, L.Has w → L'.Has w) ∧ Mem.Frame (headers L'.all) s.mem (s.carve t size).mem ∧
      (s.carve t size).initialized = s.initialized := by
  have ht : L.Has t := ⟨r, hr, by simp [htags]⟩
  obtain ⟨h₁, hinUse, hget⟩ := h.setSize ht hused hroom
  have hframe : Mem.Frame (headers L.all) s.mem (s.set t .size size).mem :=
    h.wf.separate.frame_set ht size
  -- When nothing is cut off, the size is all that changes.
  have hkeep : ∃ L', Orderly (s.set t .size size) L' 0 ∧ L'.ranges = L.ranges ∧
      (∀ w m, InUse (s.set t .size size) L' 0 w m ↔ InUse s L t w m ∨ w = t ∧ m = size) ∧
      (∀ w, L.Has w → L'.Has w) ∧ Mem.Frame (headers L'.all) s.mem (s.set t .size size).mem ∧
      (s.set t .size size).initialized = s.initialized :=
    ⟨L, h₁, rfl, hinUse, fun _ hw => hw, hframe, rfl⟩
  have hother : ∀ w, L.Has w → ∀ g, g ≠ .size → (s.set t .size size).get w g = s.get w g :=
    fun w hw g hg => (hget w hw g).trans (if_neg fun heq => hg heq.2)
  unfold Liballoc.carve
  dsimp only
  -- What is left behind the size may be negative as an `int`, or shorter than the smallest
  -- block.
  split_ifs with hpos hsmall
  · exact hkeep
  · have hsize : (s.set t .size size).get t .size = size := (hget t ht _).trans (if_pos ⟨rfl, rfl⟩)
    have hreal : (s.set t .size size).real t = s.real t := real_congr (hother t ht _ (by decide))
    have hroom' : 64 + size.toNat ≤ s.real t := by
      have hlt := toNat_lt_of_slt hpos
      rw [hother t ht _ (by decide)] at hlt
      unfold real at *
      bv_omega
    have hright' : ∀ w ∈ rs.head?, (s.set t .size size).get w .index = -1 := fun w hw => by
      have hwr : w ∈ L.tags r.1 := by
        rw [htags]
        exact List.mem_append_right ls (List.mem_cons_of_mem t (List.mem_of_mem_head? hw))
      exact (hother w ⟨r, hr, hwr⟩ _ (by decide)).trans (hright w hw)
    obtain ⟨L', h', hranges, hinUse', hsub, hframe', hinit⟩ :=
      h₁.splitTag hr htags ((hother t ht _ (by decide)).trans hused) hright'
        (by rw [hsize, hreal]; exact hroom')
    exact ⟨L', h', hranges, fun w m => (hinUse' w m).trans (hinUse w m), hsub,
      (hframe.mono (headers_mono hsub)).trans hframe', hinit⟩
  · exact hkeep

theorem initArrays_of_initialized (h : s.initialized = true) : s.initArrays = s :=
  if_pos h

@[simp] theorem initialized_initArrays (s : Liballoc) : s.initArrays.initialized = true := by
  unfold initArrays
  split_ifs with h
  · exact h
  · rfl

@[simp] theorem mem_initArrays (s : Liballoc) : s.initArrays.mem = s.mem := by
  unfold initArrays
  split_ifs <;> rfl

/-- The ranges after some pages were asked for, if any were, with what the call for them
returned. -/
def grownRanges (alloc : Word → Word) (ranges : List (ℕ × ℕ)) : Option Word → List (ℕ × ℕ)
  | none => ranges
  | some pages =>
    if alloc pages = 0 then ranges else ((alloc pages).toNat, 4096 * pages.toNat) :: ranges

/-- The block of `t` is handed out with room for `size` bytes. -/
structure HandsOut (s : Liballoc) (L : Layout) (s' : Liballoc) (L' : Layout) (t size : Word) :
    Prop where
  notInUse : ∀ m, ¬InUse s L 0 t m
  inUse : ∀ u m, InUse s' L' 0 u m ↔ InUse s L 0 u m ∨ u = t ∧ m = size
  frame : Mem.Frame (headers L'.all) s.mem s'.mem
  initialized : s'.initialized = s.initialized

/-- `malloc` takes the tag out of its list, and counts a whole range out. -/
def takeOut (s : Liballoc) (k : ℕ) (t : Word) : Liballoc :=
  if s.get t .splitLeft = 0 ∧ s.get t .splitRight = 0 then
    (s.removeTag t).setCompletePages (BitVec.ofNat 32 k) ((s.removeTag t).completePages k - 1)
  else s.removeTag t

/-- The tag that was found leaves its list, is worked on now, and keeps its size. -/
theorem Orderly.takeOut (h : Orderly s L 0) (hk : k < 32) (hlist : L.lists k = xs ++ t :: ys) :
    Orderly (s.takeOut k t) (L.withList k (xs ++ ys)) t ∧
      Carries s L 0 (s.takeOut k t) (L.withList k (xs ++ ys)) t ∧
      (s.takeOut k t).get t .index = -1 ∧
      ∀ u, L.Has u → (s.takeOut k t).get u .realSize = s.get u .realSize ∧
        (u ≠ t → (s.takeOut k t).get u .index = s.get u .index) := by
  have hnat : (BitVec.ofNat 32 k).toNat = k := toNat_ofNat_of_lt (by omega)
  have hkeep : (s.takeOut k t).mem = (s.removeTag t).mem ∧
      (s.takeOut k t).freePages = (s.removeTag t).freePages ∧
      (s.takeOut k t).initialized = (s.removeTag t).initialized := by
    unfold Liballoc.takeOut
    generalize s.removeTag t = s'
    split_ifs <;> exact ⟨rfl, rfl, rfl⟩
  refine h.take hlist hkeep.1 hkeep.2.1 (hkeep.2.2.trans (initialized_removeTag s t)) fun k' => ?_
  rw [Liballoc.takeOut]
  by_cases hw : s.whole t
  · rw [if_pos (whole_eq_true_iff.1 hw), setCompletePages, hnat, completePages_removeTag]
    rcases eq_or_ne k' k with hkk | hkk
    · rw [hkk, if_pos ⟨rfl, hw⟩]
      exact Function.update_self _ _ _
    · rw [if_neg fun hk => hkk hk.1]
      exact Function.update_of_ne hkk _ _
  · rw [if_neg (mt whole_eq_true_iff.2 hw), if_neg fun hk => hw hk.2, completePages_removeTag]

/-- A free block that is long enough is handed out. -/
theorem Orderly.handOut (h : Orderly s L 0) (htk : t ∈ L.lists k)
    (hfits : size.toNat + 64 ≤ s.real t) :
    ∃ L', Orderly ((s.takeOut k t).carve t size) L' 0 ∧ L'.ranges = L.ranges ∧
      HandsOut s L ((s.takeOut k t).carve t size) L' t size := by
  obtain ⟨⟨r, hr, htr⟩, -, hk, -⟩ := h.wf.listed k t htk
  obtain ⟨xs, ys, hlist⟩ := List.append_of_mem htk
  obtain ⟨ls, rs, htags⟩ := List.append_of_mem htr
  obtain ⟨h₁, hc₁, hused₁, hsame₁⟩ := h.takeOut hk hlist
  have hfree : s.get t .index ≠ -1 := h.wf.index_ne htk
  -- the neighbours of a free block are handed out
  have hright : ∀ w ∈ rs.head?, (s.takeOut k t).get w .index = -1 := fun w hw => by
    have hwr : w ∈ L.tags r.1 := by
      rw [htags]
      exact List.mem_append_right ls (List.mem_cons_of_mem t (List.mem_of_mem_head? hw))
    have hparted := h.parted r hr
    rw [htags] at hparted
    obtain ⟨-, hrest, -⟩ := List.isChain_append.1 hparted
    have hused : s.get w .index = -1 := ((List.isChain_cons.1 hrest).1 w hw).resolve_left hfree
    have hwt : w ≠ t := fun heq => hfree (heq ▸ hused)
    exact ((hsame₁ w ⟨r, hr, hwr⟩).2 hwt).trans hused
  have hroom : 32 + size.toNat ≤ (s.takeOut k t).real t := by
    rw [real_congr (hsame₁ t ⟨r, hr, htr⟩).1]
    omega
  obtain ⟨L', h', hranges, hinUse', hsub, hframe', hinit'⟩ := h₁.carve hr htags hused₁ hright hroom
  exact ⟨L', h', hranges, fun m hm => hfree hm.index,
    fun u m => (hinUse' u m).trans (or_congr_left (hc₁.inUse u m)),
    (hc₁.frame.mono (headers_mono hsub)).trans hframe', hinit'.trans hc₁.initialized⟩

/-- The first block of a new range is handed out. -/
theorem Orderly.handOut_fresh (h : Orderly s L 0) (hsize : size.toNat + 32 < 2 ^ 32)
    (hfresh : Fresh L.ranges t (pagesFor size)) :
    ∃ L', Orderly ((s.allocateNewTag t size).carve t size) L' 0 ∧
      L'.ranges = (t.toNat, 4096 * (pagesFor size).toNat) :: L.ranges ∧
      HandsOut s L ((s.allocateNewTag t size).carve t size) L' t size := by
  obtain ⟨h₁, hinUse₁, hframe₁⟩ := h.allocateNewTag hfresh
  have htags : (L.withRange t (4096 * (pagesFor size).toNat)).tags t.toNat = [] ++ t :: [] :=
    Function.update_self _ _ _
  have hroom : 32 + size.toNat ≤ (s.allocateNewTag t size).real t := by
    have hle := le_pagesOf (size + 32)
    have hadd : (size + 32).toNat = size.toNat + 32 := by
      rw [BitVec.toNat_add]
      exact Nat.mod_eq_of_lt hsize
    rw [h.wf.real_allocateNewTag hfresh]
    unfold pagesFor
    omega
  obtain ⟨L', h', hranges, hinUse', hsub, hframe', hinit⟩ :=
    h₁.carve List.mem_cons_self htags (h.wf.get_allocateNewTag_self hfresh) (by simp) hroom
  exact ⟨L', h', hranges, fun m hm => (h.wf.separate_fresh hfresh).1 hm.has,
    fun u m => (hinUse' u m).trans (or_congr_left (hinUse₁ u m)),
    (hframe₁.mono (headers_mono hsub)).trans hframe', hinit⟩

/-- The search finds no block, so `malloc` asks for pages. -/
def Asks (n : ℕ) (s : Liballoc) (size : Word) : Prop :=
  s.initArrays.findTag size n (s.initArrays.freePages (listOf size).toNat) = some 0

instance (n : ℕ) (s : Liballoc) (size : Word) : Decidable (Asks n s size) :=
  inferInstanceAs (Decidable (_ = _))

/-- A call returns. It asks for the pages of its size or for none, and hands out a block, or
returns null and leaves everything alone. -/
theorem Orderly.malloc (h : Orderly s.initArrays L 0) (alloc : Word → Word)
    (hsize : size.toNat + 32 < 2 ^ 32)
    (halloc : Asks n s size → alloc (pagesFor size) ≠ 0 →
      Fresh L.ranges (alloc (pagesFor size)) (pagesFor size)) (hn : 2 ^ 27 < n) :
    ∃ run L', malloc n alloc s size = some run ∧ Orderly run.state L' 0 ∧
      run.asked = (if Asks n s size then some (pagesFor size) else none) ∧
      L'.ranges = grownRanges alloc L.ranges run.asked ∧
      (run.ptr = 0 ∧ alloc (pagesFor size) = 0 ∧ run.asked = some (pagesFor size) ∧
          run.state = s.initArrays ∧ L' = L ∨
        ∃ t, run.ptr = t + 32 ∧ HandsOut s.initArrays L run.state L' t size) := by
  obtain ⟨k, hk⟩ : ∃ k, k = classOf size.toNat := ⟨_, rfl⟩
  have hk8 : 8 ≤ k := hk ▸ eight_le_classOf _
  have hk32 : k < 32 := hk ▸ classOf_lt size.isLt
  have hlistOf : listOf size = BitVec.ofNat 32 k := hk ▸ listOf_eq size
  have hnat : (BitVec.ofNat 32 k).toNat = k := toNat_ofNat_of_lt (by omega)
  have hfind : s.initArrays.findTag size n (s.initArrays.freePages k) = _ :=
    h.wf.findTag_eq hk8 hk32 hn
  -- The search finds the null pointer exactly when no tag of the list fits.
  have hasks : Asks n s size ↔ ((L.lists k).find? (s.initArrays.fitsIn size)).getD 0 = 0 := by
    rw [Asks, hlistOf, hnat, hfind, Option.some.injEq]
  unfold Liballoc.malloc
  dsimp only
  rw [hlistOf, hnat, hfind, Option.map_some]
  cases hf : (L.lists k).find? (s.initArrays.fitsIn size) with
  | none =>
    have hasks' : Asks n s size := hasks.2 (by rw [hf]; rfl)
    rw [Option.getD_none, if_pos rfl, if_pos hasks']
    by_cases hnull : alloc (pagesFor size) = 0
    · rw [if_pos hnull]
      exact ⟨_, L, rfl, h, rfl, (if_pos hnull).symm, Or.inl ⟨rfl, hnull, rfl, rfl, rfl⟩⟩
    · rw [if_neg hnull]
      obtain ⟨L', h', hranges, hout⟩ := h.handOut_fresh hsize (halloc hasks' hnull)
      exact ⟨_, L', rfl, h', rfl, hranges.trans (if_neg hnull).symm, Or.inr ⟨_, rfl, hout⟩⟩
  | some t =>
    have htk : t ∈ L.lists k := List.mem_of_find?_eq_some hf
    have ht := h.wf.has_of_mem htk
    obtain ⟨L', h', hranges, hout⟩ :=
      h.handOut htk ((h.wf.fitsIn_iff ht hsize).1 (List.find?_some hf))
    have hsplits : (s.initArrays.removeTag t).get t .splitLeft = s.initArrays.get t .splitLeft ∧
        (s.initArrays.removeTag t).get t .splitRight = s.initArrays.get t .splitRight :=
      ⟨h.wf.get_removeTag (g := .splitLeft) htk ht, h.wf.get_removeTag (g := .splitRight) htk ht⟩
    have hne := h.wf.ne_zero ht
    have hnot : ¬Asks n s size := fun hasks' => hne (by simpa [hf] using hasks.1 hasks')
    rw [Option.getD_some, if_neg hne, hsplits.1, hsplits.2, if_neg hnot]
    exact ⟨_, L', rfl, h', rfl, hranges, Or.inr ⟨t, rfl, hout⟩⟩

end Liballoc

end Scorch
