import Mathlib.Data.List.Chain
import Scorch.TagLayout

/-!
# Order among the blocks

Between two calls of the allocator more holds than `Wf` says. A free block is in the list for
its length, no two free blocks are neighbours, `l_completePages` counts the free blocks that
are whole ranges, and a block that is handed out has room for its size (`Orderly`).

While a call works on a block, that block is in no list and need not have room for the size in
its tag. `Carries` says what a part of a call leaves alone : the ranges, the blocks that are
handed out, and every byte that is not in a tag.

Two changes of the order come up again and again :

* two neighbours become one block (`Orderly.merge`), which is what both loops of `free` do;
* a block that nobody holds goes into the list for its length (`Orderly.insert`).

For both, the free blocks stay apart (`Parted`) because the block that is worked on counts as
handed out.
-/

open ByteMemory

namespace Scorch

namespace Liballoc

/-! ## Lists without two neighbours of a kind -/

section Parted

variable {α : Type*} {p q : α → Prop} {a : α} {xs ys : List α}

/-- Of two neighbours one meets `p`. -/
def Parted (p : α → Prop) (l : List α) : Prop :=
  l.IsChain fun a b => p a ∨ p b

/-- What a condition parts, a weaker one parts. -/
theorem Parted.mono (h : Parted p xs) (hpq : ∀ a ∈ xs, p a → q a) : Parted q xs :=
  h.imp_of_mem_imp fun a b ha hb => Or.imp (hpq a ha) (hpq b hb)

/-- An element that meets the condition separates what is before it from what is behind it. -/
theorem parted_middle (ha : p a) : Parted p (xs ++ a :: ys) ↔ Parted p xs ∧ Parted p ys := by
  unfold Parted
  rw [List.isChain_append, List.isChain_cons]
  constructor
  · exact fun h => ⟨h.1, h.2.1.2⟩
  · refine fun h => ⟨h.1, ⟨fun _ _ => Or.inl ha, h.2⟩, fun x _ y hy => Or.inr ?_⟩
    rw [List.head?_cons, Option.mem_some_iff] at hy
    exact hy ▸ ha

end Parted

variable {s s' s'' : Liballoc} {L L' L'' : Layout} {t u v l m : Word} {r r' : ℕ × ℕ}
  {k k' : ℕ} {ls rs xs ys : List Word}

/-! ## Whole ranges -/

/-- The block has no neighbours. -/
def whole (s : Liballoc) (t : Word) : Bool :=
  s.get t .splitLeft = 0 ∧ s.get t .splitRight = 0

/-- A tag without neighbours has its range for itself. -/
theorem whole_eq_true_iff : s.whole t ↔ s.get t .splitLeft = 0 ∧ s.get t .splitRight = 0 :=
  decide_eq_true_iff

/-- A tag that is alone is the only tag of its range. -/
theorem Wf.whole_iff (h : Wf s L) (hr : r ∈ L.ranges) (ht : t ∈ L.tags r.1) :
    s.whole t ↔ L.tags r.1 = [t] := by
  obtain ⟨ls, rs, htags⟩ := List.append_of_mem ht
  obtain ⟨hleft, hright⟩ := h.neighbours hr htags
  have hne : ∀ u ∈ L.tags r.1, u ≠ 0 := fun u hu => h.ne_zero ⟨r, hr, hu⟩
  rw [htags] at hne ⊢
  simp only [whole, hleft, hright, decide_eq_true_eq]
  constructor
  · rintro ⟨hls, hrs⟩
    have hls' : ls = [] := by
      rcases List.eq_nil_or_concat ls with rfl | ⟨ls, a, rfl⟩
      · rfl
      · exact absurd (by simpa using hls) (hne a (by simp))
    have hrs' : rs = [] := by
      cases rs with
      | nil => rfl
      | cons a rs => exact absurd hrs (hne a (by simp))
    rw [hls', hrs']
    rfl
  · intro heq
    have hlen := congrArg List.length heq
    simp only [List.length_append, List.length_cons, List.length_nil] at hlen
    rw [List.length_eq_zero_iff.1 (show ls.length = 0 by omega),
      List.length_eq_zero_iff.1 (show rs.length = 0 by omega)]
    exact ⟨rfl, rfl⟩

/-! ## Order -/

/-- The blocks are in order, but for that of `t` on which the allocator works. -/
structure Orderly (s : Liballoc) (L : Layout) (t : Word) : Prop where
  wf : Wf s L
  sorted : ∀ k, ∀ u ∈ L.lists k, classOf (s.real u - 32) = k
  parted : ∀ r ∈ L.ranges, Parted (s.get · .index = -1) (L.tags r.1)
  count_le : ∀ k, (L.lists k).countP s.whole ≤ 5
  counted : ∀ k, 8 ≤ k → k < 32 →
    s.completePages k = BitVec.ofNat 32 ((L.lists k).countP s.whole)
  room : ∀ u, L.Has u → u ≠ t → s.get u .index = -1 → 32 + (s.get u .size).toNat ≤ s.real u

/-- The block of `u` is handed out, with room for `n` bytes. -/
structure InUse (s : Liballoc) (L : Layout) (t u n : Word) : Prop where
  has : L.Has u
  ne : u ≠ t
  index : s.get u .index = -1
  size : s.get u .size = n

/-- What a part of a call leaves alone, which works on the block of `t` at first and on that of
`t'` at last. -/
structure Carries (s : Liballoc) (L : Layout) (t : Word) (s' : Liballoc) (L' : Layout)
    (t' : Word) : Prop where
  ranges : L'.ranges = L.ranges
  sub : ∀ u, L'.Has u → L.Has u
  inUse : ∀ u n, InUse s' L' t' u n ↔ InUse s L t u n
  frame : Mem.Frame (headers L.all) s.mem s'.mem
  initialized : s'.initialized = s.initialized

/-- Nothing happened, nothing is lost. -/
theorem Carries.refl (s : Liballoc) (L : Layout) (t : Word) : Carries s L t s L t :=
  ⟨rfl, fun _ hu => hu, fun _ _ => Iff.rfl, Mem.Frame.refl _ _, rfl⟩

/-- What two steps keep, both together keep. -/
theorem Carries.trans (h : Carries s L t s' L' u) (h' : Carries s' L' u s'' L'' v) :
    Carries s L t s'' L'' v :=
  ⟨h'.ranges.trans h.ranges, fun w hw => h.sub w (h'.sub w hw),
    fun w n => (h'.inUse w n).trans (h.inUse w n),
    h.frame.trans (h'.frame.mono (headers_mono h.sub)), h'.initialized.trans h.initialized⟩

/-- Taking a tag off a list adds none. -/
theorem Layout.mem_of_withList {L : Layout} (hlist : L.lists k = xs ++ m :: ys)
    (hu : u ∈ (L.withList k (xs ++ ys)).lists k') : u ∈ L.lists k' := by
  rcases eq_or_ne k' k with rfl | hne
  · rw [Layout.lists_withList_self] at hu
    rw [hlist]
    simp only [List.mem_append, List.mem_cons] at hu ⊢
    tauto
  · rwa [Layout.lists_withList_of_ne _ hne] at hu

/-! ## Two blocks become one -/

/-- The layout after the block of `t` was given to its left neighbour and one of the two left its
list. -/
def Layout.merge (L : Layout) (r : ℕ × ℕ) (tags : List Word) (k : ℕ) (list : List Word) :
    Layout :=
  (L.withTags r.1 tags).withList k list

section Merge

theorem Layout.mem_of_merge {L : Layout} (hlist : L.lists k = xs ++ m :: ys)
    (hu : u ∈ (L.merge r ls k (xs ++ ys)).lists k') : u ∈ L.lists k' :=
  Layout.mem_of_withList (L := L.withTags r.1 ls) hlist hu

variable (h : Orderly s L v) (hr : r ∈ L.ranges) (htags : L.tags r.1 = ls ++ l :: t :: rs)
  (hlist : L.lists k = xs ++ m :: ys) (hL : L' = L.merge r (ls ++ l :: rs) k (xs ++ ys))

include h hr hL

/-- A merge takes one tag out of one range. -/
theorem Orderly.tags_merge (hr' : r' ∈ L.ranges) :
    L'.tags r'.1 = if r' = r then ls ++ l :: rs else L.tags r'.1 := by
  rw [hL]
  split_ifs with heq
  · rw [heq]
    exact L.tags_withTags_self r.1 _
  · exact L.tags_withTags_of_ne (fun hb => heq (h.wf.base_inj hr' hr hb)) _

include htags

theorem Orderly.has_merge : L'.Has u ↔ L.Has u ∧ u ≠ t := by
  have hhas : (L.merge r (ls ++ l :: rs) k (xs ++ ys)).Has u ↔ _ := h.wf.has_withTags hr
  have hnodup := h.wf.nodup_tags hr
  rw [htags, show ls ++ l :: t :: rs = (ls ++ [l]) ++ t :: rs by simp] at hnodup
  have hnot := (List.nodup_middle.1 hnodup).notMem
  have hmem : u ∈ L.tags r.1 ↔ u ∈ ls ++ l :: rs ∨ u = t := by
    rw [htags]
    simp only [List.mem_append, List.mem_cons]
    tauto
  rw [hL, hhas]
  constructor
  · rintro (hu | ⟨r', hr', hne, hu⟩)
    · refine ⟨⟨r, hr, hmem.2 (Or.inl hu)⟩, fun heq => hnot (heq ▸ ?_)⟩
      simp only [List.mem_append, List.mem_cons, List.not_mem_nil] at hu ⊢
      tauto
    · refine ⟨⟨r', hr', hu⟩, fun heq => hne (h.wf.range_unique hr' hu hr ?_)⟩
      exact hmem.2 (Or.inr heq)
  · rintro ⟨⟨r', hr', hu⟩, hut⟩
    rcases eq_or_ne r' r with rfl | hne
    · exact Or.inl ((hmem.1 hu).resolve_right hut)
    · exact Or.inr ⟨r', hr', hne, hu⟩

/-- The tag that took the other in is in use, so free tags are as far apart as they were. -/
theorem Orderly.parted_merge (hindex : s'.get l .index = -1)
    (hsame : ∀ u, L.Has u → u ≠ t → u ≠ l → s'.get u .index = s.get u .index)
    (hr' : r' ∈ L.ranges) : Parted (s'.get · .index = -1) (L'.tags r'.1) := by
  have hparted := h.parted r' hr'
  have hnodup := h.wf.nodup_tags hr'
  rw [h.tags_merge hr hL hr']
  split_ifs with heq
  · subst heq
    rw [htags] at hparted hnodup
    have hnot_l := (List.nodup_middle.1 hnodup).notMem
    rw [show ls ++ l :: t :: rs = (ls ++ [l]) ++ t :: rs by simp] at hnodup
    have hnot_t := (List.nodup_middle.1 hnodup).notMem
    simp only [List.mem_append, List.mem_cons, List.not_mem_nil, or_false, not_or] at hnot_l hnot_t
    obtain ⟨hls, hrest, -⟩ := List.isChain_append.1 hparted
    have hkeep : ∀ u, u ∈ ls ∨ u ∈ rs → s.get u .index = -1 → s'.get u .index = -1 := by
      intro u hu hindex'
      have hhas : L.Has u := ⟨r', hr, by rw [htags]; simp; tauto⟩
      refine (hsame u hhas (fun heq => ?_) fun heq => ?_).trans hindex'
      · exact hu.elim (fun hu => hnot_t.1.1 (heq ▸ hu)) fun hu => hnot_t.2 (heq ▸ hu)
      · exact hu.elim (fun hu => hnot_l.1 (heq ▸ hu)) fun hu => hnot_l.2.2 (heq ▸ hu)
    refine (parted_middle (p := (s'.get · .index = -1)) hindex).2
      ⟨Parted.mono hls fun u hu => hkeep u (Or.inl hu),
      Parted.mono hrest.tail.tail fun u hu => hkeep u (Or.inr hu)⟩
  · have hout : ∀ u ∈ L.tags r'.1, ∀ w ∈ L.tags r.1, u ≠ w := fun u hu w hw huw =>
      heq (h.wf.range_unique hr' hu hr (huw ▸ hw))
    refine hparted.mono fun u hu hindex' => ?_
    exact (hsame u ⟨r', hr', hu⟩ (hout u hu t (by simp [htags]))
      (hout u hu l (by simp [htags]))).trans hindex'

include hlist

/-- Neither block was a whole range, and none that is left becomes one. -/
theorem Orderly.countP_merge (hwf : Wf s' L') (hm : m = l ∨ m = t) (hindex : s'.get l .index = -1) :
    (L'.lists k').countP s'.whole = (L.lists k').countP s.whole := by
  -- The range has two blocks before the merge, so neither of them is whole.
  have hlen : ∀ u, L.tags r.1 ≠ [u] := fun u heq => by
    have hlen := congrArg List.length heq
    simp only [htags, List.length_append, List.length_cons, List.length_nil] at hlen
    omega
  have hm_mem : m ∈ L.tags r.1 := by rcases hm with rfl | rfl <;> simp [htags]
  have hm_whole : ¬s.whole m = true := mt (h.wf.whole_iff hr hm_mem).1 (hlen m)
  have hranges : L'.ranges = L.ranges := hL ▸ rfl
  -- A tag that stays in a list has the same neighbours, but for those of the range itself.
  have hwhole : ∀ u ∈ L'.lists k', s'.whole u ↔ s.whole u := fun u hu => by
    obtain ⟨r', hr', hur⟩ := hwf.has_of_mem hu
    obtain ⟨r'', hr'', hur'⟩ := h.wf.has_of_mem (Layout.mem_of_merge hlist (hL ▸ hu))
    have htags' := h.tags_merge hr hL (hranges ▸ hr')
    obtain rfl : r' = r'' := by
      refine h.wf.range_unique (hranges ▸ hr') (t := u) ?_ hr'' hur'
      rw [htags'] at hur
      split_ifs at hur with heq
      · subst heq
        rw [htags]
        simp only [List.mem_append, List.mem_cons] at hur ⊢
        tauto
      · exact hur
    rw [hwf.whole_iff hr' hur, h.wf.whole_iff hr'' hur', htags']
    split_ifs with heq
    · subst heq
      refine iff_of_false (fun heq => hwf.index_ne hu ?_) (hlen u)
      have hmem : l ∈ ls ++ l :: rs := by simp
      rw [heq, List.mem_singleton] at hmem
      exact hmem ▸ hindex
    · rfl
  -- The list that lost a tag lost one that was not counted.
  rw [List.countP_congr hwhole, hL]
  rcases eq_or_ne k' k with rfl | hne
  · rw [Layout.merge, Layout.lists_withList_self, hlist, List.countP_append, List.countP_append,
      List.countP_cons_of_neg hm_whole]
  · rw [Layout.merge, Layout.lists_withList_of_ne _ hne]
    rfl

/-- A free block and the one that is worked on become one block. -/
theorem Orderly.merge (hpair : l = v ∧ t = m ∨ l = m ∧ t = v) (hwf : Wf s' L')
    (hsame : ∀ u, L.Has u → u ≠ t → u ≠ l → s'.get u .index = s.get u .index ∧
      s'.get u .size = s.get u .size ∧ s'.get u .realSize = s.get u .realSize)
    (hindex : s'.get l .index = -1) (hpages : s'.completePages = s.completePages)
    (hframe : Mem.Frame (headers L.all) s.mem s'.mem) (hinit : s'.initialized = s.initialized) :
    Orderly s' L' l ∧ Carries s L v s' L' l := by
  have hhas : ∀ u, L'.Has u ↔ L.Has u ∧ u ≠ t := fun u => h.has_merge hr htags hL
  have hranges : L'.ranges = L.ranges := hL ▸ rfl
  have hm := h.wf.index_ne (hlist ▸ List.mem_append_right xs List.mem_cons_self : m ∈ L.lists k)
  have hcount : ∀ k', (L'.lists k').countP s'.whole = (L.lists k').countP s.whole := fun k' =>
    h.countP_merge hr htags hlist hL hwf (hpair.symm.imp (·.1.symm) (·.2.symm)) hindex
  have hne_v : ∀ u, u ≠ t → u ≠ l → u ≠ v := fun u hut hul => by
    rcases hpair with ⟨rfl, -⟩ | ⟨-, rfl⟩
    · exact hul
    · exact hut
  -- One goal for each field of `Orderly`, and one for the blocks that are handed out.
  refine ⟨⟨hwf, fun k' u hu => ?_, fun r' hr' => ?_, fun k' => ?_, fun k' hk8 hk => ?_,
    fun u hu hul hindex' => ?_⟩, hranges, fun u hu => ((hhas u).1 hu).1, fun u n => ?_, hframe,
    hinit⟩
  · obtain ⟨hu', hut⟩ := (hhas u).1 (hwf.has_of_mem hu)
    have hul : u ≠ l := fun heq => hwf.index_ne hu (heq ▸ hindex)
    rw [real_congr (hsame u hu' hut hul).2.2]
    exact h.sorted k' u (Layout.mem_of_merge hlist (hL ▸ hu))
  -- The two free neighbours are one block now, which counts as handed out.
  · exact h.parted_merge hr htags hL hindex (fun u hu hut hul => (hsame u hu hut hul).1)
      (hranges ▸ hr')
  · exact (hcount k').trans_le (h.count_le k')
  · rw [hpages, hcount]
    exact h.counted k' hk8 hk
  · obtain ⟨hu', hut⟩ := (hhas u).1 hu
    obtain ⟨hi, hsize, hreal⟩ := hsame u hu' hut hul
    rw [hsize, real_congr hreal]
    exact h.room u hu' (hne_v u hut hul) (hi.symm.trans hindex')
  · constructor
    · rintro ⟨hu, hul, hindex_u, hsize_u⟩
      obtain ⟨hu', hut⟩ := (hhas u).1 hu
      obtain ⟨hi, hsize, -⟩ := hsame u hu' hut hul
      exact ⟨hu', hne_v u hut hul, hi.symm.trans hindex_u, hsize.symm.trans hsize_u⟩
    · rintro ⟨hu, huv, hindex_u, hsize_u⟩
      -- The block that left its list was not handed out before.
      have hum : u ≠ m := fun heq => hm (heq ▸ hindex_u)
      obtain ⟨hut, hul⟩ : u ≠ t ∧ u ≠ l := by
        rcases hpair with ⟨rfl, rfl⟩ | ⟨rfl, rfl⟩
        · exact ⟨hum, huv⟩
        · exact ⟨huv, hum⟩
      obtain ⟨hi, hsize, -⟩ := hsame u hu hut hul
      exact ⟨(hhas u).2 ⟨hu, hut⟩, hul, hi.trans hindex_u, hsize.trans hsize_u⟩

end Merge

/-! ## A block becomes free -/

section Insert

variable (h : Orderly s L t) (hr : r ∈ L.ranges) (htags : L.tags r.1 = ls ++ t :: rs)
  (hused : s.get t .index = -1) (hleft : ∀ u ∈ ls.getLast?, s.get u .index = -1)
  (hright : ∀ u ∈ rs.head?, s.get u .index = -1) (hmem : s'.mem = s.mem)
  (hfree : s'.freePages = s.freePages) (hk : k = classOf (s.real t - 32))

include h hr htags hused hmem hfree hk

/-- Putting a free tag on its list : what is written, and that the lists agree with the layout
afterwards. -/
theorem Orderly.insertTag_writes : 8 ≤ k ∧ k < 32 ∧
    Wf (s'.insertTag t (BitVec.ofNat 32 k)) (L.withList k (t :: L.lists k)) ∧
    Mem.Frame (headers L.all) s.mem (s'.insertTag t (BitVec.ofNat 32 k)).mem ∧
    ∀ u, L.Has u → (∀ g, g ≠ .next → g ≠ .prev → g ≠ .index →
        (s'.insertTag t (BitVec.ofNat 32 k)).get u g = s.get u g) ∧
      (s'.insertTag t (BitVec.ofNat 32 k)).get u .index =
        if u = t then BitVec.ofNat 32 k else s.get u .index := by
  have hget : ∀ u g, s'.get u g = s.get u g := fun u g => by
    unfold get
    rw [hmem]
  have ht : L.Has t := ⟨r, hr, by simp [htags]⟩
  have hk8 : 8 ≤ k := hk ▸ eight_le_classOf _
  have hk32 : k < 32 := by
    rw [hk]
    refine classOf_lt ?_
    have hlt := (s.get t .realSize).isLt
    unfold real
    omega
  have hwf : Wf s' L := h.wf.congr hfree fun u _ g _ => hget u g
  obtain ⟨hframe, hwrites⟩ := hwf.insertTag_writes hk8 hk32 ht
  refine ⟨hk8, hk32, hwf.insertTag hk8 hk32 ht ((hget t _).trans hused), hmem ▸ hframe,
    fun u hu => ⟨fun g hnext hprev hindex => ?_, ?_⟩⟩
  · rw [hwrites u hu, ← hget]
    cases g <;> first | rfl | contradiction
  · rw [hwrites u hu, ← hget]

include hleft hright

/-- The block that is worked on becomes free. -/
theorem Orderly.insert (hle : s.whole t → (L.lists k).countP s.whole < 5)
    (hpages : ∀ k', 8 ≤ k' → k' < 32 → s'.completePages k' =
      if k' = k ∧ s.whole t then s.completePages k' + 1 else s.completePages k') :
    Orderly (s'.insertTag t (BitVec.ofNat 32 k)) (L.withList k (t :: L.lists k)) 0 := by
  obtain ⟨hk8, hk32, hwf, -, hwrites⟩ := h.insertTag_writes hr htags hused hmem hfree hk
  have ht : t ∈ L.tags r.1 := by simp [htags]
  have hreal : ∀ u, L.Has u → (s'.insertTag t (BitVec.ofNat 32 k)).real u = s.real u :=
    fun u hu => real_congr ((hwrites u hu).1 .realSize (by decide) (by decide) (by decide))
  have hindex : ∀ u, L.Has u → u ≠ t → s.get u .index = -1 →
      (s'.insertTag t (BitVec.ofNat 32 k)).get u .index = -1 := fun u hu hut hindex =>
    ((hwrites u hu).2.trans (if_neg hut)).trans hindex
  have hwhole : ∀ u, L.Has u → (s'.insertTag t (BitVec.ofNat 32 k)).whole u = s.whole u :=
    fun u hu => by
      unfold whole
      rw [(hwrites u hu).1 .splitLeft (by decide) (by decide) (by decide),
        (hwrites u hu).1 .splitRight (by decide) (by decide) (by decide)]
  have hcount : ∀ k', (L.lists k').countP (s'.insertTag t (BitVec.ofNat 32 k)).whole =
      (L.lists k').countP s.whole := fun k' =>
    List.countP_congr fun u hu => by rw [hwhole u (h.wf.has_of_mem hu)]
  -- The list of the block counts it when it is a whole range.
  have hcount_k : (t :: L.lists k).countP (s'.insertTag t (BitVec.ofNat 32 k)).whole =
      (L.lists k).countP s.whole + if s.whole t then 1 else 0 := by
    rw [List.countP_cons, hcount, hwhole t ⟨r, hr, ht⟩]
  refine ⟨hwf, fun k' u hu => ?_, fun r' hr' => ?_, fun k' => ?_, fun k' hk8' hk' => ?_,
    fun u hu _ hindex' => ?_⟩
  · rw [hreal u (hwf.has_of_mem hu)]
    rcases eq_or_ne k' k with rfl | hne
    · rw [Layout.lists_withList_self] at hu
      rcases List.mem_cons.1 hu with rfl | hu
      · exact hk.symm
      · exact h.sorted k' u hu
    · rw [Layout.lists_withList_of_ne _ hne] at hu
      exact h.sorted k' u hu
  -- In its own range the block has no free neighbour, and the other ranges stay.
  · have hparted := h.parted r' hr'
    show Parted _ (L.tags r'.1)
    rcases eq_or_ne r' r with rfl | hne
    · have hnot := (List.nodup_middle.1 (htags ▸ h.wf.nodup_tags hr)).notMem
      have hkeep : ∀ u ∈ ls ++ rs, s.get u .index = -1 →
          (s'.insertTag t (BitVec.ofNat 32 k)).get u .index = -1 := fun u hu hindex' => by
        refine hindex u ⟨r', hr', ?_⟩ (fun heq => hnot (heq ▸ hu)) hindex'
        rw [htags]
        simp only [List.mem_append, List.mem_cons] at hu ⊢
        tauto
      rw [htags] at hparted ⊢
      obtain ⟨hls, hrs⟩ := (parted_middle (p := (s.get · .index = -1)) hused).1 hparted
      refine List.isChain_append.2 ⟨hls.mono fun u hu => hkeep u (List.mem_append_left rs hu),
        List.isChain_cons.2 ⟨fun y hy => Or.inr ?_,
          hrs.mono fun u hu => hkeep u (List.mem_append_right ls hu)⟩, fun x hx _ _ => Or.inl ?_⟩
      · exact hkeep y (List.mem_append_right ls (List.mem_of_mem_head? hy)) (hright y hy)
      · exact hkeep x (List.mem_append_left rs (List.mem_of_getLast? hx)) (hleft x hx)
    · refine hparted.mono fun u hu hindex' => hindex u ⟨r', hr', hu⟩ (fun heq => ?_) hindex'
      exact hne (h.wf.range_unique hr' hu hr (heq ▸ ht))
  · rcases eq_or_ne k' k with rfl | hne
    · rw [Layout.lists_withList_self, hcount_k]
      have hle' := h.count_le k'
      split_ifs with hw
      · exact hle hw
      · exact hle'
    · rw [Layout.lists_withList_of_ne _ hne, hcount]
      exact h.count_le k'
  -- `l_completePages` goes up by one exactly when the count does.
  · rw [completePages_insertTag, hpages k' hk8' hk', h.counted k' hk8' hk']
    rcases eq_or_ne k' k with rfl | hne
    · rw [Layout.lists_withList_self, hcount_k]
      by_cases hw : s.whole t
      · rw [if_pos ⟨rfl, hw⟩, if_pos hw]
        exact (BitVec.ofNat_add _ _).symm
      · rw [if_neg fun hw' => hw hw'.2, if_neg hw, Nat.add_zero]
    · rw [Layout.lists_withList_of_ne _ hne, hcount, if_neg fun hw => hne hw.1]
  · have hut : u ≠ t := fun heq => by
      refine hwf.index_ne (k := k) ?_ (heq ▸ hindex')
      rw [Layout.lists_withList_self]
      exact List.mem_cons_self
    rw [hreal u hu, (hwrites u hu).1 .size (by decide) (by decide) (by decide)]
    exact h.room u hu hut (((hwrites u hu).2.trans (if_neg hut)).symm.trans hindex')

end Insert

/-- The blocks in use and the other lists are kept. -/
theorem Orderly.carries_insert (h : Orderly s L t) (hr : r ∈ L.ranges)
    (htags : L.tags r.1 = ls ++ t :: rs) (hused : s.get t .index = -1) (hmem : s'.mem = s.mem)
    (hfree : s'.freePages = s.freePages) (hk : k = classOf (s.real t - 32))
    (hinit : s'.initialized = s.initialized) :
    Carries s L t (s'.insertTag t (BitVec.ofNat 32 k)) (L.withList k (t :: L.lists k)) 0 := by
  obtain ⟨hk8, hk32, hwf, hframe, hwrites⟩ := h.insertTag_writes hr htags hused hmem hfree hk
  refine ⟨rfl, fun u hu => hu, fun u n => ⟨?_, ?_⟩, hframe,
    (initialized_insertTag _ _ _).trans hinit⟩
  · rintro ⟨hu, -, hindex, hsize⟩
    have hut : u ≠ t := fun heq => by
      refine hwf.index_ne (k := k) ?_ (heq ▸ hindex)
      rw [Layout.lists_withList_self]
      exact List.mem_cons_self
    refine ⟨hu, hut, ((hwrites u hu).2.trans (if_neg hut)).symm.trans hindex, ?_⟩
    exact ((hwrites u hu).1 .size (by decide) (by decide) (by decide)).symm.trans hsize
  · rintro ⟨hu, hut, hindex, hsize⟩
    refine ⟨hu, h.wf.ne_zero hu, ((hwrites u hu).2.trans (if_neg hut)).trans hindex, ?_⟩
    exact ((hwrites u hu).1 .size (by decide) (by decide) (by decide)).trans hsize

/-! ## The block that is worked on -/

/-- Any block may be worked on. -/
theorem Orderly.focus (h : Orderly s L 0) (t : Word) : Orderly s L t :=
  ⟨h.wf, h.sorted, h.parted, h.count_le, h.counted, fun u hu _ => h.room u hu (h.wf.ne_zero hu)⟩

/-- The block that is worked on is not among those in use. -/
theorem Orderly.inUse_focus (h : Orderly s L 0) (n : Word) :
    InUse s L t u n ↔ InUse s L 0 u n ∧ u ≠ t :=
  ⟨fun hu => ⟨⟨hu.has, h.wf.ne_zero hu.has, hu.index, hu.size⟩, hu.ne⟩,
    fun hu => ⟨hu.1.has, hu.2, hu.1.index, hu.1.size⟩⟩

/-- The range goes away whose only block is worked on. -/
theorem Orderly.release (h : Orderly s L t) (hr : r ∈ L.ranges) (htags : L.tags r.1 = [t])
    (hused : s.get t .index = -1) : Orderly s (L.withoutRange r) 0 ∧
      ∀ u n, InUse s (L.withoutRange r) 0 u n ↔ InUse s L t u n := by
  have hwf := h.wf.release hr htags hused
  have hmem : ∀ r', r' ∈ (L.withoutRange r).ranges ↔ r' ∈ L.ranges ∧ r' ≠ r := fun r' => by
    simp [Layout.withoutRange]
  have hhas : ∀ u, (L.withoutRange r).Has u ↔ L.Has u ∧ u ≠ t := fun u => by
    constructor
    · rintro ⟨r', hr', hu⟩
      obtain ⟨hr', hne⟩ := (hmem r').1 hr'
      refine ⟨⟨r', hr', hu⟩, fun heq => hne (h.wf.range_unique hr' hu hr ?_)⟩
      rw [htags, heq]
      exact List.mem_singleton_self t
    · rintro ⟨⟨r', hr', hu⟩, hut⟩
      refine ⟨r', (hmem r').2 ⟨hr', fun heq => hut ?_⟩, hu⟩
      rwa [heq, htags, List.mem_singleton] at hu
  refine ⟨⟨hwf, h.sorted, fun r' hr' => h.parted r' ((hmem r').1 hr').1, h.count_le, h.counted,
    fun u hu _ => ?_⟩, fun u n => ?_⟩
  · obtain ⟨hu, hut⟩ := (hhas u).1 hu
    exact h.room u hu hut
  · constructor
    · rintro ⟨hu, -, hindex, hsize⟩
      obtain ⟨hu, hut⟩ := (hhas u).1 hu
      exact ⟨hu, hut, hindex, hsize⟩
    · rintro ⟨hu, hut, hindex, hsize⟩
      exact ⟨(hhas u).2 ⟨hu, hut⟩, h.wf.ne_zero hu, hindex, hsize⟩

end Liballoc

end Scorch
