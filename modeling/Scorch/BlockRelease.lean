import Mathlib.Data.Finset.Card
import Mathlib.Data.Finset.Range
import Scorch.BlockOrder

/-!
# Release of a block

`free` melts the block into the free blocks to its left, absorbs those to its right, and puts
what it has then into a list, or gives it to `liballoc_free` when it is a whole range and five
of its list stand by. Each round of the two loops keeps the order of the blocks
(`Orderly.meltLeft`, `Orderly.absorbRight`), and the rounds end (`Orderly.meltLoop`,
`Orderly.absorbLoop`), as there are fewer tags than rounds.

A round to the left takes a free block off its list and makes it and the block that is worked on
one block, and a round to the right does the same with the neighbour behind. Both are the step
`Orderly.merge`. At the end (`Orderly.giveBack`) either the block goes into the list for its
length, or its range is a whole one that is not kept, and `Orderly.free` says which ranges are
left then.
-/

open ByteMemory

namespace Scorch

namespace Liballoc

variable {s s' : Liballoc} {L L' : Layout} {t u v l : Word} {r : ℕ × ℕ} {k n : ℕ}
  {ls rs xs ys : List Word}

/-! ## The number of tags -/

/-- There are at most as many tags as records of 32 bytes fit into memory. -/
theorem Wf.length_le (h : Wf s L) {l : List Word} (hnodup : l.Nodup) (hl : ∀ t ∈ l, L.Has t) :
    l.length ≤ 2 ^ 27 := by
  have hinj : (l.map fun t => t.toNat / 32).Nodup := by
    refine (List.nodup_map_iff_inj_on hnodup).2 fun t ht u hu heq => ?_
    have hheader := h.header t (hl t ht)
    have hheader' := h.header u (hl u hu)
    rcases h.eq_or_apart (hl t ht) (hl u hu) with heq' | hapart
    · exact heq'
    · omega
  have hsub : (l.map fun t => t.toNat / 32).toFinset ⊆ Finset.range (2 ^ 27) := fun x hx => by
    obtain ⟨t, -, rfl⟩ := List.mem_map.1 (List.mem_toFinset.1 hx)
    have hlt := t.isLt
    rw [Finset.mem_range]
    omega
  have hcard := Finset.card_le_card hsub
  rwa [List.toFinset_card_of_nodup hinj, List.length_map, Finset.card_range] at hcard

/-- The index of a tag is negative when it is in no list. -/
theorem Wf.slt_index_iff (h : Wf s L) (ht : L.Has t) :
    (s.get t .index).slt 0 ↔ s.get t .index = -1 := by
  rcases h.index t ht with ⟨hindex, -⟩ | ⟨k, hk⟩
  · rw [hindex]
    exact iff_of_true (by decide) rfl
  · obtain ⟨-, -, hlt, hindex⟩ := h.listed k t hk
    refine iff_of_false ?_ (h.index_ne hk)
    rw [hindex]
    exact not_slt_ofNat (by omega)

/-! ## To the left -/

/-- One round of the loop to the left. -/
theorem Orderly.meltLeft (h : Orderly s L t) (hr : r ∈ L.ranges)
    (htags : L.tags r.1 = ls ++ l :: t :: rs) (hused : s.get t .index = -1)
    (hfree : s.get l .index ≠ -1) :
    ∃ L', Orderly ((s.meltLeft t).2.removeTag l) L' l ∧
      Carries s L t ((s.meltLeft t).2.removeTag l) L' l ∧
      ((s.meltLeft t).2.removeTag l).get l .index = -1 ∧ L'.tags r.1 = ls ++ l :: rs := by
  have hl : L.Has l := ⟨r, hr, by simp [htags]⟩
  have ht : L.Has t := ⟨r, hr, by simp [htags]⟩
  have hlt : l ≠ t := fun heq => hfree (heq ▸ hused)
  -- A free block stands in a list.
  obtain ⟨k, hlk⟩ := (h.wf.index l hl).resolve_left fun hnone => hfree hnone.1
  obtain ⟨xs, ys, hlist⟩ := List.append_of_mem hlk
  have hsplit : L.tags r.1 = (ls ++ [l]) ++ t :: rs := by simp [htags]
  obtain ⟨hleft, hright⟩ := h.wf.neighbours hr hsplit
  have hleft_l : s.get t .splitLeft = l := by
    rw [hleft]
    simp
  have hright_mem : s.get t .splitRight = 0 ∨ s.get t .splitRight ∈ L.all := by
    rcases List.mem_cons.1 (hright ▸ DoublyLinked.headD_mem_cons rs 0) with h0 | hmem
    · exact Or.inl h0
    · exact Or.inr ⟨r, hr, by simp [htags, hmem]⟩
  -- First `melt_left` gives the block to `l`, then `l` leaves its list.
  have hover := h.wf.separate.takesOver_meltLeft ht hleft_l hl hlt hright_mem
  have hwf := h.wf.takesOver hr htags hused hover (freePages_meltLeft s t)
  have hlist' : (L.withTags r.1 (ls ++ l :: rs)).lists k = xs ++ l :: ys := hlist
  have hwf' := hwf.removeTag hlist'
  have hlk' : l ∈ (L.withTags r.1 (ls ++ l :: rs)).lists k := hlk
  have hhas : ∀ u, (L.merge r (ls ++ l :: rs) k (xs ++ ys)).Has u ↔ L.Has u ∧ u ≠ t :=
    fun u => h.has_merge hr htags rfl
  have hget := fun u g (hu : L.Has u ∧ u ≠ t) =>
    hwf.get_removeTag (g := g) hlk' ((hhas u).2 hu)
  have hindex : ((s.meltLeft t).2.removeTag l).get l .index = -1 :=
    (hget l .index ⟨hl, hlt⟩).trans (if_pos rfl)
  -- Together they are a merge whose left block was the free one.
  have hmerge := h.merge hr htags hlist rfl (Or.inr ⟨rfl, rfl⟩) hwf' (fun u hu hut hul => ?_) hindex
    (by simp) ?_ (by simp)
  · exact ⟨_, hmerge.1, hmerge.2, hindex, L.tags_withTags_self r.1 _⟩
  · refine ⟨?_, ?_, ?_⟩
    · exact ((hget u .index ⟨hu, hut⟩).trans (if_neg hul)).trans (hover.get u hu .index)
    · exact (hget u .size ⟨hu, hut⟩).trans (hover.get u hu .size)
    · exact (hget u .realSize ⟨hu, hut⟩).trans ((hover.get u hu .realSize).trans (if_neg hul))
  · exact hover.frame.trans ((hwf.frame_removeTag hlk').mono
      (headers_mono fun u hu => ((hhas u).1 hu).1))

/-- The loop to the left ends at a block whose left neighbour is handed out, if it has one. -/
theorem Orderly.meltLoop (h : Orderly s L t) (hr : r ∈ L.ranges)
    (htags : L.tags r.1 = ls ++ t :: rs) (hused : s.get t .index = -1) (hn : ls.length < n) :
    ∃ s' t' L' ls', meltLoop n s t = some (t', s') ∧ Orderly s' L' t' ∧ Carries s L t s' L' t' ∧
      s'.get t' .index = -1 ∧ L'.tags r.1 = ls' ++ t' :: rs ∧
      ∀ u ∈ ls'.getLast?, s'.get u .index = -1 := by
  -- A round takes one tag from those to the left, so they bound the rounds.
  induction n generalizing s t L ls with
  | zero => exact absurd hn (Nat.not_lt_zero _)
  | succ n ih =>
    have hleft := (h.wf.neighbours hr htags).1
    -- The loop stops at the end of the range,
    rcases List.eq_nil_or_concat ls with rfl | ⟨ls, l, rfl⟩
    · refine ⟨s, t, L, [], ?_, h, Carries.refl s L t, hused, htags, by simp⟩
      rw [Liballoc.meltLoop, if_neg]
      exact fun hne => hne.1 hleft
    · have hl : L.Has l := ⟨r, hr, by simp [htags]⟩
      have hleft_l : s.get t .splitLeft = l := by
        rw [hleft]
        simp
      rw [List.concat_eq_append] at *
      -- stops at a block that is handed out, and goes on otherwise.
      by_cases hfree : s.get l .index = -1
      · refine ⟨s, t, L, ls ++ [l], ?_, h, Carries.refl s L t, hused, htags, by simp [hfree]⟩
        rw [Liballoc.meltLoop, if_neg]
        rw [hleft_l, h.wf.slt_index_iff hl]
        exact fun hne => hne.2 hfree
      · obtain ⟨L₁, h₁, hc₁, hused₁, htags₁⟩ :=
          h.meltLeft hr (by simpa using htags) hused hfree
        obtain ⟨s', t', L', ls', hloop, h', hc', hrest⟩ :=
          ih h₁ (hc₁.ranges ▸ hr) htags₁ hused₁ (by simp at hn; omega)
        refine ⟨s', t', L', ls', ?_, h', hc₁.trans hc', hrest⟩
        have hgo : s.get t .splitLeft ≠ 0 ∧ ¬(s.get (s.get t .splitLeft) .index).slt 0 := by
          rw [hleft_l, h.wf.slt_index_iff hl]
          exact ⟨h.wf.ne_zero hl, hfree⟩
        rw [Liballoc.meltLoop, if_pos hgo]
        show Liballoc.meltLoop n ((s.meltLeft t).2.removeTag (s.get t .splitLeft))
          (s.get t .splitLeft) = _
        rw [hleft_l]
        exact hloop

/-! ## To the right -/

/-- One round of the loop to the right. -/
theorem Orderly.absorbRight (h : Orderly s L t) (hr : r ∈ L.ranges)
    (htags : L.tags r.1 = ls ++ t :: u :: rs) (hused : s.get t .index = -1)
    (hfree : s.get u .index ≠ -1) :
    ∃ L', Orderly (s.absorbRight t).2 L' t ∧ Carries s L t (s.absorbRight t).2 L' t ∧
      (s.absorbRight t).2.get t .index = -1 ∧ L'.tags r.1 = ls ++ t :: rs ∧
      ∀ w, L'.Has w → w ≠ t → (s.absorbRight t).2.get w .index = s.get w .index := by
  have ht : L.Has t := ⟨r, hr, by simp [htags]⟩
  have hu : L.Has u := ⟨r, hr, by simp [htags]⟩
  have htu : u ≠ t := fun heq => hfree (heq ▸ hused)
  obtain ⟨k, huk⟩ := (h.wf.index u hu).resolve_left fun hnone => hfree hnone.1
  obtain ⟨xs, ys, hlist⟩ := List.append_of_mem huk
  have hright : s.get t .splitRight = u := (h.wf.neighbours hr htags).2
  -- Here the neighbour leaves its list before its block is taken over.
  have hwf := h.wf.removeTag hlist
  have hget : ∀ w, L.Has w → ∀ g, (s.removeTag u).get w g = _ := fun w hw g =>
    h.wf.get_removeTag (g := g) huk hw
  have hsplit : L.tags r.1 = (ls ++ [t]) ++ u :: rs := by simp [htags]
  have hbehind : (s.removeTag u).get u .splitRight = 0 ∨
      (s.removeTag u).get u .splitRight ∈ L.all := by
    have hbehind : (s.removeTag u).get u .splitRight = rs.headD 0 :=
      (hget u hu .splitRight).trans (h.wf.neighbours hr hsplit).2
    rw [hbehind]
    refine (List.mem_cons.1 (DoublyLinked.headD_mem_cons rs 0)).imp_right fun hmem => ⟨r, hr, ?_⟩
    rw [htags]
    exact List.mem_append_right ls (List.mem_cons_of_mem t (List.mem_cons_of_mem u hmem))
  have hover := h.wf.separate.takesOver_absorbRight ht hright hu htu hbehind
  have hused' : (s.removeTag u).get u .index = -1 := (hget u hu .index).trans (if_pos rfl)
  have htags' : (L.withList k (xs ++ ys)).tags r.1 = ls ++ t :: u :: rs := htags
  have hfree' := freePages_absorbRight s t
  rw [hright] at hfree'
  have hwf' := hwf.takesOver hr htags' hused' hover hfree'
  have hsame : ∀ w, L.Has w → w ≠ u → w ≠ t →
      (s.absorbRight t).2.get w .index = s.get w .index ∧
      (s.absorbRight t).2.get w .size = s.get w .size ∧
      (s.absorbRight t).2.get w .realSize = s.get w .realSize := fun w hw hwu hwt => by
    refine ⟨?_, ?_, ?_⟩
    · exact (hover.get w hw .index).trans ((hget w hw .index).trans (if_neg hwu))
    · exact (hover.get w hw .size).trans (hget w hw .size)
    · exact (hover.get w hw .realSize).trans ((if_neg hwt).trans (hget w hw .realSize))
  have hindex : (s.absorbRight t).2.get t .index = -1 :=
    (hover.get t ht .index).trans (((hget t ht .index).trans (if_neg (Ne.symm htu))).trans hused)
  have hhas : ∀ w, (L.merge r (ls ++ t :: rs) k (xs ++ ys)).Has w ↔ L.Has w ∧ w ≠ u :=
    fun w => h.has_merge hr htags rfl
  -- A merge whose right block was the free one.
  have hmerge := h.merge hr htags hlist rfl (Or.inl ⟨rfl, rfl⟩) hwf' hsame hindex (by simp)
    ((h.wf.frame_removeTag huk).trans hover.frame) (by simp)
  exact ⟨_, hmerge.1, hmerge.2, hindex, L.tags_withTags_self r.1 _, fun w hw hwt =>
    (hsame w ((hhas w).1 hw).1 ((hhas w).1 hw).2 hwt).1⟩

/-- The loop to the right ends when the right neighbour is handed out, if there is one. -/
theorem Orderly.absorbLoop (h : Orderly s L t) (hr : r ∈ L.ranges)
    (htags : L.tags r.1 = ls ++ t :: rs) (hused : s.get t .index = -1) (hn : rs.length < n) :
    ∃ s' L' rs', absorbLoop n s t = some (t, s') ∧ Orderly s' L' t ∧ Carries s L t s' L' t ∧
      s'.get t .index = -1 ∧ L'.tags r.1 = ls ++ t :: rs' ∧
      (∀ u ∈ rs'.head?, s'.get u .index = -1) ∧
      ∀ w, L'.Has w → w ≠ t → s'.get w .index = s.get w .index := by
  -- As to the left, with the tags to the right.
  induction n generalizing s L rs with
  | zero => exact absurd hn (Nat.not_lt_zero _)
  | succ n ih =>
    have hright := (h.wf.neighbours hr htags).2
    cases rs with
    | nil =>
      refine ⟨s, L, [], ?_, h, Carries.refl s L t, hused, htags, by simp, fun _ _ _ => rfl⟩
      rw [Liballoc.absorbLoop, if_neg]
      exact fun hne => hne.1 hright
    | cons u rs =>
      have hu : L.Has u := ⟨r, hr, by simp [htags]⟩
      rw [List.headD_cons] at hright
      by_cases hfree : s.get u .index = -1
      · refine ⟨s, L, u :: rs, ?_, h, Carries.refl s L t, hused, htags, by simp [hfree],
          fun _ _ _ => rfl⟩
        rw [Liballoc.absorbLoop, if_neg]
        rw [hright, h.wf.slt_index_iff hu]
        exact fun hne => hne.2 hfree
      · obtain ⟨L₁, h₁, hc₁, hused₁, htags₁, hsame₁⟩ := h.absorbRight hr htags hused hfree
        obtain ⟨s', L', rs', hloop, h', hc', hused', htags', hhead, hsame⟩ :=
          ih h₁ (hc₁.ranges ▸ hr) htags₁ hused₁ (by simp at hn; omega)
        refine ⟨s', L', rs', ?_, h', hc₁.trans hc', hused', htags', hhead, fun w hw hwt =>
          (hsame w hw hwt).trans (hsame₁ w (hc'.sub w hw) hwt)⟩
        have hgo : s.get t .splitRight ≠ 0 ∧ ¬(s.get (s.get t .splitRight) .index).slt 0 := by
          rw [hright, h.wf.slt_index_iff hu]
          exact ⟨h.wf.ne_zero hu, hfree⟩
        rw [Liballoc.absorbLoop, if_pos hgo]
        exact hloop

/-! ## The end of a release -/

section GiveBack

variable (h : Orderly s L t) (hr : r ∈ L.ranges) (htags : L.tags r.1 = ls ++ t :: rs)
  (hused : s.get t .index = -1) (hleft : ∀ u ∈ ls.getLast?, s.get u .index = -1)
  (hright : ∀ u ∈ rs.head?, s.get u .index = -1)

include h hr htags hused hleft hright

/-- The block is put into a list, or its range is given back whole. -/
theorem Orderly.giveBack :
    (∃ pages, (s.giveBack t).released = some (t, pages) ∧ (s.giveBack t).state = s ∧
      L.tags r.1 = [t] ∧ r = (t.toNat, 4096 * pages.toNat)) ∨
    (s.giveBack t).released = none ∧
      ∃ L', Orderly (s.giveBack t).state L' 0 ∧ Carries s L t (s.giveBack t).state L' 0 := by
  have ht : t ∈ L.tags r.1 := by simp [htags]
  have hheader := h.wf.header t ⟨r, hr, ht⟩
  have hlist : listOf (s.get t .realSize - 32) = BitVec.ofNat 32 (classOf (s.real t - 32)) := by
    rw [listOf_eq]
    congr 2
    unfold real at *
    bv_omega
  have hk32 : classOf (s.real t - 32) < 32 := classOf_lt (by
    have hlt := (s.get t .realSize).isLt
    unfold real
    omega)
  have hnat : (BitVec.ofNat 32 (classOf (s.real t - 32))).toNat = classOf (s.real t - 32) :=
    toNat_ofNat_of_lt (by omega)
  have hcounted := h.counted _ (eight_le_classOf _) hk32
  have hle := h.count_le (classOf (s.real t - 32))
  unfold Liballoc.giveBack
  dsimp only
  rw [hlist, hnat]
  by_cases hw : s.whole t
  · rw [if_pos (whole_eq_true_iff.1 hw)]
    split_ifs with hfull
    -- Five of its list stand by, so the range is given back. It is all of the block.
    · refine Or.inl ⟨_, rfl, rfl, (h.wf.whole_iff hr ht).1 hw, ?_⟩
      have htiles := (h.wf.range r hr).tiles
      obtain ⟨n, hn, hlen⟩ := (h.wf.range r hr).pages
      rw [(h.wf.whole_iff hr ht).1 hw] at htiles
      obtain ⟨hbase, hend⟩ := htiles
      have hreal : (s.get t .realSize).toNat = 4096 * n := by
        have hend' : r.1 + s.real t = r.1 + r.2 := hend
        unfold real at hend'
        omega
      exact Prod.ext hbase.symm (by rw [toNat_pagesOf hn hreal, hlen])
    -- Fewer stand by : it is put into the list and counted.
    · refine Or.inr ⟨rfl, _, h.insert hr htags hused hleft hright rfl rfl rfl (fun _ => ?_)
        fun k' _ _ => ?_, h.carries_insert hr htags hused rfl rfl rfl rfl⟩
      · refine lt_of_le_of_ne hle fun hfive => hfull ?_
        rw [hcounted, hfive]
        rfl
      · rw [setCompletePages, hnat]
        rcases eq_or_ne k' (classOf (s.real t - 32)) with rfl | hne
        · rw [if_pos ⟨rfl, hw⟩]
          exact Function.update_self _ _ _
        · rw [if_neg fun hk => hne hk.1]
          exact Function.update_of_ne hne _ _
  -- A block with neighbours is put into the list and not counted.
  · rw [if_neg (mt whole_eq_true_iff.2 hw)]
    exact Or.inr ⟨rfl, _, h.insert hr htags hused hleft hright rfl rfl rfl
      (fun hw' => absurd hw' hw) fun k' _ _ => (if_neg fun hw' => hw hw'.2).symm,
      h.carries_insert hr htags hused rfl rfl rfl rfl⟩

end GiveBack

/-! ## A call of `free` -/

/-- A block that is handed out starts behind its tag. -/
theorem Wf.toNat_payload (h : Wf s L) (ht : L.Has t) : (t + 32).toNat = t.toNat + 32 ∧
    t + 32 ≠ 0 ∧ t + 32 - 32 = t := by
  have hheader := h.header t ht
  obtain ⟨r, hr, htr⟩ := ht
  have hbounds := h.bounds hr htr
  have hnat : (t + 32).toNat = t.toNat + 32 := by
    rw [BitVec.toNat_add, show (32 : Word).toNat = 32 from rfl]
    omega
  refine ⟨hnat, fun h0 => ?_, by bv_omega⟩
  rw [h0] at hnat
  exact absurd hnat.symm (Nat.succ_ne_zero _)

/-- The ranges that are left when some pages are given back, if any are. -/
def leftRanges (ranges : List (ℕ × ℕ)) : Option (Word × Word) → List (ℕ × ℕ)
  | none => ranges
  | some (a, pages) => ranges.filter (· ≠ (a.toNat, 4096 * pages.toNat))

/-- A call with a block that is handed out returns. It takes the block from those that are handed
out, and what it gives back is a range. -/
theorem Orderly.free {size : Word} (h : Orderly s L 0) (ht : InUse s L 0 t size)
    (hn : 2 ^ 27 < n) :
    ∃ run L', Liballoc.free n s (t + 32) = some run ∧ Orderly run.state L' 0 ∧
      L'.ranges = leftRanges L.ranges run.released ∧
      (∀ a pages, run.released = some (a, pages) → (a.toNat, 4096 * pages.toNat) ∈ L.ranges) ∧
      (∀ u m, InUse run.state L' 0 u m ↔ InUse s L 0 u m ∧ u ≠ t) ∧
      Mem.Frame (headers L.all) s.mem run.state.mem ∧ run.state.initialized = s.initialized := by
  obtain ⟨-, hptr, hsub⟩ := h.wf.toNat_payload ht.has
  obtain ⟨r, hr, htr⟩ := ht.has
  obtain ⟨ls, rs, htags⟩ := List.append_of_mem htr
  have hlen := h.wf.length_le (h.wf.nodup_tags hr) fun u hu => ⟨r, hr, hu⟩
  rw [htags, List.length_append, List.length_cons] at hlen
  obtain ⟨s₁, t₁, L₁, ls₁, hmelt, h₁, hc₁, hused₁, htags₁, hleft₁⟩ :=
    (h.focus t).meltLoop hr htags ht.index (n := n) (by omega)
  have hr₁ : r ∈ L₁.ranges := hc₁.ranges ▸ hr
  obtain ⟨s₂, L₂, rs₂, habsorb, h₂, hc₂, hused₂, htags₂, hright₂, hsame₂⟩ :=
    h₁.absorbLoop hr₁ htags₁ hused₁ (n := n) (by omega)
  have hr₂ : r ∈ L₂.ranges := hc₂.ranges ▸ hr₁
  have hc : Carries s L t s₂ L₂ t₁ := hc₁.trans hc₂
  have hleft₂ : ∀ u ∈ ls₁.getLast?, s₂.get u .index = -1 := fun u hu => by
    have hmem : u ∈ ls₁ := List.mem_of_getLast? hu
    refine (hsame₂ u ⟨r, hr₂, by simp [htags₂, hmem]⟩ fun heq => ?_).trans (hleft₁ u hu)
    have hnot := (List.nodup_middle.1 (htags₂ ▸ h₂.wf.nodup_tags hr₂)).notMem
    exact hnot (List.mem_append_left rs₂ (heq ▸ hmem))
  have hfree : Liballoc.free n s (t + 32) = some (s₂.giveBack t₁) := by
    unfold Liballoc.free
    dsimp only
    rw [if_neg hptr, hsub, if_neg (not_not.2 (h.wf.magic t ht.has)), hmelt, Option.bind_some,
      habsorb, Option.map_some]
  have hinUse : ∀ u m, InUse s L t u m ↔ InUse s L 0 u m ∧ u ≠ t := fun u m => h.inUse_focus m
  rcases h₂.giveBack hr₂ htags₂ hused₂ hleft₂ hright₂ with
    ⟨pages, hrel, hstate, hone, hrange⟩ | ⟨hrel, L', h', hc'⟩
  · obtain ⟨h', hinUse'⟩ := h₂.release hr₂ hone hused₂
    refine ⟨_, L₂.withoutRange r, hfree, hstate.symm ▸ h', ?_, ?_, ?_, ?_, ?_⟩
    · rw [hrel, ← hc.ranges, leftRanges, ← hrange]
      rfl
    · rintro a pages' heq
      rw [hrel, Option.some.injEq, Prod.mk.injEq] at heq
      rw [← heq.1, ← heq.2, ← hrange]
      exact hr
    · intro u m
      rw [hstate, hinUse', hc.inUse, hinUse]
    · rw [hstate]
      exact hc.frame
    · rw [hstate]
      exact hc.initialized
  · have hall := hc.trans hc'
    refine ⟨_, L', hfree, h', ?_, ?_, ?_, hall.frame, hall.initialized⟩
    · rw [hrel]
      exact hall.ranges
    · rw [hrel]
      exact fun a pages heq => nomatch heq
    · exact fun u m => (hall.inUse u m).trans (hinUse u m)

end Liballoc

end Scorch
