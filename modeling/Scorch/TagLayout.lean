import Scorch.Lib.DoublyLinked
import Scorch.Lib.Tiling
import Scorch.TagOperations

/-!
# The layout of the heap

A layout says where the tags are : the ranges of pages, the tags of each range from left to
right, and the lists of free tags. `Wf` says that the members of the tags agree with a layout.
The blocks of a range tile it and are linked to their neighbours, a list is linked both ways
from its head, and the index of a tag is the number of its list, or `-1` when it stands in none.

Every helper function changes the layout in one place and keeps `Wf` : a tag leaves a list
(`Wf.removeTag`) or comes to the front of one (`Wf.insertTag`), a block is given to its left
neighbour (`Wf.takesOver`) or cut in two (`Wf.cutOff`), a range is new (`Wf.allocateNewTag`)
or goes away (`Wf.release`).

What a helper function leaves in the members of the tags is known from `TagOperations`. Here it
is compared with the changed layout : `Wf` has one field for each thing that must agree (the
tiling, the neighbours, the lists, the indices), and each theorem proves the fields one by one.
-/

open ByteMemory DoublyLinked Tiling

namespace Scorch

namespace Liballoc

/-- The length of the block of a tag. -/
def real (s : Liballoc) (t : Word) : ℕ :=
  (s.get t .realSize).toNat

/-- Ranges with their first address and length, the tags of the range from an address on, and the
tags in a list. -/
structure Layout where
  ranges : List (ℕ × ℕ)
  tags : ℕ → List Word
  lists : ℕ → List Word

namespace Layout

/-- The tag is in a range. -/
def Has (L : Layout) (t : Word) : Prop :=
  ∃ r ∈ L.ranges, t ∈ L.tags r.1

/-- The tags of all ranges. -/
def all (L : Layout) : Set Word :=
  {t | L.Has t}

/-- The range from `b` on has these tags. -/
def withTags (L : Layout) (b : ℕ) (l : List Word) : Layout :=
  { L with tags := Function.update L.tags b l }

@[simp] theorem tags_withTags_self (L : Layout) (b : ℕ) (l : List Word) :
    (L.withTags b l).tags b = l := by
  simp [withTags]

/-- The tags of the other ranges stay. -/
theorem tags_withTags_of_ne (L : Layout) {b b' : ℕ} (hne : b' ≠ b) (l : List Word) :
    (L.withTags b l).tags b' = L.tags b' := by
  simp [withTags, hne]

/-- A new range whose first tag is the only one. -/
def withRange (L : Layout) (t : Word) (len : ℕ) : Layout :=
  { L with
    ranges := (t.toNat, len) :: L.ranges
    tags := Function.update L.tags t.toNat [t] }

/-- A range goes away. -/
def withoutRange (L : Layout) (r : ℕ × ℕ) : Layout :=
  { L with ranges := L.ranges.filter (· ≠ r) }

/-- List `k` has these tags. -/
def withList (L : Layout) (k : ℕ) (l : List Word) : Layout :=
  { L with lists := Function.update L.lists k l }

@[simp] theorem lists_withList_self (L : Layout) (k : ℕ) (l : List Word) :
    (L.withList k l).lists k = l := by
  simp [withList]

theorem lists_withList_of_ne (L : Layout) {k k' : ℕ} (hne : k' ≠ k) (l : List Word) :
    (L.withList k l).lists k' = L.lists k' := by
  simp [withList, hne]

end Layout

/-- The tags of a range tile it and are linked to their neighbours. -/
structure HoldsRange (s : Liballoc) (r : ℕ × ℕ) (l : List Word) : Prop where
  pos : 0 < r.1
  fits : r.1 + r.2 < 2 ^ 32
  pages : ∃ n, 16 ≤ n ∧ r.2 = 4096 * n
  tiles : Tiles BitVec.toNat s.real r.1 l (r.1 + r.2)
  links : Links (s.get · .splitRight) (s.get · .splitLeft) 0 l 0

/-- The members of the tags agree with the layout. -/
structure Wf (s : Liballoc) (L : Layout) : Prop where
  range : ∀ r ∈ L.ranges, HoldsRange s r (L.tags r.1)
  distinct : L.ranges.Nodup
  apart : ∀ r ∈ L.ranges, ∀ r' ∈ L.ranges, r = r' ∨ r.1 + r.2 ≤ r'.1 ∨ r'.1 + r'.2 ≤ r.1
  header : ∀ t, L.Has t → 32 ≤ s.real t
  magic : ∀ t, L.Has t → s.get t .magic = liballocMagic
  heads : ∀ k, 8 ≤ k → k < 32 → s.freePages k = (L.lists k).headD 0
  list : ∀ k, Links (s.get · .next) (s.get · .prev) 0 (L.lists k) 0
  nodup : ∀ k, (L.lists k).Nodup
  listed : ∀ k, ∀ t ∈ L.lists k, L.Has t ∧ 8 ≤ k ∧ k < 32 ∧ s.get t .index = BitVec.ofNat 32 k
  index : ∀ t, L.Has t →
    s.get t .index = -1 ∧ s.get t .next = 0 ∧ s.get t .prev = 0 ∨ ∃ k, t ∈ L.lists k

variable {s s' : Liballoc} {L : Layout} {t u l : Word} {r r' : ℕ × ℕ} {k k' : ℕ}
  {ls rs xs ys : List Word} {g : TagField}

/-- A range depends on the sizes and the neighbour pointers of its tags only. -/
theorem HoldsRange.congr (h : HoldsRange s r ls) (hreal : ∀ t ∈ ls, s'.real t = s.real t)
    (hright : ∀ t ∈ ls, s'.get t .splitRight = s.get t .splitRight)
    (hleft : ∀ t ∈ ls, s'.get t .splitLeft = s.get t .splitLeft) : HoldsRange s' r ls :=
  ⟨h.pos, h.fits, h.pages, h.tiles.congr hreal, h.links.congr hright hleft⟩

/-- The size of a tag is a member of its record. -/
theorem real_congr (hreal : s'.get t .realSize = s.get t .realSize) : s'.real t = s.real t :=
  congrArg BitVec.toNat hreal

/-- Different lists have different indices. -/
theorem ofNat_inj_of_lt (hk : k < 32) (hk' : k' < 32)
    (h : BitVec.ofNat 32 k = BitVec.ofNat 32 k') : k = k' := by
  have hnat := congrArg BitVec.toNat h
  rwa [toNat_ofNat_of_lt (by omega), toNat_ofNat_of_lt (by omega)] at hnat

/-- The index of a list is not negative as an `int`. -/
theorem not_slt_ofNat (hk : k < 2 ^ 31) : ¬(BitVec.ofNat 32 k).slt 0 := by
  have hnat : (BitVec.ofNat 32 k).toNat = k := toNat_ofNat_of_lt (by omega)
  rw [slt_of_lt (by omega) (by decide)]
  simp

namespace Wf

section Tags

variable (h : Wf s L)

include h

/-- A block lies in its range. -/
theorem bounds (hr : r ∈ L.ranges) (ht : t ∈ L.tags r.1) :
    0 < t.toNat ∧ r.1 ≤ t.toNat ∧ t.toNat + s.real t ≤ r.1 + r.2 ∧ r.1 + r.2 < 2 ^ 32 := by
  have hrange := h.range r hr
  have hbounds := hrange.tiles.bounds ht
  have hpos := hrange.pos
  exact ⟨by omega, hbounds.1, hbounds.2, hrange.fits⟩

theorem base_inj (hr : r ∈ L.ranges) (hr' : r' ∈ L.ranges) (hbase : r.1 = r'.1) : r = r' := by
  obtain ⟨n, hn, hlen⟩ := (h.range r hr).pages
  obtain ⟨n', hn', hlen'⟩ := (h.range r' hr').pages
  rcases h.apart r hr r' hr' with heq | hapart
  · exact heq
  · omega

/-- Two blocks have no byte in common. -/
theorem eq_or_apart (ht : L.Has t) (hu : L.Has u) :
    t = u ∨ t.toNat + s.real t ≤ u.toNat ∨ u.toNat + s.real u ≤ t.toNat := by
  obtain ⟨r, hr, htr⟩ := ht
  obtain ⟨r', hr', hur⟩ := hu
  rcases h.apart r hr r' hr' with rfl | hapart
  · exact (h.range r hr).tiles.eq_or_apart htr hur
  · have htb := h.bounds hr htr
    have hub := h.bounds hr' hur
    omega

/-- The records of the tags have no byte in common, since the tags of a range tile it and the
ranges are apart. -/
theorem separate : Separate L.all := by
  refine ⟨fun t ht => ?_, fun t ht u hu => ?_, fun h0 => ?_⟩
  · have hheader := h.header t ht
    obtain ⟨r, hr, htr⟩ := ht
    have hbounds := h.bounds hr htr
    unfold Mem.RecordFits
    omega
  · have hheader := h.header t ht
    have hheader' := h.header u hu
    refine (h.eq_or_apart ht hu).imp_right fun hapart => ?_
    unfold Mem.RecordsApart
    omega
  · obtain ⟨r, hr, h0r⟩ := h0
    exact absurd (h.bounds hr h0r).1 (Nat.lt_irrefl 0)

/-- A tag is in one range. -/
theorem range_unique (hr : r ∈ L.ranges) (ht : t ∈ L.tags r.1) (hr' : r' ∈ L.ranges)
    (ht' : t ∈ L.tags r'.1) : r = r' := by
  have hheader := h.header t ⟨r, hr, ht⟩
  have hbounds := h.bounds hr ht
  have hbounds' := h.bounds hr' ht'
  rcases h.apart r hr r' hr' with heq | hapart
  · exact heq
  · omega

/-- Tags that tile a range are pairwise different. -/
theorem nodup_tags (hr : r ∈ L.ranges) : (L.tags r.1).Nodup := by
  refine (h.range r hr).tiles.nodup fun t ht => ?_
  have hheader := h.header t ⟨r, hr, ht⟩
  omega

/-- The neighbours of a tag in its range. -/
theorem neighbours (hr : r ∈ L.ranges) (htags : L.tags r.1 = ls ++ t :: rs) :
    s.get t .splitLeft = ls.getLastD 0 ∧ s.get t .splitRight = rs.headD 0 := by
  have hlinks := (h.range r hr).links
  rw [htags] at hlinks
  exact hlinks.middle

/-! ### Lists -/

theorem ne_zero (ht : L.Has t) : t ≠ 0 :=
  h.separate.ne_zero ht

theorem has_of_mem (ht : t ∈ L.lists k) : L.Has t :=
  (h.listed k t ht).1

/-- A tag is on one list at most : its index says on which. -/
theorem list_unique (ht : t ∈ L.lists k) (ht' : t ∈ L.lists k') : k = k' := by
  obtain ⟨-, -, hk, hindex⟩ := h.listed k t ht
  obtain ⟨-, -, hk', hindex'⟩ := h.listed k' t ht'
  exact ofNat_inj_of_lt hk hk' (hindex.symm.trans hindex')

theorem index_ne (ht : t ∈ L.lists k) : s.get t .index ≠ -1 := by
  obtain ⟨-, -, hk, hindex⟩ := h.listed k t ht
  rw [hindex]
  intro heq
  have hnat := congrArg BitVec.toNat heq
  rw [toNat_ofNat_of_lt (by omega), show (-1 : Word).toNat = 2 ^ 32 - 1 from rfl] at hnat
  omega

/-- The index of a tag is `-1` when it is in no list. -/
theorem index_eq_iff (ht : L.Has t) : s.get t .index = -1 ↔ ∀ k, t ∉ L.lists k := by
  constructor
  · exact fun hindex k hmem => h.index_ne hmem hindex
  · intro hnone
    rcases h.index t ht with hused | ⟨k, hmem⟩
    · exact hused.1
    · exact absurd hmem (hnone k)

/-- What is linked in a list is not in another one. -/
theorem ne_of_notMem (ht : L.Has t) (htk : t ∉ L.lists k) (hu : u ∈ 0 :: L.lists k) :
    t ≠ u := by
  rintro rfl
  rcases List.mem_cons.1 hu with h0 | hmem
  · exact h.ne_zero ht h0
  · exact htk hmem

/-- The neighbours of a tag in its list. -/
theorem list_neighbours (hlist : L.lists k = xs ++ t :: ys) :
    s.get t .prev = xs.getLastD 0 ∧ s.get t .next = ys.headD 0 := by
  have hlinks := h.list k
  rw [hlist] at hlinks
  exact hlinks.middle

/-- The null pointer, which ends a list, is not on it. -/
theorem zero_notMem (k : ℕ) : 0 ∉ L.lists k :=
  fun h0 => h.ne_zero (h.has_of_mem h0) rfl

/-- The links of a listed tag lead to other tags of the list, or end it. -/
theorem links_mem (ht : t ∈ L.lists k) :
    s.get t .prev ∈ 0 :: L.lists k ∧ s.get t .next ∈ 0 :: L.lists k ∧ s.get t .prev ≠ t := by
  obtain ⟨xs, ys, hlist⟩ := List.append_of_mem ht
  obtain ⟨hprev, hnext⟩ := h.list_neighbours hlist
  have hnodup := h.nodup k
  rw [hlist] at hnodup ⊢
  have hxs := hprev ▸ getLastD_mem_cons xs 0
  have hys := hnext ▸ headD_mem_cons ys 0
  simp only [List.mem_cons, List.mem_append] at hxs hys ⊢
  refine ⟨by tauto, by tauto, fun heq => ?_⟩
  rw [heq] at hxs
  rcases hxs with h0 | hmem
  · exact h.ne_zero (h.has_of_mem ht) h0
  · exact (List.nodup_append.1 hnodup).2.2 t hmem t List.mem_cons_self rfl

/-- What is in a list or is null may be written through. -/
theorem null_or_has (ht : t ∈ 0 :: L.lists k) : t = 0 ∨ t ∈ L.all :=
  (List.mem_cons.1 ht).imp_right h.has_of_mem

end Tags

/-! ## Lists of free tags -/

/-- `remove_tag` closes the gap in the list and clears the links and the index of the tag. -/
theorem get_removeTag (h : Wf s L) (htk : t ∈ L.lists k) (hu : L.Has u) :
    (s.removeTag t).get u g =
      match g with
      | .next => if u = t then 0 else if u = s.get t .prev then s.get t .next else s.get u .next
      | .prev => if u = t then 0 else if u = s.get t .next then s.get t .prev else s.get u .prev
      | .index => if u = t then -1 else s.get u .index
      | g => s.get u g := by
  obtain ⟨hprev, hnext, hne⟩ := h.links_mem htk
  exact (h.separate.removeTag_writes (h.has_of_mem htk) (h.null_or_has hprev)
    (h.null_or_has hnext) hne).2 u hu g

/-- `remove_tag` changes bytes of tags only. -/
theorem frame_removeTag (h : Wf s L) (htk : t ∈ L.lists k) :
    Mem.Frame (headers L.all) s.mem (s.removeTag t).mem := by
  obtain ⟨hprev, hnext, hne⟩ := h.links_mem htk
  exact (h.separate.removeTag_writes (h.has_of_mem htk) (h.null_or_has hprev)
    (h.null_or_has hnext) hne).1

/-- A tag leaves its list. -/
theorem removeTag (h : Wf s L) (hlist : L.lists k = xs ++ t :: ys) :
    Wf (s.removeTag t) (L.withList k (xs ++ ys)) := by
  have htk : t ∈ L.lists k := hlist ▸ List.mem_append_right xs List.mem_cons_self
  have ht := h.has_of_mem htk
  obtain ⟨-, hk8, hk, hindex⟩ := h.listed k t htk
  obtain ⟨hprev, hnext, -⟩ := h.links_mem htk
  have hget : ∀ u, L.Has u → ∀ g, (s.removeTag t).get u g = _ := fun u hu g =>
    h.get_removeTag (g := g) htk hu
  have hreal : ∀ u, L.Has u → (s.removeTag t).real u = s.real u :=
    fun u hu => real_congr (hget u hu .realSize)
  have hnodup := hlist ▸ h.nodup k
  have hmem : ∀ u, u ∈ L.lists k ↔ u = t ∨ u ∈ xs ++ ys := fun u => by
    rw [hlist]
    simp only [List.mem_append, List.mem_cons]
    tauto
  have hnot : t ∉ xs ++ ys := (List.nodup_middle.1 hnodup).notMem
  -- The tag has its neighbours in its own list, so the tags outside it do not notice.
  have hother : ∀ u, L.Has u → u ∉ L.lists k → ∀ g, (s.removeTag t).get u g = s.get u g := by
    intro u hu huk g
    have hut : u ≠ t := fun heq => huk (heq ▸ htk)
    have hup := h.ne_of_notMem hu huk hprev
    have hun := h.ne_of_notMem hu huk hnext
    rw [hget u hu]
    cases g <;> simp [hut, hup, hun]
  have hne_list : ∀ k', k' ≠ k → ∀ u ∈ L.lists k', u ∉ L.lists k := fun k' hk' u hu huk =>
    hk' (h.list_unique hu huk)
  -- The ranges do not change. The other fields are about the lists.
  refine ⟨fun r hr => (h.range r hr).congr (fun u hu => hreal u ⟨r, hr, hu⟩)
    (fun u hu => hget u ⟨r, hr, hu⟩ .splitRight) (fun u hu => hget u ⟨r, hr, hu⟩ .splitLeft),
    h.distinct, h.apart, fun u hu => (hreal u hu).symm ▸ h.header u hu,
    fun u hu => (hget u hu .magic).trans (h.magic u hu), fun k' hk8' hk' => ?_, fun k' => ?_,
    fun k' => ?_, fun k' u hu => ?_, fun u hu => ?_⟩
  -- The head of the list moves on when it was the tag.
  · rw [freePages_removeTag, hindex, toNat_ofNat_of_lt (by omega), h.heads k hk8 hk]
    have hhead := h.heads k' hk8' hk'
    rcases eq_or_ne k' k with rfl | hkk
    · rw [L.lists_withList_self, hlist]
      cases xs with
      | nil =>
        rw [List.nil_append, List.headD_cons, if_pos rfl, Function.update_self]
        exact (h.list_neighbours hlist).2
      | cons a xs =>
        have hat : a ≠ t := fun heq => hnot (heq ▸ List.mem_cons_self)
        rw [List.cons_append, List.headD_cons, if_neg hat, hhead, hlist]
        rfl
    · rw [L.lists_withList_of_ne hkk, ← hhead]
      split_ifs
      · exact Function.update_of_ne hkk _ _
      · rfl
  · rcases eq_or_ne k' k with rfl | hkk
    · have hu : ∀ u ∈ xs ++ ys, u ≠ t ∧ L.Has u := fun u hu =>
        ⟨fun heq => hnot (heq ▸ hu), h.has_of_mem ((hmem u).2 (Or.inr hu))⟩
      have h0 := h.zero_notMem k'
      have hlinks := h.list k'
      rw [L.lists_withList_self]
      rw [hlist] at h0 hlinks
      -- The list closes behind the tag.
      refine hlinks.erase hnodup h0 h0 (fun u hu' => ?_) fun u hu' => ?_
      · rw [hget u (hu u hu').2]
        exact if_neg (hu u hu').1
      · rw [hget u (hu u hu').2]
        exact if_neg (hu u hu').1
    · rw [L.lists_withList_of_ne hkk]
      exact (h.list k').congr (fun u hu => hother u (h.has_of_mem hu) (hne_list k' hkk u hu) .next)
        fun u hu => hother u (h.has_of_mem hu) (hne_list k' hkk u hu) .prev
  · rcases eq_or_ne k' k with rfl | hkk
    · rw [L.lists_withList_self]
      exact (List.nodup_middle.1 hnodup).of_cons
    · rw [L.lists_withList_of_ne hkk]
      exact h.nodup k'
  · have hmem' : u ∈ (L.withList k (xs ++ ys)).lists k' → u ∈ L.lists k' ∧ u ≠ t := by
      rcases eq_or_ne k' k with rfl | hkk
      · rw [L.lists_withList_self]
        exact fun hu => ⟨(hmem u).2 (Or.inr hu), fun heq => hnot (heq ▸ hu)⟩
      · rw [L.lists_withList_of_ne hkk]
        exact fun hu => ⟨hu, fun heq => hne_list k' hkk u hu (heq ▸ htk)⟩
    obtain ⟨huk, hut⟩ := hmem' hu
    obtain ⟨hhas, hk8', hk', hindex'⟩ := h.listed k' u huk
    refine ⟨hhas, hk8', hk', ?_⟩
    rw [hget u hhas, ← hindex']
    exact if_neg hut
  -- The tag itself stands in no list now.
  · rcases eq_or_ne u t with rfl | hut
    · refine Or.inl ⟨?_, ?_, ?_⟩ <;> rw [hget u ht] <;> exact if_pos rfl
    · rcases h.index u hu with hused | ⟨k', huk⟩
      · have hnone := (h.index_eq_iff hu).1 hused.1 k
        exact Or.inl (by simpa only [hother u hu hnone] using hused)
      · refine Or.inr ⟨k', ?_⟩
        rcases eq_or_ne k' k with rfl | hkk
        · rw [L.lists_withList_self]
          exact ((hmem u).1 huk).resolve_left hut
        · rwa [L.lists_withList_of_ne hkk]

/-- `insert_tag` sets the links between the tag and the old head and the index of the tag, and
changes bytes of tags only. -/
theorem insertTag_writes (h : Wf s L) (hk8 : 8 ≤ k) (hk : k < 32) (ht : L.Has t) :
    Mem.Frame (headers L.all) s.mem (s.insertTag t (BitVec.ofNat 32 k)).mem ∧
      ∀ u ∈ L.all, ∀ g, (s.insertTag t (BitVec.ofNat 32 k)).get u g =
      match g with
      | .next =>
        if u = t ∧ (L.lists k).headD 0 ≠ 0 then (L.lists k).headD 0 else s.get u .next
      | .prev => if u = (L.lists k).headD 0 then t else s.get u .prev
      | .index => if u = t then BitVec.ofNat 32 k else s.get u .index
      | g => s.get u g := by
  have hnat : (BitVec.ofNat 32 k).toNat = k := toNat_ofNat_of_lt (by omega)
  have hhead : s.freePages (BitVec.ofNat 32 k).toNat = (L.lists k).headD 0 := by
    rw [hnat]
    exact h.heads k hk8 hk
  have hmem : s.freePages (BitVec.ofNat 32 k).toNat ∈ 0 :: L.lists k :=
    hhead ▸ headD_mem_cons (L.lists k) 0
  rw [← hhead]
  exact h.separate.insertTag_writes (not_slt_ofNat (by omega)) ht (h.null_or_has hmem)

/-- A tag that stands in no list comes to the front of one. -/
theorem insertTag (h : Wf s L) (hk8 : 8 ≤ k) (hk : k < 32) (ht : L.Has t)
    (hused : s.get t .index = -1) :
    Wf (s.insertTag t (BitVec.ofNat 32 k)) (L.withList k (t :: L.lists k)) := by
  have hget : ∀ u, L.Has u → ∀ g, (s.insertTag t (BitVec.ofNat 32 k)).get u g = _ :=
    fun u hu g => (h.insertTag_writes hk8 hk ht).2 u hu g
  have hreal : ∀ u, L.Has u → (s.insertTag t (BitVec.ofNat 32 k)).real u = s.real u :=
    fun u hu => real_congr (hget u hu .realSize)
  have hnot := (h.index_eq_iff ht).1 hused
  obtain ⟨-, hnext, hprev⟩ := (h.index t ht).resolve_right fun ⟨k', hmem⟩ => hnot k' hmem
  have hhead := headD_mem_cons (L.lists k) 0
  have hne := h.ne_of_notMem ht (hnot k) hhead
  -- Only the tag and the old head of the list change.
  have hother : ∀ u, L.Has u → u ≠ t → u ∉ L.lists k → ∀ g,
      (s.insertTag t (BitVec.ofNat 32 k)).get u g = s.get u g := by
    intro u hu hut huk g
    rw [hget u hu]
    cases g with
    | next => exact if_neg fun heq => hut heq.1
    | prev => exact if_neg (h.ne_of_notMem hu huk hhead)
    | index => exact if_neg hut
    | _ => rfl
  have hne_list : ∀ k', k' ≠ k → ∀ u ∈ L.lists k', u ≠ t ∧ u ∉ L.lists k := fun k' hk' u hu =>
    ⟨fun heq => hnot k' (heq ▸ hu), fun huk => hk' (h.list_unique hu huk)⟩
  -- The ranges do not change. The other fields are about the lists.
  refine ⟨fun r hr => (h.range r hr).congr (fun u hu => hreal u ⟨r, hr, hu⟩)
    (fun u hu => hget u ⟨r, hr, hu⟩ .splitRight) (fun u hu => hget u ⟨r, hr, hu⟩ .splitLeft),
    h.distinct, h.apart, fun u hu => (hreal u hu).symm ▸ h.header u hu,
    fun u hu => (hget u hu .magic).trans (h.magic u hu), fun k' hk8' hk' => ?_, fun k' => ?_,
    fun k' => ?_, fun k' u hu => ?_, fun u hu => ?_⟩
  · rw [freePages_insertTag (not_slt_ofNat (by omega)), toNat_ofNat_of_lt (by omega)]
    rcases eq_or_ne k' k with rfl | hkk
    · rw [L.lists_withList_self, Function.update_self]
      rfl
    · rw [L.lists_withList_of_ne hkk, Function.update_of_ne hkk]
      exact h.heads k' hk8' hk'
  · rcases eq_or_ne k' k with rfl | hkk
    · rw [L.lists_withList_self]
      -- The tag goes in front of the old head, which may be the null pointer.
      have hlinks : Links _ _ 0 ([] ++ L.lists k') 0 := h.list k'
      refine hlinks.insert (h.nodup k') (h.zero_notMem k') (h.zero_notMem k') ?_ ?_
        (fun u hu => ?_) fun u hu => ?_
      · rw [hget t ht]
        rcases eq_or_ne ((L.lists k').headD 0) 0 with h0 | h0
        · exact (if_neg fun hhead => hhead.2 h0).trans (hnext.trans h0.symm)
        · exact if_pos ⟨rfl, h0⟩
      · rw [hget t ht]
        exact (if_neg hne).trans hprev
      · have hu0 : u ≠ 0 := h.ne_zero (h.has_of_mem hu)
        have hut : u ≠ t := fun heq => hnot k' (heq ▸ hu)
        rw [hget u (h.has_of_mem hu)]
        exact (if_neg fun heq => hut heq.1).trans (if_neg hu0).symm
      · rw [hget u (h.has_of_mem hu)]
    · rw [L.lists_withList_of_ne hkk]
      have hrest : ∀ u ∈ L.lists k', ∀ g, _ := fun u hu =>
        hother u (h.has_of_mem hu) (hne_list k' hkk u hu).1 (hne_list k' hkk u hu).2
      exact (h.list k').congr (fun u hu => hrest u hu .next) fun u hu => hrest u hu .prev
  · rcases eq_or_ne k' k with rfl | hkk
    · rw [L.lists_withList_self]
      exact List.nodup_cons.2 ⟨hnot k', h.nodup k'⟩
    · rw [L.lists_withList_of_ne hkk]
      exact h.nodup k'
  -- The index of the tag is that of its list, and the others keep theirs.
  · have hold : u ∈ L.lists k' → L.Has u ∧ 8 ≤ k' ∧ k' < 32 ∧
        (s.insertTag t (BitVec.ofNat 32 k)).get u .index = BitVec.ofNat 32 k' := fun huk => by
      obtain ⟨hhas, hk8', hk', hindex'⟩ := h.listed k' u huk
      have hut : u ≠ t := fun heq => hnot k' (heq ▸ huk)
      refine ⟨hhas, hk8', hk', ?_⟩
      rw [hget u hhas]
      exact (if_neg hut).trans hindex'
    rcases eq_or_ne k' k with rfl | hkk
    · rw [L.lists_withList_self] at hu
      rcases List.mem_cons.1 hu with rfl | huk
      · refine ⟨ht, hk8, hk, ?_⟩
        rw [hget u ht]
        exact if_pos rfl
      · exact hold huk
    · rw [L.lists_withList_of_ne hkk] at hu
      exact hold hu
  · rcases eq_or_ne u t with rfl | hut
    · exact Or.inr ⟨k, by rw [L.lists_withList_self]; exact List.mem_cons_self⟩
    · rcases h.index u hu with hfree | ⟨k', huk⟩
      · have hnone := (h.index_eq_iff hu).1 hfree.1 k
        exact Or.inl (by simpa only [hother u hu hut hnone] using hfree)
      · refine Or.inr ⟨k', ?_⟩
        rcases eq_or_ne k' k with rfl | hkk
        · rw [L.lists_withList_self]
          exact List.mem_cons_of_mem t huk
        · rwa [L.lists_withList_of_ne hkk]

/-! ## Neighbours -/

/-- The tags of the layout when a range gets new ones. -/
theorem has_withTags (h : Wf s L) (hr : r ∈ L.ranges) : (L.withTags r.1 xs).Has u ↔
    u ∈ xs ∨ ∃ r' ∈ L.ranges, r' ≠ r ∧ u ∈ L.tags r'.1 := by
  have htags : ∀ r' ∈ L.ranges, r' ≠ r → (L.withTags r.1 xs).tags r'.1 = L.tags r'.1 :=
    fun r' hr' hne => L.tags_withTags_of_ne (fun hb => hne (h.base_inj hr' hr hb)) xs
  constructor
  · rintro ⟨r', hr', hu⟩
    rcases eq_or_ne r' r with rfl | hne
    · rw [L.tags_withTags_self] at hu
      exact Or.inl hu
    · exact Or.inr ⟨r', hr', hne, htags r' hr' hne ▸ hu⟩
  · rintro (hu | ⟨r', hr', hne, hu⟩)
    · exact ⟨r, hr, (L.tags_withTags_self r.1 xs).symm ▸ hu⟩
    · exact ⟨r', hr', (htags r' hr' hne).symm ▸ hu⟩

/-- The tags of one range change. The tags that were there and are in a list stay, and a tag that
comes in is in no list. -/
theorem withTags (h : Wf s L) (hr : r ∈ L.ranges) (hrange : HoldsRange s' r xs)
    (hfree : s'.freePages = s.freePages)
    (hother : ∀ r' ∈ L.ranges, r' ≠ r → ∀ u ∈ L.tags r'.1, ∀ g, s'.get u g = s.get u g)
    (hold : ∀ u ∈ L.tags r.1, s'.get u .magic = s.get u .magic ∧ s'.get u .index = s.get u .index ∧
      s'.get u .next = s.get u .next ∧ s'.get u .prev = s.get u .prev)
    (hheader : ∀ u ∈ xs, 32 ≤ s'.real u)
    (hnew : ∀ u ∈ xs, u ∈ L.tags r.1 ∨ s'.get u .magic = liballocMagic ∧
      s'.get u .index = -1 ∧ s'.get u .next = 0 ∧ s'.get u .prev = 0)
    (hstay : ∀ u ∈ L.tags r.1, ∀ k, u ∈ L.lists k → u ∈ xs) :
    Wf s' (L.withTags r.1 xs) := by
  have htags : ∀ r' ∈ L.ranges, r' ≠ r → (L.withTags r.1 xs).tags r'.1 = L.tags r'.1 :=
    fun r' hr' hne => L.tags_withTags_of_ne (fun hb => hne (h.base_inj hr' hr hb)) xs
  have hhas : ∀ u, (L.withTags r.1 xs).Has u ↔ _ := fun u => h.has_withTags hr
  -- What the lists look at is the same in both states, and no tag of a list goes away.
  have hsame : ∀ u, L.Has u → s'.get u .magic = s.get u .magic ∧
      s'.get u .index = s.get u .index ∧ s'.get u .next = s.get u .next ∧
      s'.get u .prev = s.get u .prev := by
    rintro u ⟨r', hr', hu⟩
    rcases eq_or_ne r' r with rfl | hne
    · exact hold u hu
    · exact ⟨hother r' hr' hne u hu _, hother r' hr' hne u hu _, hother r' hr' hne u hu _,
        hother r' hr' hne u hu _⟩
  have hlisted : ∀ k, ∀ u ∈ L.lists k, (L.withTags r.1 xs).Has u := by
    intro k u hu
    obtain ⟨r', hr', hur⟩ := h.has_of_mem hu
    rcases eq_or_ne r' r with rfl | hne
    · exact (hhas u).2 (Or.inl (hstay u hur k hu))
    · exact (hhas u).2 (Or.inr ⟨r', hr', hne, hur⟩)
  refine ⟨fun r' hr' => ?_, h.distinct, h.apart, fun u hu => ?_, fun u hu => ?_,
    fun k hk8 hk => by rw [hfree]; exact h.heads k hk8 hk, fun k => ?_, h.nodup,
    fun k u hu => ?_, fun u hu => ?_⟩
  · rcases eq_or_ne r' r with rfl | hne
    · rwa [L.tags_withTags_self]
    · rw [htags r' hr' hne]
      exact (h.range r' hr').congr (fun u hu => real_congr (hother r' hr' hne u hu _))
        (fun u hu => hother r' hr' hne u hu _) fun u hu => hother r' hr' hne u hu _
  · rcases (hhas u).1 hu with hmem | ⟨r', hr', hne, hmem⟩
    · exact hheader u hmem
    · rw [real_congr (hother r' hr' hne u hmem _)]
      exact h.header u ⟨r', hr', hmem⟩
  · rcases (hhas u).1 hu with hmem | ⟨r', hr', hne, hmem⟩
    · rcases hnew u hmem with hmem' | hnew
      · exact (hold u hmem').1.trans (h.magic u ⟨r, hr, hmem'⟩)
      · exact hnew.1
    · exact (hother r' hr' hne u hmem _).trans (h.magic u ⟨r', hr', hmem⟩)
  · exact (h.list k).congr (fun u hu => (hsame u (h.has_of_mem hu)).2.2.1)
      fun u hu => (hsame u (h.has_of_mem hu)).2.2.2
  · obtain ⟨hhas, hk8, hk, hindex⟩ := h.listed k u hu
    exact ⟨hlisted k u hu, hk8, hk, (hsame u hhas).2.1.trans hindex⟩
  · have hkeep : L.Has u → s'.get u .index = -1 ∧ s'.get u .next = 0 ∧ s'.get u .prev = 0 ∨
        ∃ k, u ∈ L.lists k := fun hu => by
      obtain ⟨-, hindex, hnext, hprev⟩ := hsame u hu
      rw [hindex, hnext, hprev]
      exact h.index u hu
    rcases (hhas u).1 hu with hmem | ⟨r', hr', -, hmem⟩
    · rcases hnew u hmem with hmem' | hnew
      · exact hkeep ⟨r, hr, hmem'⟩
      · exact Or.inl hnew.2
    · exact hkeep ⟨r', hr', hmem⟩

/-- A block in no list is given to its left neighbour. -/
theorem takesOver (h : Wf s L) (hr : r ∈ L.ranges) (htags : L.tags r.1 = ls ++ l :: t :: rs)
    (hused : s.get t .index = -1) (hover : TakesOver L.all s s' l t)
    (hfree : s'.freePages = s.freePages) : Wf s' (L.withTags r.1 (ls ++ l :: rs)) := by
  have hsplit : ls ++ l :: t :: rs = (ls ++ [l]) ++ t :: rs := by simp
  have hnodup : ((ls ++ [l]) ++ t :: rs).Nodup := hsplit ▸ htags ▸ h.nodup_tags hr
  have hzero : 0 ∉ (ls ++ [l]) ++ t :: rs := fun h0 =>
    h.ne_zero ⟨r, hr, htags ▸ hsplit ▸ h0⟩ rfl
  have hlinks := (h.range r hr).links
  have htiles := (h.range r hr).tiles
  rw [htags] at htiles
  rw [htags, hsplit] at hlinks
  -- The left neighbour of the block is the one that takes it over.
  obtain ⟨hleft, hright⟩ := hlinks.middle
  have hrl : s.get t .splitLeft = l := by
    rw [hleft]
    simp
  have hmem : ∀ u ∈ ls ++ l :: rs, u ∈ L.tags r.1 := fun u hu => by
    rw [htags]
    simp only [List.mem_append, List.mem_cons] at hu ⊢
    tauto
  have hl : l ∈ L.tags r.1 := hmem l (by simp)
  have ht : t ∈ L.tags r.1 := by simp [htags]
  have hnot : t ∉ ls ++ l :: rs := by
    have hcons := List.nodup_middle.1 hnodup
    simpa using hcons.notMem
  have hright_mem : s.get t .splitRight ∈ 0 :: L.tags r.1 := by
    have hhead := headD_mem_cons rs 0
    rw [hright, htags]
    simp only [List.mem_append, List.mem_cons] at hhead ⊢
    tauto
  -- The two lengths add up without a wrap, as both blocks are in the range.
  have hreal_l : s'.real l = s.real l + s.real t := by
    have hbounds := h.bounds hr ht
    have hbounds_l := h.bounds hr hl
    have hnext := htiles.addr_next
    have hget := (hover.get l ⟨r, hr, hl⟩ .realSize).trans (if_pos rfl)
    unfold real at *
    rw [hget, BitVec.toNat_add]
    omega
  have hreal : ∀ u ∈ L.tags r.1, u ≠ l → s'.real u = s.real u := fun u hu hul =>
    real_congr ((hover.get u ⟨r, hr, hu⟩ .realSize).trans (if_neg hul))
  have hl_not : l ∉ ls ++ t :: rs := (List.nodup_middle.1 (htags ▸ h.nodup_tags hr)).notMem
  have hne_l : ∀ u ∈ ls ++ rs, u ∈ L.tags r.1 ∧ u ≠ l := fun u hu => by
    simp only [List.mem_append, List.mem_cons] at hu hl_not hmem
    exact ⟨hmem u (by tauto), fun heq => hl_not (heq ▸ by tauto)⟩
  -- The tags of the range without the block tile it.
  refine h.withTags hr ⟨(h.range r hr).pos, (h.range r hr).fits, (h.range r hr).pages,
    htiles.glue (fun u hu => hreal u (hne_l u hu).1 (hne_l u hu).2) hreal_l, ?_⟩ hfree
    (fun r' hr' hne u hu g => ?_) (fun u hu => ⟨hover.get u ⟨r, hr, hu⟩ .magic,
      hover.get u ⟨r, hr, hu⟩ .index, hover.get u ⟨r, hr, hu⟩ .next, hover.get u ⟨r, hr, hu⟩ .prev⟩)
    (fun u hu => ?_) (fun u hu => Or.inl (hmem u hu)) fun u hu k huk => ?_
  · have hget : ∀ u ∈ (ls ++ [l]) ++ rs, ∀ g, s'.get u g = _ := fun u hu g =>
      hover.get u ⟨r, hr, hmem u (by simpa using hu)⟩ g
    rw [show ls ++ l :: rs = (ls ++ [l]) ++ rs by simp]
    refine hlinks.erase hnodup hzero hzero (fun u hu => ?_) fun u hu => ?_
    · rw [hrl]
      exact hget u hu .splitRight
    · rw [hrl]
      exact hget u hu .splitLeft
  -- Tags of other ranges are neither neighbour of the block.
  · have hout : u ∉ L.tags r.1 := fun hur => hne (h.range_unique hr' hu hr hur)
    have hul : u ≠ l := fun heq => hout (heq ▸ hl)
    have hur : u ≠ s.get t .splitRight := fun heq => by
      rcases List.mem_cons.1 hright_mem with h0 | hmem
      · exact h.ne_zero ⟨r', hr', hu⟩ (heq.trans h0)
      · exact hout (heq ▸ hmem)
    rw [hover.get u ⟨r', hr', hu⟩]
    cases g with
    | realSize => exact if_neg hul
    | splitRight => exact if_neg hul
    | splitLeft => exact if_neg hur
    | _ => rfl
  · rcases eq_or_ne u l with rfl | hul
    · have hheader := h.header u ⟨r, hr, hl⟩
      omega
    · rw [hreal u (hmem u hu) hul]
      exact h.header u ⟨r, hr, hmem u hu⟩
  · have hut : u ≠ t := fun heq => (h.index_eq_iff ⟨r, hr, ht⟩).1 hused k (heq ▸ huk)
    rw [htags] at hu
    simp only [List.mem_append, List.mem_cons] at hu ⊢
    tauto

/-- A record inside a block, behind its tag. -/
theorem separate_inside (h : Wf s L) (ht : L.Has t) (hlow : t.toNat + 32 ≤ u.toNat)
    (hhigh : u.toNat + 32 ≤ t.toNat + s.real t) : u ∉ L.all ∧ Separate (insert u L.all) := by
  have hend : t.toNat + s.real t ≤ 2 ^ 32 := by
    obtain ⟨r, hr, htr⟩ := ht
    have hbounds := h.bounds hr htr
    omega
  have hapart : ∀ v, L.Has v → v.toNat + 32 ≤ u.toNat ∨ u.toNat + 32 ≤ v.toNat := fun v hv => by
    have hheader := h.header v hv
    rcases h.eq_or_apart hv ht with rfl | hvt <;> omega
  refine ⟨fun hu => ?_, h.separate.insert_of_apart ?_ ?_ fun v hv => ?_⟩
  · have hself := hapart u hu
    omega
  · unfold Mem.RecordFits
    omega
  · rintro rfl
    exact absurd hlow (by simp)
  · unfold Mem.RecordsApart
    have hv' := hapart v hv
    omega

section Cut

variable (h : Wf s L) (hr : r ∈ L.ranges) (htags : L.tags r.1 = ls ++ t :: rs)
  (hu : u = t + 32 + s.get t .size) (hroom : 64 + (s.get t .size).toNat ≤ s.real t)

include h hr htags hu hroom

/-- The second half of a tag that is cut lies within it, and its address does not wrap. -/
theorem toNat_cut : u.toNat = t.toNat + 32 + (s.get t .size).toNat ∧
    u.toNat + 32 ≤ t.toNat + s.real t ∧ t.toNat + s.real t < 2 ^ 32 := by
  have hbounds := h.bounds hr (t := t) (by simp [htags])
  have hnat : u.toNat = t.toNat + 32 + (s.get t .size).toNat := by
    rw [hu]
    bv_omega
  omega

/-- What the two tags hold after the cut. -/
theorem get_cutOff (hcut : CutOff L.all s s' t u) : ¬L.Has u ∧
    (∀ w, L.Has w → ∀ g, (s'.set u .index (-1)).get w g = s'.get w g) ∧
    (∀ g, (s'.set u .index (-1)).get u g = if g = .index then -1 else s'.get u g) ∧
    (s'.set u .index (-1)).real t = 32 + (s.get t .size).toNat ∧
    (s'.set u .index (-1)).real u = s.real t - 32 - (s.get t .size).toNat := by
  obtain ⟨hnat, hinside, hend⟩ := h.toNat_cut hr htags hu hroom
  have ht : L.Has t := ⟨r, hr, by simp [htags]⟩
  obtain ⟨hout, hT⟩ := h.separate_inside (u := u) ht (by omega) hinside
  have hset : ∀ w, L.Has w → ∀ g, (s'.set u .index (-1)).get w g = s'.get w g := fun w hw g => by
    have hwu : w ≠ u := fun heq => hout (heq ▸ hw)
    rw [hT.get_set (Set.mem_insert u _) (Set.mem_insert_of_mem u hw), if_neg (hwu ·.1)]
  have hset_u : ∀ g, (s'.set u .index (-1)).get u g = if g = .index then -1 else s'.get u g :=
    fun g => by
      rw [hT.get_set (Set.mem_insert u _) (Set.mem_insert u _)]
      simp
  refine ⟨hout, hset, hset_u, ?_, ?_⟩
  · have hreal := (hset t ht .realSize).trans ((hcut.old t ht .realSize).trans (if_pos rfl))
    unfold real at *
    rw [hreal]
    bv_omega
  · have hreal := (hset_u .realSize).trans hcut.realSize
    unfold real at *
    rw [hreal]
    bv_omega

/-- A block is cut in two behind its size. -/
theorem cutOff (hcut : CutOff L.all s s' t u) :
    Wf (s'.set u .index (-1)) (L.withTags r.1 (ls ++ t :: u :: rs)) := by
  obtain ⟨hnat, hinside, hend⟩ := h.toNat_cut hr htags hu hroom
  obtain ⟨-, hset, hget_u, hreal_t, hreal_u⟩ := h.get_cutOff hr htags hu hroom hcut
  have htr : t ∈ L.tags r.1 := by simp [htags]
  have hnodup : (ls ++ t :: rs).Nodup := htags ▸ h.nodup_tags hr
  have hright := (h.neighbours hr htags).2
  -- The right neighbour, if there is one, is a tag of the same range.
  have hright_mem : s.get t .splitRight ∈ 0 :: L.tags r.1 := by
    have hhead := headD_mem_cons rs 0
    rw [hright, htags]
    simp only [List.mem_append, List.mem_cons] at hhead ⊢
    tauto
  have hget : ∀ w, L.Has w → ∀ g, (s'.set u .index (-1)).get w g = _ := fun w hw g =>
    (hset w hw g).trans (hcut.old w hw g)
  have hreal : ∀ w, L.Has w → w ≠ t → (s'.set u .index (-1)).real w = s.real w :=
    fun w hw hwt => real_congr ((hget w hw .realSize).trans (if_neg hwt))
  have htiles := (h.range r hr).tiles
  have hlinks := (h.range r hr).links
  have hzero : 0 ∉ L.tags r.1 := fun h0 => h.ne_zero ⟨r, hr, h0⟩ rfl
  rw [htags] at htiles hlinks hzero
  have hhas : ∀ w ∈ ls ++ t :: rs, L.Has w := fun w hw => ⟨r, hr, htags ▸ hw⟩
  have hsplit : ls ++ t :: rs = (ls ++ [t]) ++ rs := by simp
  have hrest : ∀ w ∈ ls ++ rs, L.Has w ∧ w ≠ t := fun w hw => by
    have hcons := (List.nodup_middle.1 hnodup).notMem
    refine ⟨hhas w ?_, fun heq => hcons (heq ▸ hw)⟩
    simp only [List.mem_append, List.mem_cons] at hw ⊢
    tauto
  -- The tags of the range with the new one tile it.
  refine h.withTags hr ⟨(h.range r hr).pos, (h.range r hr).fits, (h.range r hr).pages,
    htiles.cut (fun w hw => hreal w (hrest w hw).1 (hrest w hw).2) (by omega) (by omega), ?_⟩
    hcut.freePages (fun r' hr' hne w hw g => ?_) (fun w hw => ?_) (fun w hw => ?_)
    (fun w hw => ?_) fun w hw k hwk => ?_
  · rw [hsplit] at hlinks hnodup hzero hhas
    rw [show ls ++ t :: u :: rs = (ls ++ [t]) ++ u :: rs by simp]
    refine hlinks.insert hnodup hzero hzero ?_ ?_ (fun w hw => ?_) fun w hw => ?_
    · exact (hget_u .splitRight).trans (hcut.splitRight.trans hright)
    · rw [hget_u, if_neg (by simp), hcut.splitLeft]
      simp
    · rw [hget w (hhas w hw)]
      simp
    · rw [hget w (hhas w hw), ← hright]
  · have hout : w ∉ L.tags r.1 := fun hwr => hne (h.range_unique hr' hw hr hwr)
    have hwt : w ≠ t := fun heq => hout (heq ▸ htr)
    have hwr : w ≠ s.get t .splitRight := fun heq => by
      rcases List.mem_cons.1 hright_mem with h0 | hmem
      · exact h.ne_zero ⟨r', hr', hw⟩ (heq.trans h0)
      · exact hout (heq ▸ hmem)
    rw [hget w ⟨r', hr', hw⟩]
    cases g with
    | realSize => exact if_neg hwt
    | splitRight => exact if_neg hwt
    | splitLeft => exact if_neg hwr
    | _ => rfl
  · exact ⟨hget w ⟨r, hr, hw⟩ .magic, hget w ⟨r, hr, hw⟩ .index, hget w ⟨r, hr, hw⟩ .next,
      hget w ⟨r, hr, hw⟩ .prev⟩
  · rcases eq_or_ne w t with rfl | hwt
    · omega
    · rcases eq_or_ne w u with rfl | hwu
      · omega
      · have hw' : w ∈ ls ++ rs := by
          simp only [List.mem_append, List.mem_cons] at hw ⊢
          tauto
        rw [hreal w (hrest w hw').1 hwt]
        exact h.header w (hrest w hw').1
  · rcases eq_or_ne w u with rfl | hwu
    · exact Or.inr ⟨(hget_u .magic).trans hcut.magic, (hget_u .index).trans (if_pos rfl),
        (hget_u .next).trans hcut.next, (hget_u .prev).trans hcut.prev⟩
    · left
      rw [htags]
      simp only [List.mem_append, List.mem_cons] at hw ⊢
      tauto
  · rw [htags] at hw
    simp only [List.mem_append, List.mem_cons] at hw ⊢
    tauto

end Cut

/-! ## Ranges -/

/-- The size of a block is in no link. -/
theorem congr (h : Wf s L) (hfree : s'.freePages = s.freePages)
    (hget : ∀ u, L.Has u → ∀ g, g ≠ .size → s'.get u g = s.get u g) : Wf s' L := by
  refine ⟨fun r hr => (h.range r hr).congr
    (fun u hu => real_congr (hget u ⟨r, hr, hu⟩ _ (by decide)))
    (fun u hu => hget u ⟨r, hr, hu⟩ _ (by decide)) fun u hu => hget u ⟨r, hr, hu⟩ _ (by decide),
    h.distinct, h.apart, fun u hu => ?_, fun u hu => ?_, fun k hk8 hk => ?_, fun k => ?_, h.nodup,
    fun k u hu => ?_, fun u hu => ?_⟩
  · rw [real_congr (hget u hu _ (by decide))]
    exact h.header u hu
  · exact (hget u hu _ (by decide)).trans (h.magic u hu)
  · rw [hfree]
    exact h.heads k hk8 hk
  · exact (h.list k).congr (fun u hu => hget u (h.has_of_mem hu) _ (by decide))
      fun u hu => hget u (h.has_of_mem hu) _ (by decide)
  · obtain ⟨hhas, hk8, hk, hindex⟩ := h.listed k u hu
    exact ⟨hhas, hk8, hk, (hget u hhas _ (by decide)).trans hindex⟩
  · rw [hget u hu _ (by decide), hget u hu _ (by decide), hget u hu _ (by decide)]
    exact h.index u hu

/-- A range whose only block is in no list goes away. -/
theorem release (h : Wf s L) (hr : r ∈ L.ranges) (htags : L.tags r.1 = [t])
    (hused : s.get t .index = -1) : Wf s (L.withoutRange r) := by
  have hmem : ∀ r', r' ∈ (L.withoutRange r).ranges ↔ r' ∈ L.ranges ∧ r' ≠ r := fun r' => by
    simp [Layout.withoutRange]
  have hhas : ∀ u, (L.withoutRange r).Has u → L.Has u := by
    rintro u ⟨r', hr', hu⟩
    exact ⟨r', ((hmem r').1 hr').1, hu⟩
  refine ⟨fun r' hr' => h.range r' ((hmem r').1 hr').1, h.distinct.filter _,
    fun r' hr' r'' hr'' => h.apart r' ((hmem r').1 hr').1 r'' ((hmem r'').1 hr'').1,
    fun u hu => h.header u (hhas u hu), fun u hu => h.magic u (hhas u hu), h.heads, h.list, h.nodup,
    fun k u hu => ?_, fun u hu => h.index u (hhas u hu)⟩
  obtain ⟨⟨r', hr', hur⟩, hk8, hk, hindex⟩ := h.listed k u hu
  refine ⟨⟨r', (hmem r').2 ⟨hr', ?_⟩, hur⟩, hk8, hk, hindex⟩
  rintro rfl
  rw [htags, List.mem_singleton] at hur
  exact h.index_ne hu (hur ▸ hused)

end Wf

/-! ## New ranges -/

/-- The pages hold so many bytes. -/
theorem le_pagesOf (bytes : Word) : bytes.toNat ≤ 4096 * (pagesOf bytes).toNat := by
  unfold pagesOf
  extract_lets pages pages'
  have hdiv : pages.toNat = bytes.toNat / 4096 := BitVec.toNat_udiv
  have hmod : (bytes % 4096).toNat = bytes.toNat % 4096 := BitVec.toNat_umod
  have hlt := bytes.isLt
  have hpages : bytes.toNat ≤ 4096 * pages'.toNat := by
    unfold pages'
    split_ifs with h
    · have hadd : (pages + 1).toNat = pages.toNat + 1 := by
        bv_omega
      omega
    · have h0 : bytes.toNat % 4096 = 0 := by
        rw [← hmod, not_not.1 h]
        rfl
      omega
  split_ifs with h
  · have hlt16 : pages'.toNat < 16 := h
    have h16 : (16 : Word).toNat = 16 := rfl
    omega
  · exact hpages

/-- At least `l_pageCount` pages are asked for. -/
theorem sixteen_le_pagesOf (bytes : Word) : 16 ≤ (pagesOf bytes).toNat := by
  unfold pagesOf
  extract_lets pages pages'
  split_ifs with h
  · exact le_rfl
  · exact Nat.le_of_not_lt h

/-- A number of bytes that is a number of pages. -/
theorem toNat_pagesOf {bytes : Word} {n : ℕ} (hn : 16 ≤ n) (hbytes : bytes.toNat = 4096 * n) :
    (pagesOf bytes).toNat = n := by
  have hdiv : (bytes / 4096).toNat = n := by
    rw [BitVec.toNat_udiv, hbytes]
    exact Nat.mul_div_cancel_left n (by decide)
  have hmod : bytes % 4096 = 0 := BitVec.eq_of_toNat_eq (by
    rw [BitVec.toNat_umod, hbytes]
    exact Nat.mul_mod_right 4096 n)
  have hlt : ¬bytes / 4096 < 16 := by
    rw [BitVec.lt_def, hdiv]
    exact Nat.not_lt.2 hn
  unfold pagesOf
  simp only [hmod, ne_eq, not_true_eq_false, if_false, if_neg hlt]
  exact hdiv

/-- The range of so many pages from `t` on lies in memory and apart from those of the layout. -/
structure Fresh (ranges : List (ℕ × ℕ)) (t pages : Word) : Prop where
  ne_zero : t ≠ 0
  fits : t.toNat + 4096 * pages.toNat < 2 ^ 32
  apart : ∀ r ∈ ranges, r.1 + r.2 ≤ t.toNat ∨ t.toNat + 4096 * pages.toNat ≤ r.1

section NewRange

variable (h : Wf s L) {size : Word} (hfresh : Fresh L.ranges t (pagesFor size))

include h hfresh

/-- The first tag of a new range is apart from all others. -/
theorem Wf.separate_fresh : t ∉ L.all ∧ Separate (insert t L.all) := by
  have h16 := sixteen_le_pagesOf (size + 32)
  have hfits := hfresh.fits
  unfold pagesFor at hfits
  have hapart : ∀ v, L.Has v → v.toNat + 32 ≤ t.toNat ∨ t.toNat + 32 ≤ v.toNat := fun v hv => by
    have hheader := h.header v hv
    obtain ⟨r, hr, hvr⟩ := hv
    have hbounds := h.bounds hr hvr
    have hrange := hfresh.apart r hr
    unfold pagesFor at hrange
    omega
  refine ⟨fun ht => ?_, h.separate.insert_of_apart ?_ hfresh.ne_zero fun v hv => ?_⟩
  · have hself := hapart t ht
    omega
  · unfold Mem.RecordFits
    omega
  · unfold Mem.RecordsApart
    have hv' := hapart v hv
    omega

/-- The other tags do not notice a new one. -/
theorem Wf.get_allocateNewTag (hu : L.Has u) :
    (s.allocateNewTag t size).get u g = s.get u g := by
  obtain ⟨hout, hT⟩ := h.separate_fresh hfresh
  have hut : u ≠ t := fun heq => hout (heq ▸ hu)
  rw [hT.get_allocateNewTag (Set.mem_insert t _) size (Set.mem_insert_of_mem t hu), if_neg hut]

theorem Wf.get_allocateNewTag_self : (s.allocateNewTag t size).get t g =
    match g with
    | .magic => liballocMagic
    | .size => size
    | .realSize => pagesFor size * 4096
    | .index => -1
    | _ => 0 := by
  obtain ⟨-, hT⟩ := h.separate_fresh hfresh
  exact (hT.get_allocateNewTag (Set.mem_insert t _) size (Set.mem_insert t _)).trans (if_pos rfl)

/-- A new tag has all the pages that were asked for. -/
theorem Wf.real_allocateNewTag :
    (s.allocateNewTag t size).real t = 4096 * (pagesFor size).toNat := by
  have hreal : (s.allocateNewTag t size).get t .realSize = pagesFor size * 4096 :=
    h.get_allocateNewTag_self hfresh
  have hfits := hfresh.fits
  unfold real
  rw [hreal, BitVec.toNat_mul, show (4096 : Word).toNat = 4096 from rfl]
  omega

/-- A new range does not start where another does. -/
theorem Wf.base_ne (hr : r ∈ L.ranges) : r.1 ≠ t.toNat := by
  obtain ⟨n, hn, hlen⟩ := (h.range r hr).pages
  have h16 : 16 ≤ (pagesFor size).toNat := sixteen_le_pagesOf (size + 32)
  have hapart := hfresh.apart r hr
  omega

theorem Wf.tags_withRange {len : ℕ} (hr : r ∈ L.ranges) :
    (L.withRange t len).tags r.1 = L.tags r.1 :=
  Function.update_of_ne (h.base_ne hfresh hr) _ _

theorem Wf.has_withRange {len : ℕ} : (L.withRange t len).Has u ↔ u = t ∨ L.Has u := by
  have htags_t : (L.withRange t len).tags t.toNat = [t] := Function.update_self _ _ _
  constructor
  · rintro ⟨r, hr, hu⟩
    rcases List.mem_cons.1 hr with rfl | hr
    · rw [htags_t, List.mem_singleton] at hu
      exact Or.inl hu
    · exact Or.inr ⟨r, hr, (h.tags_withRange hfresh hr) ▸ hu⟩
  · rintro (rfl | ⟨r, hr, hu⟩)
    · exact ⟨_, List.mem_cons_self, by rw [htags_t]; exact List.mem_singleton_self u⟩
    · exact ⟨r, List.mem_cons_of_mem _ hr, (h.tags_withRange hfresh hr).symm ▸ hu⟩

/-- A new range has one block, which is in no list. -/
theorem Wf.allocateNewTag :
    Wf (s.allocateNewTag t size) (L.withRange t (4096 * (pagesFor size).toNat)) := by
  have h16 : 16 ≤ (pagesFor size).toNat := sixteen_le_pagesOf (size + 32)
  have hpos : 0 < t.toNat := Nat.pos_of_ne_zero fun h0 => hfresh.ne_zero (BitVec.eq_of_toNat_eq h0)
  have hget_t : ∀ g, (s.allocateNewTag t size).get t g = _ := fun g =>
    h.get_allocateNewTag_self hfresh
  have hreal_t := h.real_allocateNewTag hfresh
  have htags_t : (L.withRange t (4096 * (pagesFor size).toNat)).tags t.toNat = [t] :=
    Function.update_self _ _ _
  have hhas : ∀ u, (L.withRange t (4096 * (pagesFor size).toNat)).Has u ↔ u = t ∨ L.Has u :=
    fun u => h.has_withRange hfresh
  -- The old layout still holds, and the new one has one range more.
  have hkeep : Wf (s.allocateNewTag t size) L :=
    h.congr rfl fun u hu g _ => h.get_allocateNewTag hfresh hu
  refine ⟨fun r hr => ?_, List.nodup_cons.2 ⟨fun hr => h.base_ne hfresh hr rfl, h.distinct⟩,
    fun r hr r' hr' => ?_, fun u hu => ?_, fun u hu => ?_, hkeep.heads,
    hkeep.list, h.nodup, fun k u hu => ?_, fun u hu => ?_⟩
  -- The new tag tiles its range alone.
  · rcases List.mem_cons.1 hr with rfl | hr
    · rw [htags_t]
      exact ⟨hpos, hfresh.fits, ⟨_, h16, rfl⟩, ⟨rfl, congrArg (t.toNat + ·) hreal_t⟩,
        hget_t .splitLeft, hget_t .splitRight, trivial⟩
    · rw [h.tags_withRange hfresh hr]
      exact hkeep.range r hr
  · rcases List.mem_cons.1 hr with rfl | hr <;> rcases List.mem_cons.1 hr' with rfl | hr'
    · exact Or.inl rfl
    · exact Or.inr (hfresh.apart r' hr').symm
    · exact Or.inr (hfresh.apart r hr)
    · exact h.apart r hr r' hr'
  · rcases (hhas u).1 hu with rfl | hu
    · rw [hreal_t]
      omega
    · exact hkeep.header u hu
  · rcases (hhas u).1 hu with rfl | hu
    · exact hget_t .magic
    · exact hkeep.magic u hu
  · obtain ⟨hu', hrest⟩ := hkeep.listed k u hu
    exact ⟨(hhas u).2 (Or.inr hu'), hrest⟩
  · rcases (hhas u).1 hu with rfl | hu
    · exact Or.inl ⟨hget_t .index, hget_t .next, hget_t .prev⟩
    · exact hkeep.index u hu

end NewRange

end Liballoc

end Scorch
