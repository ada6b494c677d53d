import Mathlib.Data.Nat.Log
import Scorch.Liballoc

/-!
# Operations on tags

What the helper functions of `liballoc.c` leave in the members of the tags. A set of tags is
`Separate` when their records have no byte in common, so that a write to a member of one is
seen there and nowhere else in the set.

Each function has one lemma that says what every member of every tag is afterwards, and which
bytes may have changed :

* `remove_tag` closes the gap in a list (`Separate.removeTag_writes`);
* `melt_left` and `absorb_right` give a block to its left neighbour (`TakesOver`);
* `split_tag` cuts the end of a block off (`CutOff`);
* `allocate_new_tag` writes the header of a first tag (`Separate.frame_allocateNewTag`).

`getexp` is the binary logarithm from the smallest block on (`toNat_getexp`), and the list that
`malloc` looks into is that of the class of the size (`toNat_listOf`).
-/

open ByteMemory

namespace Scorch

namespace Liballoc

/-- The records of the tags have no byte in common, and none is at the null pointer. -/
structure Separate (T : Set Word) : Prop where
  fits : ∀ t ∈ T, Mem.RecordFits 8 t
  apart : ∀ t ∈ T, ∀ u ∈ T, t = u ∨ Mem.RecordsApart 8 t u
  zero_notMem : 0 ∉ T

variable {s : Liballoc} {T : Set Word} {t u v : Word} {f g : TagField}

/-- A store to a tag leaves the heads of the lists alone. -/
@[simp] theorem freePages_set (w : Word) : (s.set t f w).freePages = s.freePages :=
  rfl

@[simp] theorem completePages_set (w : Word) : (s.set t f w).completePages = s.completePages :=
  rfl

@[simp] theorem initialized_set (w : Word) : (s.set t f w).initialized = s.initialized :=
  rfl

@[simp] theorem completePages_setFreePages (i w : Word) :
    (s.setFreePages i w).completePages = s.completePages :=
  rfl

@[simp] theorem initialized_setFreePages (i w : Word) :
    (s.setFreePages i w).initialized = s.initialized :=
  rfl

@[simp] theorem get_setFreePages (i w : Word) : (s.setFreePages i w).get u g = s.get u g :=
  rfl

/-- The counters are not part of any tag. -/
@[simp] theorem get_setCompletePages (i w : Word) :
    (s.setCompletePages i w).get u g = s.get u g :=
  rfl

/-- A write to a member of a tag, as the members of all tags see it. -/
theorem Separate.get_set (hT : Separate T) (ht : t ∈ T) (hu : u ∈ T) (w : Word) :
    (s.set t f w).get u g = if u = t ∧ g = f then w else s.get u g := by
  have h := Mem.field_setField s.mem w (hT.fits t ht) (hT.fits u hu) f.place_lt g.place_lt
    ((hT.apart t ht u hu).imp_left Eq.symm)
  simp only [TagField.place_inj] at h
  exact h

theorem Separate.ne_zero (hT : Separate T) (ht : t ∈ T) : t ≠ 0 :=
  fun h => hT.zero_notMem (h ▸ ht)

/-- A tag that is apart from all of them joins separate tags. -/
theorem Separate.insert_of_apart (hT : Separate T) (hfits : Mem.RecordFits 8 u) (hu : u ≠ 0)
    (hapart : ∀ t ∈ T, Mem.RecordsApart 8 t u) : Separate (insert u T) := by
  refine ⟨fun t ht => ?_, fun t ht v hv => ?_, fun h0 => ?_⟩
  · rcases ht with rfl | ht
    · exact hfits
    · exact hT.fits t ht
  · rcases ht with rfl | ht <;> rcases hv with rfl | hv
    · exact Or.inl rfl
    · exact Or.inr (hapart v hv).symm
    · exact Or.inr (hapart t ht)
    · exact hT.apart t ht v hv
  · rcases h0 with h0 | h0
    · exact hu h0.symm
    · exact hT.zero_notMem h0

/-- A link that may be null is written through when it is not. -/
theorem Separate.get_setLink (hT : Separate T) (ht : t = 0 ∨ t ∈ T) (hu : u ∈ T) (w : Word) :
    (if t ≠ 0 then s.set t f w else s).get u g = if u = t ∧ g = f then w else s.get u g := by
  rcases ht with rfl | ht
  · rw [if_neg (not_not.2 rfl), if_neg fun h => hT.ne_zero hu h.1]
  · rw [if_pos (hT.ne_zero ht), hT.get_set ht hu]

/-- The bytes of the tags. -/
def headers (T : Set Word) : Set Word :=
  {x | ∃ t ∈ T, x ∈ Mem.block t 32}

theorem headers_mono {T' : Set Word} (h : T ⊆ T') : headers T ⊆ headers T' :=
  fun _ ⟨t, ht, hx⟩ => ⟨t, h ht, hx⟩

/-- A store to a field changes only bytes of tags. -/
theorem Separate.frame_set (hT : Separate T) (ht : t ∈ T) (w : Word) :
    Mem.Frame (headers T) s.mem (s.set t f w).mem :=
  (Mem.frame_setField s.mem w (hT.fits t ht) f.place_lt).mono fun _ hx => ⟨t, ht, hx⟩

theorem Separate.frame_setLink (hT : Separate T) (ht : t = 0 ∨ t ∈ T) (w : Word) :
    Mem.Frame (headers T) s.mem (if t ≠ 0 then s.set t f w else s).mem := by
  rcases ht with rfl | ht
  · rw [if_neg (not_not.2 rfl)]
    exact Mem.Frame.refl _ _
  · rw [if_pos (hT.ne_zero ht)]
    exact hT.frame_set ht w

/-! ## Lists of free tags -/

/-- `remove_tag` links the neighbours in the list to each other. -/
theorem Separate.removeTag_writes (hT : Separate T) (ht : t ∈ T)
    (hprev : s.get t .prev = 0 ∨ s.get t .prev ∈ T) (hnext : s.get t .next = 0 ∨ s.get t .next ∈ T)
    (hprev' : s.get t .prev ≠ t) :
    Mem.Frame (headers T) s.mem (s.removeTag t).mem ∧ ∀ u ∈ T, ∀ g, (s.removeTag t).get u g =
      match g with
      | .next => if u = t then 0 else if u = s.get t .prev then s.get t .next else s.get u .next
      | .prev => if u = t then 0 else if u = s.get t .next then s.get t .prev else s.get u .prev
      | .index => if u = t then -1 else s.get u .index
      | g => s.get u g := by
  unfold removeTag
  extract_lets s₁ s₂ s₃ s₄ s₅
  have h₁ : ∀ u g, s₁.get u g = s.get u g := fun u g => by
    unfold s₁
    split_ifs <;> rfl
  -- The neighbours are read from the tag before it is cleared. The first store does not reach
  -- it, as it is not its own neighbour.
  have h₂ : ∀ u ∈ T, ∀ g, s₂.get u g =
      if u = s.get t .prev ∧ g = .next then s.get t .next else s.get u g := fun u hu g => by
    unfold s₂
    rw [h₁, h₁, hT.get_setLink hprev hu, h₁]
  have hnext₂ : s₂.get t .next = s.get t .next := by
    rw [h₂ t ht, if_neg fun h => hprev' h.1.symm]
  have hprev₂ : s₂.get t .prev = s.get t .prev := by
    rw [h₂ t ht, if_neg fun h => hprev' h.1.symm]
  have h₃ : ∀ u ∈ T, ∀ g, s₃.get u g =
      if u = s.get t .next ∧ g = .prev then s.get t .prev else s₂.get u g := fun u hu g => by
    unfold s₃
    rw [hnext₂, hprev₂, hT.get_setLink hnext hu]
  have hmem₁ : s₁.mem = s.mem := by
    unfold s₁
    split_ifs <;> rfl
  have hframe₂ : Mem.Frame (headers T) s₁.mem s₂.mem := by
    unfold s₂
    rw [h₁, h₁]
    exact hT.frame_setLink hprev _
  have hframe₃ : Mem.Frame (headers T) s₂.mem s₃.mem := by
    unfold s₃
    rw [hnext₂, hprev₂]
    exact hT.frame_setLink hnext _
  refine ⟨((((hmem₁ ▸ hframe₂).trans hframe₃).trans (hT.frame_set ht 0)).trans
    (hT.frame_set ht 0)).trans (hT.frame_set ht (-1)), fun u hu g => ?_⟩
  rw [hT.get_set ht hu]
  unfold s₅ s₄
  rw [hT.get_set ht hu, hT.get_set ht hu, h₃ u hu, h₂ u hu]
  cases g <;> simp

/-- The head of the list moves on when it is the tag that is removed. -/
theorem freePages_removeTag (s : Liballoc) (t : Word) : (s.removeTag t).freePages =
    if s.freePages (s.get t .index).toNat = t then
      Function.update s.freePages (s.get t .index).toNat (s.get t .next)
    else s.freePages := by
  simp only [removeTag, freePages_set, apply_ite freePages, ite_self]
  rfl

@[simp] theorem completePages_removeTag (s : Liballoc) (t : Word) :
    (s.removeTag t).completePages = s.completePages := by
  simp only [removeTag, completePages_set, completePages_setFreePages, apply_ite completePages,
    ite_self]

@[simp] theorem initialized_removeTag (s : Liballoc) (t : Word) :
    (s.removeTag t).initialized = s.initialized := by
  simp only [removeTag, initialized_set, initialized_setFreePages, apply_ite initialized, ite_self]

/-- `insert_tag` puts the tag in front of its list. -/
theorem Separate.insertTag_writes (hT : Separate T) {i : Word} (hi : ¬i.slt 0) (ht : t ∈ T)
    (hhead : s.freePages i.toNat = 0 ∨ s.freePages i.toNat ∈ T) :
    Mem.Frame (headers T) s.mem (s.insertTag t i).mem ∧ ∀ u ∈ T, ∀ g, (s.insertTag t i).get u g =
      match g with
      | .next =>
        if u = t ∧ s.freePages i.toNat ≠ 0 then s.freePages i.toNat else s.get u .next
      | .prev => if u = s.freePages i.toNat then t else s.get u .prev
      | .index => if u = t then i else s.get u .index
      | g => s.get u g := by
  unfold insertTag
  rw [if_neg hi]
  extract_lets j s₁ s' s₂
  have h₁ : ∀ u ∈ T, ∀ g, s₁.get u g = if u = t ∧ g = .index then i else s.get u g :=
    fun u hu g => hT.get_set ht hu i
  have hfree : s₁.freePages i.toNat = s.freePages i.toNat := rfl
  have hframe₂ : Mem.Frame (headers T) s₁.mem s₂.mem := by
    unfold s₂ s'
    rw [hfree]
    split_ifs with h0
    · exact (hT.frame_set (hhead.resolve_left h0) t).trans (hT.frame_set ht _)
    · exact Mem.Frame.refl _ _
  refine ⟨(hT.frame_set ht i).trans hframe₂, fun u hu g => ?_⟩
  have h₂ : s₂.get u g = if u = t ∧ g = .next ∧ s.freePages i.toNat ≠ 0 then s.freePages i.toNat
      else if u = s.freePages i.toNat ∧ g = .prev then t else s₁.get u g := by
    unfold s₂ s'
    rw [hfree]
    rcases hhead with hnull | hmem
    · rw [hnull, if_neg (not_not.2 rfl), if_neg fun h => h.2.2 rfl,
        if_neg fun h => hT.ne_zero hu h.1]
    · have hne := hT.ne_zero hmem
      rw [if_pos hne, hT.get_set ht hu]
      simp only [hT.get_set hmem hu, ne_eq, hne, not_false_eq_true, and_true]
      rfl
  rw [get_setFreePages, h₂, h₁ u hu]
  cases g <;> simp

/-- The tag becomes the head of its list. -/
theorem freePages_insertTag {i : Word} (hi : ¬i.slt 0) (s : Liballoc) (t : Word) :
    (s.insertTag t i).freePages = Function.update s.freePages i.toNat t := by
  unfold insertTag
  rw [if_neg hi]
  extract_lets j s₁ s' s₂
  have h₂ : s₂.freePages = s.freePages := by
    unfold s₂
    split_ifs <;> rfl
  rw [setFreePages, h₂]

/-- What the index was before is lost. -/
theorem insertTag_set_index {i : Word} (hi : ¬i.slt 0) (s : Liballoc) (t w : Word) :
    (s.set t .index w).insertTag t i = s.insertTag t i := by
  have hset : (s.set t .index w).set t .index i = s.set t .index i := by
    unfold set
    rw [Mem.setField, Mem.setField, Mem.store32_store32_self]
    rfl
  unfold insertTag
  rw [if_neg hi, if_neg hi]
  dsimp only
  rw [hset]

@[simp] theorem completePages_insertTag (s : Liballoc) (t i : Word) :
    (s.insertTag t i).completePages = s.completePages := by
  simp only [insertTag, completePages_set, completePages_setFreePages, apply_ite completePages,
    ite_self]

@[simp] theorem initialized_insertTag (s : Liballoc) (t i : Word) :
    (s.insertTag t i).initialized = s.initialized := by
  simp only [insertTag, initialized_set, initialized_setFreePages, apply_ite initialized, ite_self]

/-! ## Neighbours -/

/-- In `s'` the tag `l` takes over the block of `t`, which lies behind it. -/
structure TakesOver (T : Set Word) (s s' : Liballoc) (l t : Word) : Prop where
  frame : Mem.Frame (headers T) s.mem s'.mem
  get : ∀ u ∈ T, ∀ g, s'.get u g =
    match g with
    | .realSize => if u = l then s.get l .realSize + s.get t .realSize else s.get u .realSize
    | .splitRight => if u = l then s.get t .splitRight else s.get u .splitRight
    | .splitLeft => if u = s.get t .splitRight then l else s.get u .splitLeft
    | g => s.get u g

/-- The writes that `melt_left` and `absorb_right` end with. -/
theorem Separate.takesOver (hT : Separate T) {l : Word} (hl : l ∈ T) (ht : t ∈ T) (hlt : l ≠ t)
    (hright : s.get t .splitRight = 0 ∨ s.get t .splitRight ∈ T) {s₁ s₂ s₃ : Liballoc}
    (h₁ : s₁ = s.set l .realSize (s.get l .realSize + s.get t .realSize))
    (h₂ : s₂ = s₁.set l .splitRight (s₁.get t .splitRight))
    (h₃ : s₃ = if s₂.get t .splitRight ≠ 0 then s₂.set (s₂.get t .splitRight) .splitLeft l
      else s₂) : TakesOver T s s₃ l t := by
  have hget₁ : ∀ u ∈ T, ∀ g, s₁.get u g =
      if u = l ∧ g = .realSize then s.get l .realSize + s.get t .realSize else s.get u g :=
    fun u hu g => by rw [h₁, hT.get_set hl hu]
  have hright₁ : s₁.get t .splitRight = s.get t .splitRight := by
    rw [hget₁ t ht, if_neg fun h => hlt h.1.symm]
  have hget₂ : ∀ u ∈ T, ∀ g, s₂.get u g =
      if u = l ∧ g = .splitRight then s.get t .splitRight else s₁.get u g := fun u hu g => by
    rw [h₂, hT.get_set hl hu, hright₁]
  have hright₂ : s₂.get t .splitRight = s.get t .splitRight := by
    rw [hget₂ t ht, if_neg fun h => hlt h.1.symm, hright₁]
  refine ⟨?_, fun u hu g => ?_⟩
  · have hframe₂ : Mem.Frame (headers T) s.mem s₂.mem := by
      rw [h₂, h₁]
      exact (hT.frame_set hl _).trans (hT.frame_set hl _)
    rw [h₃, hright₂]
    exact hframe₂.trans (hT.frame_setLink hright l)
  · rw [h₃, hright₂, hT.get_setLink hright hu, hget₂ u hu, hget₁ u hu]
    cases g <;> simp

/-- `melt_left` gives the block of the tag to its left neighbour. -/
theorem Separate.takesOver_meltLeft (hT : Separate T) (ht : t ∈ T)
    (hu : s.get t .splitLeft = u) (huT : u ∈ T) (hne : u ≠ t)
    (hright : s.get t .splitRight = 0 ∨ s.get t .splitRight ∈ T) :
    TakesOver T s (s.meltLeft t).2 u t := by
  subst hu
  exact hT.takesOver huT ht hne hright rfl rfl rfl

/-- `melt_left` leaves the lists to its caller. -/
@[simp] theorem freePages_meltLeft (s : Liballoc) (t : Word) :
    (s.meltLeft t).2.freePages = s.freePages := by
  simp only [meltLeft, freePages_set, apply_ite freePages, ite_self]

/-- `melt_left` leaves the counters alone. -/
@[simp] theorem completePages_meltLeft (s : Liballoc) (t : Word) :
    (s.meltLeft t).2.completePages = s.completePages := by
  simp only [meltLeft, completePages_set, apply_ite completePages, ite_self]

@[simp] theorem initialized_meltLeft (s : Liballoc) (t : Word) :
    (s.meltLeft t).2.initialized = s.initialized := by
  simp only [meltLeft, initialized_set, apply_ite initialized, ite_self]

/-- `absorb_right` takes the right neighbour out of its list and takes its block over. -/
theorem Separate.takesOver_absorbRight (hT : Separate T) (ht : t ∈ T)
    (hu : s.get t .splitRight = u) (huT : u ∈ T) (hne : u ≠ t)
    (hbehind : (s.removeTag u).get u .splitRight = 0 ∨ (s.removeTag u).get u .splitRight ∈ T) :
    TakesOver T (s.removeTag u) (s.absorbRight t).2 t u := by
  subst hu
  exact hT.takesOver ht huT (Ne.symm hne) hbehind rfl rfl rfl

/-- `absorb_right` takes the right neighbour out of its list. -/
theorem freePages_absorbRight (s : Liballoc) (t : Word) :
    (s.absorbRight t).2.freePages = (s.removeTag (s.get t .splitRight)).freePages := by
  simp only [absorbRight, freePages_set, apply_ite freePages, ite_self]

/-- `absorb_right` leaves the counters alone. -/
@[simp] theorem completePages_absorbRight (s : Liballoc) (t : Word) :
    (s.absorbRight t).2.completePages = s.completePages := by
  simp only [absorbRight, completePages_set, completePages_removeTag, apply_ite completePages,
    ite_self]

@[simp] theorem initialized_absorbRight (s : Liballoc) (t : Word) :
    (s.absorbRight t).2.initialized = s.initialized := by
  simp only [absorbRight, initialized_set, initialized_removeTag, apply_ite initialized, ite_self]

/-! ## New tags -/

/-- In `s'` the block of `t` ends behind its size, and the tag `u` has the rest of it. -/
structure CutOff (T : Set Word) (s s' : Liballoc) (t u : Word) : Prop where
  frame : Mem.Frame (headers (insert u T)) s.mem s'.mem
  old : ∀ w ∈ T, ∀ g, s'.get w g =
    match g with
    | .realSize =>
      if w = t then s.get t .realSize - (s.get t .realSize - 32 - s.get t .size)
      else s.get w .realSize
    | .splitRight => if w = t then u else s.get w .splitRight
    | .splitLeft => if w = s.get t .splitRight then u else s.get w .splitLeft
    | g => s.get w g
  magic : s'.get u .magic = liballocMagic
  realSize : s'.get u .realSize = s.get t .realSize - 32 - s.get t .size
  next : s'.get u .next = 0
  prev : s'.get u .prev = 0
  splitLeft : s'.get u .splitLeft = t
  splitRight : s'.get u .splitRight = s.get t .splitRight
  freePages : s'.freePages = s.freePages
  completePages : s'.completePages = s.completePages
  initialized : s'.initialized = s.initialized

/-- `split_tag` cuts a tag off and puts it into its list. -/
theorem Separate.exists_splitTag (hT : Separate (insert u T)) (ht : t ∈ T) (huT : u ∉ T)
    (hu : u = t + 32 + s.get t .size)
    (hright : s.get t .splitRight = 0 ∨ s.get t .splitRight ∈ T) :
    ∃ s', (s.splitTag t).2 = s'.insertTag u (-1) ∧ CutOff T s s' t u := by
  have hT' : ∀ {w}, w ∈ T → w ∈ insert u T := Set.mem_insert_of_mem u
  have hu' : u ∈ insert u T := Set.mem_insert u T
  have hne : ∀ w ∈ T, w ≠ u := fun w hw h => huT (h ▸ hw)
  have hright' : s.get t .splitRight ≠ u := fun h => by
    rcases hright with h0 | hmem
    · exact hT.ne_zero hu' (h ▸ h0)
    · exact hne _ hmem h
  unfold splitTag
  rw [← hu]
  extract_lets remainder newTag s₁ s₂ s₃ s₄ s₅ s₆ s₇ s₈ s₉
  have hnewTag : u = newTag := rfl
  clear_value newTag
  subst hnewTag
  -- the members of the new tag, which no other tag sees
  have h₅ : ∀ w ∈ T, ∀ g, s₅.get w g = s.get w g := fun w hw g => by
    unfold s₅ s₄ s₃ s₂ s₁
    simp [hT.get_set hu' (hT' hw), hne w hw]
  have h₆ : ∀ w ∈ T, ∀ g, s₆.get w g = s.get w g := fun w hw g => by
    unfold s₆
    rw [hT.get_set hu' (hT' hw), if_neg fun h => hne w hw h.1, h₅ w hw]
  have hnew : ∀ g, s₆.get u g =
      match g with
      | .magic => liballocMagic
      | .realSize => remainder
      | .next => 0
      | .prev => 0
      | .splitLeft => t
      | .splitRight => s.get t .splitRight
      | g => s.get u g := fun g => by
    unfold s₆
    rw [h₅ t ht]
    unfold s₅ s₄ s₃ s₂ s₁
    cases g <;> simp [hT.get_set hu' hu']
  have h₇ : ∀ w ∈ insert u T, ∀ g, s₇.get w g =
      if w = s.get t .splitRight ∧ g = .splitLeft then u else s₆.get w g := fun w hw g => by
    unfold s₇
    rw [hnew .splitRight]
    exact hT.get_setLink (hright.imp_right hT') hw u
  have h₈ : ∀ w ∈ insert u T, ∀ g, s₈.get w g =
      if w = t ∧ g = .splitRight then u else s₇.get w g := fun w hw g =>
    hT.get_set (hT' ht) hw u
  have htreal : s₈.get t .realSize = s.get t .realSize := by
    rw [h₈ t (hT' ht), if_neg (by simp), h₇ t (hT' ht), if_neg (by simp), h₆ t ht]
  have hureal : s₈.get u .realSize = remainder := by
    rw [h₈ u hu', if_neg (by simp), h₇ u hu', if_neg (by simp), hnew]
  have h₉ : ∀ w ∈ insert u T, ∀ g, s₉.get w g =
      if w = t ∧ g = .realSize then s.get t .realSize - remainder else s₈.get w g :=
    fun w hw g => by
      unfold s₉
      rw [hT.get_set (hT' ht) hw, htreal, hureal]
  have hframe : Mem.Frame (headers (insert u T)) s.mem s₉.mem := by
    have hframe₆ : Mem.Frame (headers (insert u T)) s.mem s₆.mem :=
      (((((hT.frame_set hu' _).trans (hT.frame_set hu' _)).trans (hT.frame_set hu' _)).trans
        (hT.frame_set hu' _)).trans (hT.frame_set hu' _)).trans (hT.frame_set hu' _)
    have hframe₇ : Mem.Frame (headers (insert u T)) s₆.mem s₇.mem := by
      unfold s₇
      rw [hnew .splitRight]
      exact hT.frame_setLink (hright.imp_right hT') u
    exact ((hframe₆.trans hframe₇).trans (hT.frame_set (hT' ht) _)).trans (hT.frame_set (hT' ht) _)
  have hstatic : s₉.freePages = s.freePages ∧ s₉.completePages = s.completePages ∧
      s₉.initialized = s.initialized := by
    have hstatic₇ : s₇.freePages = s.freePages ∧ s₇.completePages = s.completePages ∧
        s₇.initialized = s.initialized := by
      unfold s₇
      split_ifs <;> exact ⟨rfl, rfl, rfl⟩
    exact hstatic₇
  clear_value s₉
  have hnew' : ∀ g, s₉.get u g = s₆.get u g := fun g => by
    rw [h₉ u hu', if_neg fun h => hne t ht h.1.symm, h₈ u hu', if_neg fun h => hne t ht h.1.symm,
      h₇ u hu', if_neg fun h => hright' h.1.symm]
  refine ⟨s₉, rfl, ⟨hframe, fun w hw g => ?_, (hnew' _).trans (hnew _), (hnew' _).trans (hnew _),
    (hnew' _).trans (hnew _), (hnew' _).trans (hnew _), (hnew' _).trans (hnew _),
    (hnew' _).trans (hnew _), hstatic.1, hstatic.2.1, hstatic.2.2⟩⟩
  rw [h₉ w (hT' hw), h₈ w (hT' hw), h₇ w (hT' hw), h₆ w hw]
  cases g <;> simp [remainder]

/-- `allocate_new_tag` fills in the tag of a new range. -/
theorem Separate.get_allocateNewTag (hT : Separate T) (ht : t ∈ T) (size : Word) (hu : u ∈ T) :
    (s.allocateNewTag t size).get u g =
      if u = t then
        match g with
        | .magic => liballocMagic
        | .size => size
        | .realSize => pagesFor size * 4096
        | .index => -1
        | _ => 0
      else s.get u g := by
  unfold allocateNewTag
  simp only [hT.get_set ht hu]
  by_cases hut : u = t
  · cases g <;> simp [hut]
  · simp [hut]

/-- `allocate_new_tag` writes the header of the new tag and nothing else. -/
theorem Separate.frame_allocateNewTag (hT : Separate T) (ht : t ∈ T) (size : Word) :
    Mem.Frame (headers T) s.mem (s.allocateNewTag t size).mem := by
  unfold allocateNewTag
  exact (((((((hT.frame_set ht _).trans (hT.frame_set ht _)).trans (hT.frame_set ht _)).trans
    (hT.frame_set ht _)).trans (hT.frame_set ht _)).trans (hT.frame_set ht _)).trans
    (hT.frame_set ht _)).trans (hT.frame_set ht _)

/-! ## Exponents -/

/-- The list for blocks with so many bytes behind the tag. -/
def classOf (n : ℕ) : ℕ :=
  max 8 (Nat.log 2 n)

/-- A round of the loop of `getexp` that has not stopped knows that the size has the bit below
the shift. -/
theorem getexpFrom_eq (size : Word) (n shift : ℕ) (hn : shift + n = 32) (hpos : 0 < shift)
    (hlow : 2 ^ (shift - 1) ≤ size.toNat) :
    getexpFrom size n shift = Nat.log 2 size.toNat + 1 := by
  induction n generalizing shift with
  | zero =>
    have hlt : size.toNat < 2 ^ (shift - 1 + 1) := by
      rw [Nat.sub_add_cancel hpos, show shift = 32 by omega]
      exact size.isLt
    rw [getexpFrom, Nat.log_eq_of_pow_le_of_lt_pow hlow hlt]
    omega
  | succ n ih =>
    have hbit : ((1 : Word) <<< shift).toNat = 2 ^ shift := by
      rw [BitVec.toNat_shiftLeft, Nat.shiftLeft_eq, show (1 : Word).toNat = 1 from rfl, one_mul]
      exact Nat.mod_eq_of_lt (Nat.pow_lt_pow_right (by decide) (by omega))
    rw [getexpFrom]
    split_ifs with hgt
    · have hlt : size.toNat < 2 ^ (shift - 1 + 1) := by
        rw [Nat.sub_add_cancel hpos, ← hbit]
        exact hgt
      rw [Nat.log_eq_of_pow_le_of_lt_pow hlow hlt]
      omega
    · refine ih (shift + 1) (by omega) (by omega) ?_
      rw [Nat.add_sub_cancel, ← hbit]
      exact Nat.le_of_not_lt hgt

/-- `getexp` is the binary logarithm from the smallest block on. -/
theorem toNat_getexp {size : Word} (h : 256 ≤ size.toNat) :
    (getexp size).toNat = Nat.log 2 size.toNat := by
  have hlt : Nat.log 2 size.toNat < 32 := Nat.log_lt_of_lt_pow (by omega) size.isLt
  have hge : ¬size < 256 := by
    rw [BitVec.lt_def]
    exact Nat.not_lt.2 h
  rw [getexp, if_neg hge, getexpFrom_eq size 24 8 rfl (by decide) (le_trans (by decide) h)]
  bv_omega

/-- Below `256` bytes there is no exponent. -/
theorem getexp_of_lt {size : Word} (h : size.toNat < 256) : getexp size = -1 :=
  if_pos h

/-- There is a list for every size of the address space. -/
theorem classOf_lt {n : ℕ} (h : n < 2 ^ 32) : classOf n < 32 := by
  refine max_lt (by decide) ?_
  rcases Nat.eq_zero_or_pos n with rfl | hpos
  · decide
  · exact Nat.log_lt_of_lt_pow hpos.ne' h

/-- The lists `0` to `7` are never used. -/
theorem eight_le_classOf (n : ℕ) : 8 ≤ classOf n :=
  le_max_left _ _

/-- Below `2 ^ 31` the signed comparison is that of the numbers. -/
theorem slt_of_lt {a b : Word} (ha : a.toNat < 2 ^ 31) (hb : b.toNat < 2 ^ 31) :
    a.slt b = decide (a.toNat < b.toNat) := by
  have hai : a.toInt = a.toNat := BitVec.toInt_eq_toNat_of_lt (by omega)
  have hbi : b.toInt = b.toNat := BitVec.toInt_eq_toNat_of_lt (by omega)
  rw [BitVec.slt, hai, hbi]
  simp

theorem log_lt_eight_iff {n : ℕ} : Nat.log 2 n < 8 ↔ n < 256 := by
  rcases Nat.eq_zero_or_pos n with rfl | hpos
  · decide
  · exact Nat.log_lt_iff_lt_pow (by decide) hpos.ne'

/-- The index that `malloc` computes, with the correction for small sizes, is the class of the
size. -/
theorem toNat_listOf (size : Word) : (listOf size).toNat = classOf size.toNat := by
  unfold listOf classOf
  rcases Nat.lt_or_ge size.toNat 256 with hlt | hge
  · rw [getexp_of_lt hlt, max_eq_left (log_lt_eight_iff.2 hlt).le]
    rfl
  · have hlog : 8 ≤ Nat.log 2 size.toNat := not_lt.1 (mt log_lt_eight_iff.1 (not_lt.2 hge))
    have hget := toNat_getexp hge
    have hlt : Nat.log 2 size.toNat < 32 := Nat.log_lt_of_lt_pow (by omega) size.isLt
    have hslt : (getexp size).slt 8 = false := by
      rw [slt_of_lt (by omega) (by decide), hget]
      exact decide_eq_false (Nat.not_lt.2 hlog)
    rw [max_eq_right hlog, ← hget]
    dsimp only
    rw [hslt]
    rfl

theorem listOf_eq (size : Word) : listOf size = BitVec.ofNat 32 (classOf size.toNat) := by
  rw [← toNat_listOf, BitVec.ofNat_toNat, BitVec.setWidth_eq]

/-- The index of a list is never taken for one that is still missing. -/
theorem not_slt_listOf (size : Word) : ¬(listOf size).slt 0 := by
  have hlt := classOf_lt size.isLt
  rw [← toNat_listOf] at hlt
  rw [slt_of_lt (by omega) (by decide)]
  simp

/-- Without a list of its own a tag goes to the one for its size. -/
theorem insertTag_neg_one (s : Liballoc) (t : Word) :
    s.insertTag t (-1) = s.insertTag t (listOf (s.get t .realSize - 32)) := by
  have hneg : (-1 : Word).slt 0 = true := by decide
  have hpos : (listOf (s.get t .realSize - 32)).slt 0 = false :=
    Bool.eq_false_iff.2 (not_slt_listOf _)
  unfold insertTag
  rw [hneg, hpos]
  rfl

end Liballoc

end Scorch
