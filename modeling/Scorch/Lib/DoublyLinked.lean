import Mathlib.Data.List.Nodup

/-!
# Doubly linked lists

The links of a list are two functions, `fwd` to the element behind and `back` to the one in
front. `Links fwd back p l q` says that the elements of `l` are linked so, with `p` in front
of the first and `q` behind the last.

A list of links is cut at an element (`links_append`). An element is taken out by two writes,
one to the element in front and one to the element behind (`Links.erase`), and put in by two
writes and its own links (`Links.insert`).
-/

namespace DoublyLinked

variable {α : Type*} {fwd back fwd' back' : α → α} {p q a : α} {l xs ys : List α}

/-- The elements of the list are linked both ways, between `p` and `q`. -/
def Links (fwd back : α → α) : α → List α → α → Prop
  | _, [], _ => True
  | p, a :: l, q => back a = p ∧ fwd a = l.headD q ∧ Links fwd back a l q

@[simp] theorem links_nil : Links fwd back p [] q :=
  trivial

/-- The links of the first element, and those of the rest. -/
theorem links_cons :
    Links fwd back p (a :: l) q ↔ back a = p ∧ fwd a = l.headD q ∧ Links fwd back a l q :=
  Iff.rfl

/-- Only the links of the elements count. -/
theorem Links.congr (h : Links fwd back p l q) (hfwd : ∀ u ∈ l, fwd' u = fwd u)
    (hback : ∀ u ∈ l, back' u = back u) : Links fwd' back' p l q := by
  induction l generalizing p with
  | nil => trivial
  | cons a l ih =>
    obtain ⟨hb, hf, hl⟩ := h
    refine ⟨(hback a List.mem_cons_self).trans hb, (hfwd a List.mem_cons_self).trans hf, ?_⟩
    exact ih hl (fun u hu => hfwd u (List.mem_cons_of_mem a hu))
      fun u hu => hback u (List.mem_cons_of_mem a hu)

/-- Two lists that are linked to each other. -/
theorem links_append : Links fwd back p (xs ++ ys) q ↔
    Links fwd back p xs (ys.headD q) ∧ Links fwd back (xs.getLastD p) ys q := by
  induction xs generalizing p with
  | nil => simp
  | cons a xs ih =>
    have hhead : (xs ++ ys).headD q = xs.headD (ys.headD q) := by cases xs <;> rfl
    rw [List.cons_append, links_cons, links_cons, ih, hhead, List.getLastD_cons]
    tauto

/-- What an element in the middle is linked to. -/
theorem Links.middle (h : Links fwd back p (xs ++ a :: ys) q) :
    back a = xs.getLastD p ∧ fwd a = ys.headD q := by
  obtain ⟨hb, hf, -⟩ := (links_append.1 h).2
  exact ⟨hb, hf⟩

/-- The element before the end, or what is before the list. -/
theorem getLastD_mem_cons (l : List α) (p : α) : l.getLastD p ∈ p :: l := by
  induction l generalizing p with
  | nil => exact List.mem_cons_self
  | cons a l ih =>
    rw [List.getLastD_cons]
    exact List.mem_cons_of_mem p (ih a)

/-- The first element, or what is behind the list. -/
theorem headD_mem_cons (l : List α) (q : α) : l.headD q ∈ q :: l := by
  cases l with
  | nil => exact List.mem_cons_self
  | cons a l => exact List.mem_cons_of_mem q List.mem_cons_self

/-- A write to the last element changes what lies behind the list. -/
theorem Links.set_behind [DecidableEq α] {q' : α} (h : Links fwd back p l q)
    (hnodup : (p :: l).Nodup) (hfwd : ∀ u ∈ l, fwd' u = if u = l.getLastD p then q' else fwd u)
    (hback : ∀ u ∈ l, back' u = back u) : Links fwd' back' p l q' := by
  induction l generalizing p with
  | nil => trivial
  | cons a l ih =>
    obtain ⟨hb, hf, hl⟩ := h
    have hnodup' : (a :: l).Nodup := hnodup.of_cons
    have hfwd' : ∀ u ∈ a :: l, fwd' u = if u = l.getLastD a then q' else fwd u := by
      simpa only [List.getLastD_cons] using hfwd
    refine ⟨(hback a List.mem_cons_self).trans hb, ?_, ih hl hnodup'
      (fun u hu => hfwd' u (List.mem_cons_of_mem a hu))
      fun u hu => hback u (List.mem_cons_of_mem a hu)⟩
    rw [hfwd' a List.mem_cons_self]
    cases l with
    | nil => exact if_pos rfl
    | cons b l =>
      have hne : a ≠ l.getLastD b := fun heq =>
        (List.nodup_cons.1 hnodup').1 (heq ▸ getLastD_mem_cons l b)
      rw [List.getLastD_cons, if_neg hne, hf]
      rfl

/-- A write to the first element changes what lies in front of the list. -/
theorem Links.set_front [DecidableEq α] {p' : α} (h : Links fwd back p l q) (hnodup : l.Nodup)
    (hfwd : ∀ u ∈ l, fwd' u = fwd u)
    (hback : ∀ u ∈ l, back' u = if u = l.headD q then p' else back u) :
    Links fwd' back' p' l q := by
  cases l with
  | nil => trivial
  | cons a l =>
    obtain ⟨-, hf, hl⟩ := h
    refine ⟨(hback a List.mem_cons_self).trans (if_pos rfl),
      (hfwd a List.mem_cons_self).trans hf, hl.congr
      (fun u hu => hfwd u (List.mem_cons_of_mem a hu)) fun u hu => ?_⟩
    have hne : u ≠ a := fun heq => (List.nodup_cons.1 hnodup).1 (heq ▸ hu)
    exact (hback u (List.mem_cons_of_mem a hu)).trans (if_neg hne)

section Writes

variable [DecidableEq α]

/-- An element is taken out : the one in front gets its forward link, the one behind its backward
link. -/
theorem Links.erase (h : Links fwd back p (xs ++ a :: ys) q)
    (hnodup : (xs ++ a :: ys).Nodup) (hp : p ∉ xs ++ a :: ys) (hq : q ∉ xs ++ a :: ys)
    (hfwd : ∀ u ∈ xs ++ ys, fwd' u = if u = back a then fwd a else fwd u)
    (hback : ∀ u ∈ xs ++ ys, back' u = if u = fwd a then back a else back u) :
    Links fwd' back' p (xs ++ ys) q := by
  obtain ⟨hxs, -, -, hys⟩ := links_append.1 h
  obtain ⟨hb, hf⟩ := h.middle
  rw [hb, hf] at hfwd hback
  obtain ⟨hnxs, hnays, hdisj⟩ := List.nodup_append.1 hnodup
  have hnys := hnays.of_cons
  have hmemx : ∀ u ∈ xs, u ∈ xs ++ ys := fun u hu => List.mem_append_left ys hu
  have hmemy : ∀ u ∈ ys, u ∈ xs ++ ys := fun u hu => List.mem_append_right xs hu
  have hpx : p ∉ xs := fun hmem => hp (List.mem_append_left _ hmem)
  have hqy : q ∉ ys := fun hmem =>
    hq (List.mem_append_right _ (List.mem_cons_of_mem a hmem))
  -- an element of `ys` is not in front, an element of `xs` is not behind
  have hneb : ∀ u ∈ ys, u ≠ xs.getLastD p := fun u hu heq => by
    rcases List.mem_cons.1 (getLastD_mem_cons xs p) with hlast | hlast
    · exact hp (hlast ▸ heq ▸ List.mem_append_right xs (List.mem_cons_of_mem a hu))
    · exact hdisj _ hlast _ (List.mem_cons_of_mem a hu) heq.symm
  have hnef : ∀ u ∈ xs, u ≠ ys.headD q := fun u hu heq => by
    rcases List.mem_cons.1 (headD_mem_cons ys q) with hhead | hhead
    · exact hq (hhead ▸ heq ▸ List.mem_append_left _ hu)
    · exact hdisj _ hu _ (List.mem_cons_of_mem a hhead) heq
  refine links_append.2 ⟨?_, ?_⟩
  · refine hxs.set_behind (List.nodup_cons.2 ⟨hpx, hnxs⟩) (fun u hu => hfwd u (hmemx u hu))
      fun u hu => ?_
    rw [hback u (hmemx u hu), if_neg (hnef u hu)]
  · refine hys.set_front hnys (fun u hu => ?_) fun u hu => hback u (hmemy u hu)
    rw [hfwd u (hmemy u hu), if_neg (hneb u hu)]

/-- An element is put in : it gets its own links, and those in front of it and behind it get a
link to it. -/
theorem Links.insert (h : Links fwd back p (xs ++ ys) q) (hnodup : (xs ++ ys).Nodup)
    (hp : p ∉ xs ++ ys) (hq : q ∉ xs ++ ys) (hfa : fwd' a = ys.headD q)
    (hba : back' a = xs.getLastD p)
    (hfwd : ∀ u ∈ xs ++ ys, fwd' u = if u = xs.getLastD p then a else fwd u)
    (hback : ∀ u ∈ xs ++ ys, back' u = if u = ys.headD q then a else back u) :
    Links fwd' back' p (xs ++ a :: ys) q := by
  obtain ⟨hxs, hys⟩ := links_append.1 h
  obtain ⟨hnxs, hnys, hdisj⟩ := List.nodup_append.1 hnodup
  have hmemx : ∀ u ∈ xs, u ∈ xs ++ ys := fun u hu => List.mem_append_left ys hu
  have hmemy : ∀ u ∈ ys, u ∈ xs ++ ys := fun u hu => List.mem_append_right xs hu
  have hneb : ∀ u ∈ ys, u ≠ xs.getLastD p := fun u hu heq => by
    rcases List.mem_cons.1 (getLastD_mem_cons xs p) with hlast | hlast
    · exact hp (hlast ▸ heq ▸ hmemy u hu)
    · exact hdisj _ hlast _ hu heq.symm
  have hnef : ∀ u ∈ xs, u ≠ ys.headD q := fun u hu heq => by
    rcases List.mem_cons.1 (headD_mem_cons ys q) with hhead | hhead
    · exact hq (hhead ▸ heq ▸ hmemx u hu)
    · exact hdisj _ hu _ hhead heq
  refine links_append.2 ⟨?_, hba, hfa, ?_⟩
  · refine hxs.set_behind (List.nodup_cons.2 ⟨fun hmem => hp (hmemx p hmem), hnxs⟩)
      (fun u hu => hfwd u (hmemx u hu)) fun u hu => ?_
    rw [hback u (hmemx u hu), if_neg (hnef u hu)]
  · refine hys.set_front hnys (fun u hu => ?_) fun u hu => hback u (hmemy u hu)
    rw [hfwd u (hmemy u hu), if_neg (hneb u hu)]

end Writes

end DoublyLinked
