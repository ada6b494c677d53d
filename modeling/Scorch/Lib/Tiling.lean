import Mathlib.Data.List.Nodup
import Mathlib.Order.Bounds.Basic

/-!
# Tilings of an interval

Pieces with a first place `addr` and a length `len` tile `[lo, hi)` when each starts where the
one in front of it ends. A piece may be cut in two (`Tiles.cut`) and two neighbours may be put
together (`Tiles.glue`). Two pieces have no place in common (`Tiles.pairwise`).

Both are proved by recursion on the list of pieces, and a list in two parts tiles two intervals
that meet (`tiles_append`).
-/

namespace Tiling

variable {α : Type*} {addr len len' : α → ℕ} {lo hi : ℕ} {l xs ys : List α} {t u : α}

/-- The pieces lie one behind the other from `lo` to `hi`. -/
def Tiles (addr len : α → ℕ) : ℕ → List α → ℕ → Prop
  | lo, [], hi => lo = hi
  | lo, t :: l, hi => addr t = lo ∧ Tiles addr len (lo + len t) l hi

/-- The first element starts at the lower end, and the rest follows. -/
theorem tiles_cons :
    Tiles addr len lo (t :: l) hi ↔ addr t = lo ∧ Tiles addr len (lo + len t) l hi :=
  Iff.rfl

/-- Only the lengths of the elements count. -/
theorem Tiles.congr (h : Tiles addr len lo l hi) (hlen : ∀ t ∈ l, len' t = len t) :
    Tiles addr len' lo l hi := by
  induction l generalizing lo with
  | nil => exact h
  | cons t l ih =>
    refine ⟨h.1, ?_⟩
    rw [hlen t List.mem_cons_self]
    exact ih h.2 fun u hu => hlen u (List.mem_cons_of_mem t hu)

theorem tiles_append : Tiles addr len lo (xs ++ ys) hi ↔
    ∃ mid, Tiles addr len lo xs mid ∧ Tiles addr len mid ys hi := by
  induction xs generalizing lo with
  | nil => exact ⟨fun h => ⟨lo, rfl, h⟩, fun ⟨_, hmid, h⟩ => hmid ▸ h⟩
  | cons t xs ih =>
    rw [List.cons_append, tiles_cons, ih]
    constructor
    · rintro ⟨haddr, mid, hxs, hys⟩
      exact ⟨mid, ⟨haddr, hxs⟩, hys⟩
    · rintro ⟨mid, ⟨haddr, hxs⟩, hys⟩
      exact ⟨haddr, mid, hxs, hys⟩

theorem Tiles.le (h : Tiles addr len lo l hi) : lo ≤ hi := by
  induction l generalizing lo with
  | nil => exact h.le
  | cons t l ih => exact (Nat.le_add_right lo (len t)).trans (ih h.2)

/-- Every element lies between the ends. -/
theorem Tiles.bounds (h : Tiles addr len lo l hi) (ht : t ∈ l) :
    lo ≤ addr t ∧ addr t + len t ≤ hi := by
  induction l generalizing lo with
  | nil => exact absurd ht List.not_mem_nil
  | cons u l ih =>
    rcases List.mem_cons.1 ht with rfl | ht
    · exact ⟨h.1.ge, h.1 ▸ Tiles.le h.2⟩
    · have hrest := ih h.2 ht
      exact ⟨(Nat.le_add_right lo (len u)).trans hrest.1, hrest.2⟩

/-- A piece ends before those behind it begin. -/
theorem Tiles.pairwise (h : Tiles addr len lo l hi) :
    l.Pairwise fun t u => addr t + len t ≤ addr u := by
  induction l generalizing lo with
  | nil => exact List.Pairwise.nil
  | cons t l ih =>
    exact List.pairwise_cons.2 ⟨fun u hu => h.1 ▸ (Tiles.bounds h.2 hu).1, ih h.2⟩

/-- Two pieces have no place in common. -/
theorem Tiles.eq_or_apart (h : Tiles addr len lo l hi) (ht : t ∈ l) (hu : u ∈ l) :
    t = u ∨ addr t + len t ≤ addr u ∨ addr u + len u ≤ addr t := by
  induction l generalizing lo with
  | nil => exact absurd ht List.not_mem_nil
  | cons v l ih =>
    rcases List.mem_cons.1 ht with htv | htl <;> rcases List.mem_cons.1 hu with huv | hul
    · exact Or.inl (htv.trans huv.symm)
    · exact Or.inr (Or.inl (htv ▸ h.1 ▸ (Tiles.bounds h.2 hul).1))
    · exact Or.inr (Or.inr (huv ▸ h.1 ▸ (Tiles.bounds h.2 htl).1))
    · exact ih h.2 htl hul

/-- The piece behind another one starts where it ends. -/
theorem Tiles.addr_next (h : Tiles addr len lo (xs ++ t :: u :: ys) hi) :
    addr u = addr t + len t := by
  obtain ⟨mid, -, ht, hu, -⟩ := tiles_append.1 h
  rw [ht, hu]

/-- A piece is cut in two. -/
theorem Tiles.cut (h : Tiles addr len lo (xs ++ t :: ys) hi)
    (hrest : ∀ v ∈ xs ++ ys, len' v = len v) (hu : addr u = addr t + len' t)
    (hsum : len' t + len' u = len t) : Tiles addr len' lo (xs ++ t :: u :: ys) hi := by
  obtain ⟨mid, hxs, ht, hys⟩ := tiles_append.1 h
  refine tiles_append.2 ⟨mid, hxs.congr fun v hv => hrest v (List.mem_append_left ys hv), ht,
    hu.trans (by rw [ht]), ?_⟩
  rw [Nat.add_assoc, hsum]
  exact hys.congr fun v hv => hrest v (List.mem_append_right xs hv)

/-- Two neighbours are put together. -/
theorem Tiles.glue (h : Tiles addr len lo (xs ++ t :: u :: ys) hi)
    (hrest : ∀ v ∈ xs ++ ys, len' v = len v) (hsum : len' t = len t + len u) :
    Tiles addr len' lo (xs ++ t :: ys) hi := by
  obtain ⟨mid, hxs, ht, -, hys⟩ := tiles_append.1 h
  refine tiles_append.2 ⟨mid, hxs.congr fun v hv => hrest v (List.mem_append_left ys hv), ht, ?_⟩
  rw [hsum, ← Nat.add_assoc]
  exact hys.congr fun v hv => hrest v (List.mem_append_right xs hv)

/-- Pieces that are not empty are different. -/
theorem Tiles.nodup (h : Tiles addr len lo l hi) (hpos : ∀ t ∈ l, 0 < len t) : l.Nodup := by
  refine List.Pairwise.imp_of_mem (fun {t u} ht _ hle heq => ?_) h.pairwise
  have hlt := hpos t ht
  rw [← heq] at hle
  omega

end Tiling
