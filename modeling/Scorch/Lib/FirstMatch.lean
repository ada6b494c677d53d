import Mathlib.Data.List.Basic
import Mathlib.Order.Bounds.Basic

/-!
# Nested loops that return at the first match

`scan n w skip p` runs `i` up from `0` below `n`, passes over the rows `skip` marks, runs
`j` up from `0` below `w` in the others, and returns the first pair that `p` accepts.
When no skipped row holds a match, the pair is the least match in row-major order :
`scan_eq_some_iff` reads the position `i * w + j` off as the least of `positions`.

`scanLog` is what such loops leave behind when every row and every position they look at
logs something. They look at the rows and positions up to the first match
(`mem_scanLog`).
-/

namespace FirstMatch

variable {n w : ℕ} {skip : ℕ → Bool} {p : ℕ → ℕ → Bool}

/-- A search along the numbers stops at the first that answers. -/
theorem findSome?_range_eq_some_iff {α : Type*} {g : ℕ → Option α} {n : ℕ} {b : α} :
    (List.range n).findSome? g = some b ↔ ∃ i < n, g i = some b ∧ ∀ k < i, g k = none := by
  induction n with
  | zero => simp
  | succ n ih =>
    rw [List.range_succ, List.findSome?_append, Option.or_eq_some_iff, ih]
    simp only [List.findSome?_eq_none_iff, List.mem_range, List.findSome?_singleton]
    constructor
    · rintro (⟨i, hi, hg, hk⟩ | ⟨hnone, hg⟩)
      · exact ⟨i, by omega, hg, hk⟩
      · exact ⟨n, by omega, hg, hnone⟩
    · rintro ⟨i, hi, hg, hk⟩
      rcases Nat.lt_or_ge i n with hlt | hge
      · exact Or.inl ⟨i, hlt, hg, hk⟩
      · obtain rfl : i = n := by omega
        exact Or.inr ⟨hk, hg⟩

/-- Rows `i < n` in order, columns `j < w` in order, return the first match. -/
def scan (n w : ℕ) (skip : ℕ → Bool) (p : ℕ → ℕ → Bool) : Option (ℕ × ℕ) :=
  (List.range n).findSome? fun i =>
    if skip i then none
    else (List.range w).findSome? fun j => if p i j then some (i, j) else none

/-- The matching positions, counted row by row. -/
def positions (n w : ℕ) (p : ℕ → ℕ → Bool) : Set ℕ :=
  {f | f < n * w ∧ p (f / w) (f % w) = true}

theorem add_mem_positions {i j : ℕ} (hj : j < w) :
    i * w + j ∈ positions n w p ↔ i < n ∧ p i j = true := by
  have hw : 0 < w := Nat.zero_lt_of_lt hj
  have hdiv : (i * w + j) / w = i := by
    rw [Nat.mul_comm, Nat.mul_add_div hw, Nat.div_eq_of_lt hj, Nat.add_zero]
  have hmod : (i * w + j) % w = j := by
    rw [Nat.mul_comm, Nat.mul_add_mod, Nat.mod_eq_of_lt hj]
  have hlt : i * w + j < n * w ↔ i < n := by
    rw [← Nat.div_lt_iff_lt_mul hw, hdiv]
  simp only [positions, Set.mem_ofPred_eq, hdiv, hmod, hlt]

/-- Every number is a row and a column. -/
theorem exists_row_column (hw : 0 < w) (f : ℕ) : ∃ i j, j < w ∧ f = i * w + j :=
  ⟨f / w, f % w, Nat.mod_lt _ hw, (Nat.div_add_mod' f w).symm⟩

/-- A row that starts before a position is not behind it. -/
theorem row_le_row {r i c : ℕ} (hc : c < w) (h : i * w ≤ r * w + c) : i ≤ r := by
  have hlt : i * w < (r + 1) * w := by
    rw [Nat.succ_mul]
    omega
  exact Nat.le_of_lt_succ (Nat.lt_of_mul_lt_mul_right hlt)

/-- The search of a row finds its first column. -/
theorem row_eq_some_iff {i : ℕ} {b : ℕ × ℕ} :
    ((List.range w).findSome? fun j => if p i j then some (i, j) else none) = some b ↔
      b.1 = i ∧ b.2 < w ∧ p i b.2 = true ∧ ∀ k < b.2, p i k = false := by
  rw [findSome?_range_eq_some_iff]
  constructor
  · rintro ⟨j, hj, hg, hk⟩
    split_ifs at hg with hp
    obtain rfl := Option.some.inj hg
    exact ⟨rfl, hj, hp, fun k hkj => by simpa using hk k hkj⟩
  · rintro ⟨rfl, hj, hp, hk⟩
    exact ⟨b.2, hj, by simp [hp], fun k hkj => by simp [hk k hkj]⟩

theorem row_eq_none_iff {i : ℕ} :
    ((List.range w).findSome? fun j => if p i j then some (i, j) else none) = none ↔
      ∀ j < w, p i j = false := by
  simp [List.findSome?_eq_none_iff]

/-- The scan returns the least matching position. -/
theorem scan_eq_some_iff (hskip : ∀ i < n, skip i = true → ∀ j < w, p i j = false) {i j : ℕ} :
    scan n w skip p = some (i, j) ↔ j < w ∧ IsLeast (positions n w p) (i * w + j) := by
  have hrow : ∀ r < n, (if skip r then none
      else (List.range w).findSome? fun c => if p r c then some (r, c) else none) =
        (List.range w).findSome? fun c => if p r c then some (r, c) else none := by
    intro r hr
    split_ifs with h
    · exact (row_eq_none_iff.2 (hskip r hr h)).symm
    · rfl
  unfold scan
  rw [findSome?_range_eq_some_iff]
  constructor
  · rintro ⟨r, hr, hg, hk⟩
    rw [hrow r hr, row_eq_some_iff] at hg
    obtain ⟨rfl, hj, hp, hcol⟩ := hg
    refine ⟨hj, (add_mem_positions hj).2 ⟨hr, hp⟩, fun f hf => ?_⟩
    obtain ⟨r, c, hc, rfl⟩ := exists_row_column (Nat.zero_lt_of_lt hj) f
    obtain ⟨hrn, hpc⟩ := (add_mem_positions hc).1 hf
    by_contra hlt
    rw [not_le] at hlt
    rcases Nat.lt_trichotomy r i with hri | rfl | hri
    · have hnone := hk r hri
      rw [hrow r hrn, row_eq_none_iff] at hnone
      simp [hnone c hc] at hpc
    · simp [hcol c (by omega)] at hpc
    · exact absurd (row_le_row hj (by omega)) (not_le.2 hri)
  · rintro ⟨hj, hmem, hleast⟩
    obtain ⟨hi, hp⟩ := (add_mem_positions hj).1 hmem
    refine ⟨i, hi, ?_, fun k hk => ?_⟩
    · rw [hrow i hi, row_eq_some_iff]
      refine ⟨rfl, hj, hp, fun c hc => ?_⟩
      by_contra hpc
      have := hleast ((add_mem_positions (by omega : c < w)).2 ⟨hi, by simpa using hpc⟩)
      omega
    · rw [hrow k (by omega), row_eq_none_iff]
      intro c hc
      by_contra hpc
      have hle : i * w + j ≤ k * w + c :=
        hleast ((add_mem_positions hc).2 ⟨by omega, by simpa using hpc⟩)
      exact absurd (row_le_row hc (by omega)) (not_le.2 hk)

/-- The scan finds nothing when nothing matches. -/
theorem scan_eq_none_iff (hskip : ∀ i < n, skip i = true → ∀ j < w, p i j = false) :
    scan n w skip p = none ↔ positions n w p = ∅ := by
  constructor
  · intro h
    refine Set.eq_empty_of_forall_notMem fun f hf => ?_
    have hw : 0 < w := by
      rcases Nat.eq_zero_or_pos w with rfl | hw
      · simp [positions] at hf
      · exact hw
    obtain ⟨i, j, hj, rfl⟩ := exists_row_column hw f
    obtain ⟨hi, hp⟩ := (add_mem_positions hj).1 hf
    simp only [scan, List.findSome?_eq_none_iff, List.mem_range] at h
    have hrow := h i hi
    split_ifs at hrow with hs
    · simp [hskip i hi hs j hj] at hp
    · rw [List.findSome?_eq_none_iff] at hrow
      simpa [hp] using hrow j (by simpa using hj)
  · intro h
    cases hs : scan n w skip p with
    | none => rfl
    | some b =>
      have := ((scan_eq_some_iff hskip).1 hs).2.1
      simp [h] at this

/-! ## What the loops look at -/

/-- The elements looked at for the first that `g` maps to `some`. -/
def visited {α β : Type*} (g : α → Option β) : List α → List α
  | [] => []
  | a :: l => a :: if (g a).isSome then [] else visited g l

/-- The search looks at the numbers up to the first that answers. -/
theorem mem_visited_range' {β : Type*} {g : ℕ → Option β} {n : ℕ} :
    ∀ {a i : ℕ}, i ∈ visited g (List.range' a n) ↔
      (a ≤ i ∧ i < a + n) ∧ ∀ k, a ≤ k → k < i → g k = none := by
  induction n with
  | zero =>
    intro a i
    simp only [List.range'_zero, visited, List.not_mem_nil, false_iff]
    omega
  | succ n ih =>
    intro a i
    rw [List.range'_succ, visited, List.mem_cons]
    constructor
    · rintro (rfl | hi)
      · exact ⟨by omega, fun k hk hki => by omega⟩
      · split_ifs at hi with hg
        · exact absurd hi List.not_mem_nil
        · obtain ⟨hrange, hk⟩ := ih.1 hi
          refine ⟨by omega, fun k hak hki => ?_⟩
          rcases Nat.eq_or_lt_of_le hak with rfl | hlt
          · simpa using hg
          · exact hk k hlt hki
    · rintro ⟨hrange, hk⟩
      rcases Nat.eq_or_lt_of_le hrange.1 with rfl | hlt
      · exact Or.inl rfl
      · have hg : ¬(g a).isSome = true := by simp [hk a le_rfl hlt]
        rw [if_neg hg]
        exact Or.inr (ih.2 ⟨by omega, fun k hak hki => hk k (by omega) hki⟩)

theorem mem_visited_range {β : Type*} {g : ℕ → Option β} {n i : ℕ} :
    i ∈ visited g (List.range n) ↔ i < n ∧ ∀ k < i, g k = none := by
  rw [List.range_eq_range', mem_visited_range']
  simp

section Log

variable {γ : Type*} {row : ℕ → List γ} {cell : ℕ → ℕ → List γ}

/-- The log of a scan : `row i` for every row it looks at, followed by `cell i j` for every
position of the row it looks at. -/
def scanLog (n w : ℕ) (skip : ℕ → Bool) (p : ℕ → ℕ → Bool) (row : ℕ → List γ)
    (cell : ℕ → ℕ → List γ) : List γ :=
  (visited (fun i => if skip i then none
    else (List.range w).findSome? fun j => if p i j then some (i, j) else none)
    (List.range n)).flatMap fun i => row i ++ if skip i then []
      else (visited (fun j => if p i j then some (i, j) else none) (List.range w)).flatMap (cell i)

/-- The rows before `i` hold no match just when every match is in row `i` or behind. -/
theorem rows_eq_none_iff (hskip : ∀ i < n, skip i = true → ∀ j < w, p i j = false) {i : ℕ}
    (hi : i < n) :
    (∀ k < i, (if skip k then none
      else (List.range w).findSome? fun j => if p k j then some (k, j) else none) = none) ↔
      ∀ m ∈ positions n w p, i * w ≤ m := by
  constructor
  · intro h m hm
    have hw : 0 < w := by
      rcases Nat.eq_zero_or_pos w with rfl | hw
      · simp [positions] at hm
      · exact hw
    obtain ⟨r, c, hc, rfl⟩ := exists_row_column hw m
    obtain ⟨hr, hp⟩ := (add_mem_positions hc).1 hm
    by_contra hlt
    have hri : r < i := by
      by_contra hir
      have := Nat.mul_le_mul_right w (not_lt.1 hir)
      omega
    have hnone := h r hri
    split_ifs at hnone with hs
    · simp [hskip r hr hs c hc] at hp
    · simp [row_eq_none_iff.1 hnone c hc] at hp
  · intro h k hk
    split_ifs
    · rfl
    · refine row_eq_none_iff.2 fun c hc => ?_
      by_contra hp
      have hle := h _ ((add_mem_positions (i := k) hc).2 ⟨hk.trans hi, by simpa using hp⟩)
      exact absurd (row_le_row hc hle) (not_le.2 hk)

/-- In a row with no match before it, the positions before `j` are no match just when every
match is at `j` or behind. -/
theorem cells_eq_none_iff {i j : ℕ} (hi : i < n) (hj : j < w)
    (hrow : ∀ m ∈ positions n w p, i * w ≤ m) :
    (∀ k < j, (if p i k then some (i, k) else none) = none) ↔
      ∀ m ∈ positions n w p, i * w + j ≤ m := by
  constructor
  · intro h m hm
    obtain ⟨r, c, hc, rfl⟩ := exists_row_column (Nat.zero_lt_of_lt hj) m
    obtain ⟨-, hp⟩ := (add_mem_positions hc).1 hm
    by_contra hlt
    obtain rfl : r = i :=
      Nat.le_antisymm (row_le_row hj (by omega)) (row_le_row hc (hrow _ hm))
    have hnone := h c (by omega)
    rw [if_pos hp] at hnone
    exact absurd hnone (Option.some_ne_none _)
  · intro h k hk
    by_contra hp
    have hmem : p i k = true := by
      by_contra hpk
      exact hp (if_neg hpk)
    have := h _ ((add_mem_positions (hk.trans hj)).2 ⟨hi, hmem⟩)
    omega

/-- A scan looks at the rows that no match is in front of, and in those it does not skip at
the positions that no match is in front of. -/
theorem mem_scanLog (hskip : ∀ i < n, skip i = true → ∀ j < w, p i j = false) {x : γ} :
    x ∈ scanLog n w skip p row cell ↔
      (∃ i < n, (∀ m ∈ positions n w p, i * w ≤ m) ∧ x ∈ row i) ∨
        ∃ i < n, ∃ j < w, skip i = false ∧ (∀ m ∈ positions n w p, i * w + j ≤ m) ∧
          x ∈ cell i j := by
  rw [scanLog, List.mem_flatMap]
  constructor
  · rintro ⟨i, hvisited, hx⟩
    obtain ⟨hi, hnone⟩ := mem_visited_range.1 hvisited
    have hrow := (rows_eq_none_iff hskip hi).1 hnone
    rcases List.mem_append.1 hx with hx | hx
    · exact Or.inl ⟨i, hi, hrow, hx⟩
    · split_ifs at hx with hs
      · exact absurd hx List.not_mem_nil
      · obtain ⟨j, hj, hx⟩ := List.mem_flatMap.1 hx
        obtain ⟨hjw, hcol⟩ := mem_visited_range.1 hj
        exact Or.inr ⟨i, hi, j, hjw, by simpa using hs, (cells_eq_none_iff hi hjw hrow).1 hcol, hx⟩
  · rintro (⟨i, hi, hrow, hx⟩ | ⟨i, hi, j, hj, hs, hcol, hx⟩)
    · refine ⟨i, mem_visited_range.2 ⟨hi, (rows_eq_none_iff hskip hi).2 hrow⟩, ?_⟩
      exact List.mem_append_left _ hx
    · have hrow : ∀ m ∈ positions n w p, i * w ≤ m := fun m hm => by
        have := hcol m hm
        omega
      refine ⟨i, mem_visited_range.2 ⟨hi, (rows_eq_none_iff hskip hi).2 hrow⟩, ?_⟩
      refine List.mem_append_right _ ?_
      rw [if_neg (by simp [hs])]
      have hvisited := mem_visited_range.2 ⟨hj, (cells_eq_none_iff hi hj hrow).2 hcol⟩
      exact List.mem_flatMap.2 ⟨j, hvisited, hx⟩

end Log

end FirstMatch
