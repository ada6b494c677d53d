import Mathlib.Data.List.Basic

/-!
# Records in a ring

A ring of `ring` bytes is filled with records one behind the other. A record starts inside
the ring and may run past its end, and the next one starts at its end modulo `ring`. `Laid`
says that records lie so from one place to another.

While less than `ring` bytes are taken, a new record does not touch the first bytes of the
others (`Laid.apart`). A reader that goes on behind each record, and looks for the end only
between two records, comes to the end of the ring (`Laid.exists_lap`) or to the end of the
last record (`Laid.straight`).
-/

namespace RecordRing

variable {ρ : Type*}

section Definitions

variable (size place : ρ → ℕ)

/-- The bytes that the records take. -/
def total : List ρ → ℕ
  | [] => 0
  | r :: rs => size r + total rs

/-- The records lie behind each other in a ring from `o` on, and the next one would be at
`e`. -/
def Laid (ring : ℕ) : ℕ → List ρ → ℕ → Prop
  | o, [], e => o = e
  | o, r :: rs, e => place r = o ∧ Laid ring ((o + size r) % ring) rs e

/-- A reader that starts at `o` and goes on while it is below `limit` reads these records. -/
def Straight (limit : ℕ) : ℕ → List ρ → Prop
  | o, [] => limit ≤ o
  | o, r :: rs => place r = o ∧ o < limit ∧ Straight limit (o + size r) rs

end Definitions

variable {size place : ρ → ℕ} {ring o e : ℕ}

@[simp] theorem total_nil : total size [] = 0 :=
  rfl

@[simp] theorem total_cons (r : ρ) (rs : List ρ) :
    total size (r :: rs) = size r + total size rs :=
  rfl

theorem total_append (rs ss : List ρ) :
    total size (rs ++ ss) = total size rs + total size ss := by
  induction rs with
  | nil => simp
  | cons r rs ih => simp [ih, Nat.add_assoc]

/-- In a ring a sum of two places wraps once at most. -/
theorem mod_cases {n ring : ℕ} (h : n < 2 * ring) :
    n % ring = n ∧ n < ring ∨ n % ring = n - ring ∧ ring ≤ n := by
  rcases Nat.lt_or_ge n ring with hlt | hge
  · exact Or.inl ⟨Nat.mod_eq_of_lt hlt, hlt⟩
  · refine Or.inr ⟨?_, hge⟩
    rw [Nat.mod_eq_sub_mod hge, Nat.mod_eq_of_lt (by omega)]

namespace Laid

/-- Records behind others start where these end. -/
theorem append_iff {rs ss : List ρ} :
    Laid size place ring o (rs ++ ss) e ↔
      ∃ m, Laid size place ring o rs m ∧ Laid size place ring m ss e := by
  induction rs generalizing o with
  | nil => simp [Laid]
  | cons r rs ih => simp [Laid, ih, and_assoc]

/-- Where the next record would be. -/
theorem end_eq {rs : List ρ} (h : Laid size place ring o rs e) (ho : o < ring) :
    e = (o + total size rs) % ring := by
  induction rs generalizing o with
  | nil =>
    obtain rfl : o = e := h
    rw [total_nil, Nat.add_zero, Nat.mod_eq_of_lt ho]
  | cons r rs ih =>
    rw [ih h.2 (Nat.mod_lt _ (by omega)), Nat.mod_add_mod, total_cons, Nat.add_assoc]

/-- The end of the records is within the ring. -/
theorem end_lt {rs : List ρ} (h : Laid size place ring o rs e) (ho : o < ring) : e < ring := by
  rw [h.end_eq ho]
  exact Nat.mod_lt _ (by omega)

/-- A record is behind some of the others. -/
theorem exists_place_eq {rs : List ρ} (h : Laid size place ring o rs e) (ho : o < ring) {r : ρ}
    (hr : r ∈ rs) : ∃ as, place r = (o + total size as) % ring := by
  obtain ⟨as, bs, rfl⟩ := List.append_of_mem hr
  obtain ⟨m, has, hrest⟩ := append_iff.1 h
  exact ⟨as, hrest.1.trans (has.end_eq ho)⟩

/-- A new record of up to `k` bytes leaves the first `w` bytes of the others alone. -/
theorem apart {rs : List ρ} (h : Laid size place ring o rs e) (ho : o < ring) {k w : ℕ}
    (hk : total size rs + k ≤ ring) {r : ρ} (hr : r ∈ rs) (hw : w ≤ size r)
    (hfit : place r + w ≤ ring) : place r + w ≤ e ∨ e + k ≤ place r := by
  obtain ⟨as, bs, rfl⟩ := List.append_of_mem hr
  obtain ⟨m, has, hrest⟩ := append_iff.1 h
  have hend := h.end_eq ho
  have hplace := has.end_eq ho
  rw [total_append, total_cons] at hk hend
  rw [hrest.1] at hfit ⊢
  have hlt : o + total size as < 2 * ring := by omega
  have hlt' : o + (total size as + (size r + total size bs)) < 2 * ring := by omega
  rcases mod_cases hlt with hm | hm <;> rcases mod_cases hlt' with he | he <;> omega

/-- A reader that is not kept from it comes to the end of the last record. -/
theorem straight {rs : List ρ} (h : Laid size place ring o rs e) (hsize : ∀ r ∈ rs, 0 < size r)
    (hfit : o + total size rs < ring) : Straight size place e o rs ∧ e = o + total size rs := by
  have hend := h.end_eq (by omega)
  rw [Nat.mod_eq_of_lt hfit] at hend
  refine ⟨?_, hend⟩
  induction rs generalizing o with
  | nil => exact Nat.le_of_eq hend
  | cons r rs ih =>
    have hr := hsize r List.mem_cons_self
    rw [total_cons] at hfit hend
    have hnext := h.2
    rw [Nat.mod_eq_of_lt (by omega)] at hnext
    refine ⟨h.1, by omega, ?_⟩
    exact ih hnext (fun s hs => hsize s (List.mem_cons_of_mem r hs)) (by omega) (by omega)

/-- A reader of more records than fit in the rest of the ring comes to the end of the ring,
or past it, between two of them. -/
theorem exists_lap {rs : List ρ} (h : Laid size place ring o rs e) (ho : o < ring)
    (hlap : ring ≤ o + total size rs) (hlt : total size rs < ring) :
    ∃ as bs m, rs = as ++ bs ∧ Straight size place ring o as ∧ o + total size as = ring + m ∧
      Laid size place ring m bs e := by
  induction rs generalizing o with
  | nil =>
    rw [total_nil] at hlap
    omega
  | cons r rs ih =>
    rw [total_cons] at hlap hlt
    obtain ⟨hr, hrest⟩ := h
    have hnext : o + size r < 2 * ring := by omega
    rcases mod_cases hnext with ⟨hmod, hin⟩ | ⟨hmod, hout⟩
    · rw [hmod] at hrest
      obtain ⟨as, bs, m, rfl, hstraight, hm, hbs⟩ := ih hrest hin (by omega) (by omega)
      refine ⟨r :: as, bs, m, rfl, ⟨hr, ho, hstraight⟩, ?_, hbs⟩
      rw [total_cons, ← hm, Nat.add_assoc]
    · rw [hmod] at hrest
      refine ⟨[r], rs, o + size r - ring, rfl, ⟨hr, ho, hout⟩, ?_, hrest⟩
      rw [total_cons, total_nil]
      omega

end Laid

end RecordRing
