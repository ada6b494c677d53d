import Mathlib.Data.List.GetD
import Scorch.Strings

/-!
# Reading a line

`gets` of `kb.c` reads key codes up to a newline. A backspace takes the index back twice, once
by hand before and once after the write, and the header of the loop moves it forward once. On
an empty line this writes in front of the buffer. `gets_storesLine_iff` says for which codes
the line is stored : those with no more backspaces than other characters before any of them.

The invariant of the loop is that the buffer holds the line typed so far (`LineBuffer.Holds`). A
backspace keeps it when the line is not empty, and writes in front of the buffer when it is.
-/

open ByteMemory

namespace Scorch

/-! ## The function -/

/-- The bytes around `s`, by their distance from it, with the places that have been written. -/
structure LineBuffer where
  mem : ℤ → Byte
  writes : List ℤ

/-- `s[i] = c` -/
def LineBuffer.store (b : LineBuffer) (i : ℤ) (c : Byte) : LineBuffer :=
  ⟨Function.update b.mem i c, b.writes ++ [i]⟩

/-- The loop of `gets`, with the codes that `getchar` returns from `k` on. The result is the
distance from `s` of what is returned, or null, with the buffer. There is none when the codes
are used up. -/
def getsFrom : List Byte → ℤ → LineBuffer → Option (Option ℤ × LineBuffer)
  | [], _, _ => none
  | k :: keys, i, b =>
    if k = 0 then some (none, b)
    else if k = 0x0a then some (some 0, b.store i 0)
    else if k = 0x08 then getsFrom keys (i - 1 - 1 + 1) (b.store (i - 1) 0)
    else getsFrom keys (i + 1) (b.store i k)

/-- `gets (s)` -/
def gets (keys : List Byte) (s : ℤ → Byte) : Option (Option ℤ × LineBuffer) :=
  getsFrom keys 0 ⟨s, []⟩

/-! ## Line editing -/

/-- The line that the codes up to a newline make of a line. -/
def editLine : List Byte → List Byte → List Byte
  | line, [] => line
  | line, k :: keys =>
    if k = 0x0a then line
    else if k = 0x08 then editLine line.dropLast keys
    else editLine (line ++ [k]) keys

/-- The call has returned `s`, which holds the line with a terminator behind it, and has
written nothing in front of it. -/
def StoresLine (run : Option (Option ℤ × LineBuffer)) (line : List Byte) : Prop :=
  ∃ b, run = some (some 0, b) ∧ (∀ i ≤ line.length, b.mem (i : ℤ) = line.getD i 0) ∧
    ∀ i ∈ b.writes, 0 ≤ i

/-- No backspace before the newline comes to an empty line, if the line has had `n` characters
before the codes. -/
def HasText (n : ℕ) (keys : List Byte) : Prop :=
  ∀ pre, pre <+: keys.takeWhile (· ≠ 0x0a) → 2 * pre.count 0x08 ≤ n + pre.length

section Edits

variable {n : ℕ} {keys : List Byte} {k : Byte}

/-- With no keys there is nothing to delete. -/
theorem hasText_nil (n : ℕ) : HasText n [] := fun pre hpre => by
  rw [List.prefix_nil.1 hpre]
  exact Nat.zero_le _

theorem hasText_newline (n : ℕ) (keys : List Byte) : HasText n (0x0a :: keys) := fun pre hpre => by
  rw [List.prefix_nil.1 hpre]
  exact Nat.zero_le _

/-- A key before the end of the line is part of it. -/
theorem takeWhile_cons_of_ne (hk : k ≠ 0x0a) :
    (k :: keys).takeWhile (· ≠ 0x0a) = k :: keys.takeWhile (· ≠ 0x0a) :=
  List.takeWhile_cons_of_pos (decide_eq_true hk)

/-- A code changes the number of characters that the others can erase. -/
theorem hasText_cons_iff (hk : k ≠ 0x0a) :
    HasText n (k :: keys) ↔
      ∀ pre, pre <+: keys.takeWhile (· ≠ 0x0a) →
        2 * (pre.count 0x08 + if k = 0x08 then 1 else 0) ≤ n + (pre.length + 1) := by
  rw [HasText, takeWhile_cons_of_ne hk]
  constructor
  · intro h pre hpre
    have hcons := h (k :: pre) ((List.prefix_cons_inj k).2 hpre)
    simpa only [List.count_cons, List.length_cons, beq_iff_eq] using hcons
  · intro h pre hpre
    cases pre with
    | nil => exact Nat.zero_le _
    | cons c pre =>
      obtain ⟨rfl, hrest⟩ := List.cons_prefix_cons.1 hpre
      simpa only [List.count_cons, List.length_cons, beq_iff_eq] using h pre hrest

/-- A backspace needs a character and takes one away. -/
theorem hasText_backspace_iff : HasText n (0x08 :: keys) ↔ 1 ≤ n ∧ HasText (n - 1) keys := by
  rw [hasText_cons_iff (by decide), if_pos rfl]
  constructor
  · intro h
    have hnil := h [] List.nil_prefix
    rw [List.count_nil, List.length_nil] at hnil
    refine ⟨by omega, fun pre hpre => ?_⟩
    have hcons := h pre hpre
    omega
  · rintro ⟨hn, h⟩ pre hpre
    have hrest := h pre hpre
    omega

/-- A character is one more that can be deleted. -/
theorem hasText_char_iff (hnewline : k ≠ 0x0a) (hback : k ≠ 0x08) :
    HasText n (k :: keys) ↔ HasText (n + 1) keys := by
  rw [hasText_cons_iff hnewline, if_neg hback]
  refine forall₂_congr fun pre _ => ?_
  omega

end Edits

/-! ## The loop -/

section Loop

variable {b : LineBuffer} {line : List Byte}

/-- The buffer holds the line and has not been written in front of it. -/
structure LineBuffer.Holds (b : LineBuffer) (line : List Byte) : Prop where
  mem : ∀ i < line.length, b.mem (i : ℤ) = line.getD i 0
  writes : ∀ i ∈ b.writes, 0 ≤ i

theorem LineBuffer.mem_store_of_ne {i j : ℤ} (h : j ≠ i) (c : Byte) :
    (b.store i c).mem j = b.mem j :=
  (Function.update_apply b.mem i c j).trans (if_neg h)

theorem LineBuffer.Holds.writes_store {i : ℤ} (h : b.Holds line) (hi : 0 ≤ i) (c : Byte) :
    ∀ j ∈ (b.store i c).writes, 0 ≤ j := fun j hj => by
  rcases List.mem_append.1 hj with hj | hj
  · exact h.writes j hj
  · rwa [List.mem_singleton.1 hj]

/-- A character is put behind the line. -/
theorem LineBuffer.Holds.push (h : b.Holds line) (c : Byte) :
    (b.store line.length c).Holds (line ++ [c]) := by
  refine ⟨fun i hi => ?_, h.writes_store (Int.natCast_nonneg _) c⟩
  rw [List.length_append, List.length_singleton] at hi
  rcases Nat.eq_or_lt_of_le (Nat.le_of_lt_succ hi) with rfl | hlt
  · rw [List.getD_append_right _ _ _ _ le_rfl, Nat.sub_self]
    exact Function.update_self _ _ _
  · rw [List.getD_append _ _ _ _ hlt, mem_store_of_ne (by omega), h.mem i hlt]

/-- The last character is taken away. -/
theorem LineBuffer.Holds.pop (h : b.Holds line) (hpos : 1 ≤ line.length) :
    (b.store (line.length - 1) 0).Holds line.dropLast := by
  refine ⟨fun i hi => ?_, h.writes_store (by omega) 0⟩
  rw [List.length_dropLast] at hi
  rw [mem_store_of_ne (by omega), h.mem i (by omega), List.getD_eq_getElem _ _ (by omega),
    List.getD_eq_getElem _ _ (by rw [List.length_dropLast]; omega), List.getElem_dropLast]

/-- The newline puts a terminator behind the line. -/
theorem LineBuffer.Holds.storesLine (h : b.Holds line) :
    StoresLine (some (some 0, b.store line.length 0)) line := by
  refine ⟨_, rfl, fun i hi => ?_, h.writes_store (Int.natCast_nonneg _) 0⟩
  rcases Nat.eq_or_lt_of_le hi with rfl | hlt
  · rw [List.getD_eq_default _ _ le_rfl]
    exact Function.update_self _ _ _
  · rw [mem_store_of_ne (by omega), h.mem i hlt]

/-- What has been written before stays written. -/
theorem writes_getsFrom {keys : List Byte} {i : ℤ} {r : Option ℤ} {b' : LineBuffer}
    (h : getsFrom keys i b = some (r, b')) {j : ℤ} (hj : j ∈ b.writes) : j ∈ b'.writes := by
  have hstore : ∀ i c, j ∈ (b.store i c).writes := fun i c => List.mem_append_left _ hj
  induction keys generalizing i b with
  | nil => exact absurd h (Option.some_ne_none _).symm
  | cons k keys ih =>
    rw [getsFrom] at h
    split_ifs at h
    · obtain ⟨-, rfl⟩ := Prod.mk.inj (Option.some_inj.1 h)
      exact hj
    · obtain ⟨-, rfl⟩ := Prod.mk.inj (Option.some_inj.1 h)
      exact hstore _ _
    · exact ih h (hstore _ _) fun i c => List.mem_append_left _ (hstore _ _)
    · exact ih h (hstore _ _) fun i c => List.mem_append_left _ (hstore _ _)

/-- The loop edits the line as long as there is text for every backspace. -/
theorem getsFrom_storesLine_iff {keys : List Byte} (h0 : 0 ∉ keys) (h : b.Holds line) :
    StoresLine (getsFrom (keys ++ [0x0a]) line.length b) (editLine line keys) ↔
      HasText line.length keys := by
  induction keys generalizing b line with
  | nil => exact iff_of_true h.storesLine (hasText_nil _)
  | cons k keys ih =>
    have hk : k ≠ 0 := fun heq => h0 (heq ▸ List.mem_cons_self)
    have hrest : 0 ∉ keys := fun hmem => h0 (List.mem_cons_of_mem k hmem)
    rw [List.cons_append, getsFrom, if_neg hk, editLine]
    by_cases hnewline : k = 0x0a
    · rw [if_pos hnewline, if_pos hnewline, hnewline]
      exact iff_of_true h.storesLine (hasText_newline _ _)
    · rw [if_neg hnewline, if_neg hnewline]
      by_cases hback : k = 0x08
      · rw [if_pos hback, if_pos hback, hback, hasText_backspace_iff]
        rcases Nat.eq_zero_or_pos line.length with hlen | hpos
        · refine iff_of_false ?_ (by omega)
          rintro ⟨b', hrun, -, hwrites⟩
          have hfront : (line.length : ℤ) - 1 ∈ (b.store (line.length - 1) 0).writes :=
            List.mem_append_right _ (List.mem_singleton.2 rfl)
          have hle := hwrites _ (writes_getsFrom hrun hfront)
          omega
        · have hplace : (line.length : ℤ) - 1 - 1 + 1 = line.dropLast.length := by
            rw [List.length_dropLast]
            omega
          rw [hplace, ih hrest (h.pop hpos), List.length_dropLast]
          exact (and_iff_right hpos).symm
      · have hplace : (line.length : ℤ) + 1 = (line ++ [k]).length := by
          rw [List.length_append]
          rfl
        rw [if_neg hback, if_neg hback, hplace, ih hrest (h.push k), List.length_append,
          hasText_char_iff hnewline hback]
        rfl

end Loop

/-- For codes without a zero, up to a newline, the edited line is stored when there are never
more backspaces than other characters. -/
theorem gets_storesLine_iff {keys : List Byte} (h0 : 0 ∉ keys) (s : ℤ → Byte) :
    StoresLine (gets (keys ++ [0x0a]) s) (editLine [] keys) ↔
      ∀ pre, pre <+: keys.takeWhile (· ≠ 0x0a) → 2 * pre.count 0x08 ≤ pre.length := by
  have hempty : LineBuffer.Holds ⟨s, []⟩ [] :=
    ⟨fun i hi => absurd hi (Nat.not_lt_zero i), fun i hi => absurd hi List.not_mem_nil⟩
  have hloop := getsFrom_storesLine_iff h0 hempty
  refine hloop.trans (forall₂_congr fun pre _ => ?_)
  rw [List.length_nil, Nat.zero_add]

/-- The line `ab` with a backspace. -/
theorem gets_erased : StoresLine (gets ([0x61, 0x62, 0x08] ++ [0x0a]) fun _ => 0x78)
      (editLine [] [0x61, 0x62, 0x08]) ↔
    ∀ pre : List Byte, pre <+: [0x61, 0x62, 0x08].takeWhile (· ≠ 0x0a) →
      2 * pre.count 0x08 ≤ pre.length := by
  have h0 : (0 : Byte) ∉ [0x61, 0x62, 0x08] := by decide
  exact gets_storesLine_iff h0 _

/-- A backspace on an empty line writes in front of the buffer. -/
theorem not_storesLine_backspace :
    ¬StoresLine (gets [0x08, 0x61, 0x0a] fun _ => 0x78) (editLine [] [0x08, 0x61]) := by
  rintro ⟨b, hrun, hmem, -⟩
  have hb : (gets [0x08, 0x61, 0x0a] fun _ => 0x78).map (fun r => r.2.mem 0) = some 0 := by decide
  rw [hrun] at hb
  have hfirst := hmem 0 (Nat.zero_le _)
  exact absurd (hfirst.symm.trans (Option.some_inj.1 hb)) (by decide)

end Scorch
