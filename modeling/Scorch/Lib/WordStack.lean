import Scorch.Lib.WordRecords

/-!
# A stack of words

A stack that grows downwards in a byte memory. `m.Holds a ws` says that the words `ws` stand
from `a` upwards, so that the first of them is on top. A word pushed goes below them
(`Holds.push`), the word on top is read from `a` (`Holds.head`), and the words stay as long as
their bytes do (`Holds.congr`). Addresses wrap, so a stack may lie across the end of memory.
-/

namespace ByteMemory

namespace Mem

/-- The words `ws` stand from `a` upwards. -/
def Holds (m : Mem) (a : Word) : List Word → Prop
  | [] => True
  | w :: ws => m.load32 a = w ∧ m.Holds (a + 4) ws

variable {m m' : Mem} {a sp w : Word} {ws : List Word} {k n : ℕ}

@[simp] theorem holds_nil (m : Mem) (a : Word) : m.Holds a [] :=
  trivial

@[simp] theorem holds_cons : m.Holds a (w :: ws) ↔ m.load32 a = w ∧ m.Holds (a + 4) ws :=
  Iff.rfl

namespace Holds

theorem head (h : m.Holds a (w :: ws)) : m.load32 a = w :=
  h.1

theorem tail (h : m.Holds a (w :: ws)) : m.Holds (a + 4) ws :=
  h.2

/-- The words as a record. -/
theorem field (h : m.Holds a ws) {i : ℕ} (hi : i < ws.length) : m.field a i = ws[i] := by
  induction ws generalizing a i with
  | nil => simp at hi
  | cons w ws ih =>
    cases i with
    | zero =>
      have ha : a + BitVec.ofNat 32 (4 * 0) = a := by
        bv_omega
      rw [Mem.field, ha, h.head]
      rfl
    | succ i =>
      have ha : a + BitVec.ofNat 32 (4 * (i + 1)) = a + 4 + BitVec.ofNat 32 (4 * i) := by
        bv_omega
      rw [Mem.field, ha]
      exact ih h.tail (by simpa using hi)

/-- The words are read from their bytes. -/
theorem congr (hlen : 4 * ws.length ≤ 2 ^ 32) (h : m.Holds a ws)
    (hm : ∀ x ∈ block a (4 * ws.length), m' x = m x) : m'.Holds a ws := by
  induction ws generalizing a with
  | nil => trivial
  | cons w ws ih =>
    rw [List.length_cons] at hlen hm
    refine ⟨(load32_eq_of_bytes fun x hx => hm x ?_).trans h.head, ?_⟩
    · rw [mem_block] at hx ⊢
      omega
    · refine ih (by omega) h.tail fun x hx => hm x ?_
      rw [mem_block] at hx ⊢
      bv_omega

/-- A word pushed stands below the others. -/
theorem push (hlen : 4 * (ws.length + 1) ≤ 2 ^ 32) (h : m.Holds a ws) (w : Word) :
    (m.store32 (a - 4) w).Holds (a - 4) (w :: ws) := by
  refine ⟨load32_store32_self _ _ _, ?_⟩
  rw [BitVec.sub_add_cancel]
  refine h.congr (by omega) fun x hx => store32_of_notMem fun hx' => ?_
  rw [mem_block] at hx hx'
  bv_omega

end Holds

/-! ## The bytes below a place -/

/-- The `n` bytes below `a`. -/
def below (a : Word) (n : ℕ) : Set Word :=
  block (a - BitVec.ofNat 32 n) n

/-- The bytes between two tops of a stack, and what is below the lower one. -/
theorem block_subset_below {d l : ℕ} (hd : d ≤ n) (_ : n ≤ 2 ^ 32) (hl : l ≤ d) :
    block (a - BitVec.ofNat 32 d) l ⊆ below a n := by
  intro x hx
  unfold below
  rw [mem_block] at hx ⊢
  bv_omega

/-- What is below a lower place. -/
theorem below_subset {d l : ℕ} (h : d + l ≤ n) (_ : n ≤ 2 ^ 32) :
    below (a - BitVec.ofNat 32 d) l ⊆ below a n := by
  intro x hx
  unfold below at hx ⊢
  rw [mem_block] at hx ⊢
  bv_omega

/-- Bytes above the top of a stack are not below it. -/
theorem notMem_below (h : k + n ≤ 2 ^ 32) {x : Word} (hx : x ∈ block a k) : x ∉ below a n := by
  unfold below
  rw [mem_block] at hx ⊢
  bv_omega

end Mem

end ByteMemory
