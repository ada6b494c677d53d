import Scorch.Lib.MemoryFrame

/-!
# Records of words

A record of `n` words in a byte memory, one word behind the other. `field` reads a word of it
and `setField` writes one. A record need not be aligned, but two records have no byte in common
or are the same (`RecordsApart`), so a write to a word of one is seen there and in no other
word of any (`field_setField`).
-/

namespace ByteMemory

namespace Mem

/-- Word `i` of the record at `a`. -/
def field (m : Mem) (a : Word) (i : ℕ) : Word :=
  m.load32 (a + BitVec.ofNat 32 (4 * i))

/-- Write word `i` of the record at `a`. -/
def setField (m : Mem) (a : Word) (i : ℕ) (v : Word) : Mem :=
  m.store32 (a + BitVec.ofNat 32 (4 * i)) v

/-- The records of `n` words at `a` and `b` have no byte in common. -/
def RecordsApart (n : ℕ) (a b : Word) : Prop :=
  a.toNat + 4 * n ≤ b.toNat ∨ b.toNat + 4 * n ≤ a.toNat

/-- The record does not run past the end of memory. -/
def RecordFits (n : ℕ) (a : Word) : Prop :=
  a.toNat + 4 * n ≤ 2 ^ 32

variable {n i j : ℕ} {a b : Word}

/-- The address of a field does not wrap. -/
theorem toNat_field (ha : RecordFits n a) (hi : i < n) :
    (a + BitVec.ofNat 32 (4 * i)).toNat = a.toNat + 4 * i := by
  unfold RecordFits at ha
  rw [BitVec.toNat_add, BitVec.toNat_ofNat]
  omega

/-- Words of two records, or two words of one, are apart. -/
theorem apart_field (ha : RecordFits n a) (hb : RecordFits n b) (hi : i < n) (hj : j < n)
    (h : RecordsApart n a b ∨ a = b ∧ i ≠ j) :
    Apart (a + BitVec.ofNat 32 (4 * i)) (b + BitVec.ofNat 32 (4 * j)) := by
  have hai := toNat_field ha hi
  have hbj := toNat_field hb hj
  unfold RecordFits at ha hb
  rcases h with h | ⟨rfl, hij⟩
  · unfold RecordsApart at h
    constructor <;> bv_omega
  · constructor <;> bv_omega

/-- What a write to a word leaves in every word of the records apart from it. -/
theorem field_setField (m : Mem) (v : Word) (ha : RecordFits n a) (hb : RecordFits n b)
    (hi : i < n) (hj : j < n) (hab : b = a ∨ RecordsApart n a b) :
    (m.setField a i v).field b j = if b = a ∧ j = i then v else m.field b j := by
  unfold field setField
  split_ifs with h
  · obtain ⟨rfl, rfl⟩ := h
    exact load32_store32_self _ _ _
  · refine load32_store32_of_apart (apart_field ha hb hi hj ?_)
    rcases hab with rfl | hab
    · exact Or.inr ⟨rfl, fun hij => h ⟨rfl, hij.symm⟩⟩
    · exact Or.inl hab

/-- A write to a word stays in the record. -/
theorem frame_setField (m : Mem) (v : Word) (ha : RecordFits n a) (hi : i < n) :
    Frame (block a (4 * n)) m (m.setField a i v) := by
  refine (frame_store32 m _ v).mono (block_subset ?_ ?_ ha)
  · rw [toNat_field ha hi]
    omega
  · rw [toNat_field ha hi]
    omega

/-- A word of a record is read from its bytes. -/
theorem field_congr {m m' : Mem} (ha : RecordFits n a) (hi : i < n)
    (h : ∀ x ∈ block a (4 * n), m' x = m x) : m'.field a i = m.field a i := by
  refine load32_eq_of_bytes fun x hx => h x ?_
  refine block_subset ?_ ?_ ha hx
  · rw [toNat_field ha hi]
    omega
  · rw [toNat_field ha hi]
    omega

end Mem

end ByteMemory
