import Scorch.Lib.ByteMemory

/-!
# What a write leaves alone

`Frame S m m'` says that the memories `m` and `m'` are the same outside `S`. Every kind of
write has its frame, the block it writes to. Frames are put together by `Frame.trans` along a
sequence of writes into `S`, and `Frame.load32` reads a word that lies outside `S`.

A frame is read backwards as well : what lies outside the set is as it was, byte by byte.
-/

namespace ByteMemory

namespace Mem

/-! ## Writes of other sizes -/

/-- Write the little-endian half word `w` at `a`. -/
def store16 (m : Mem) (a : Word) (w : BitVec 16) : Mem :=
  (m.store8 a (w.setWidth 8)).store8 (a + 1) ((w >>> 8).setWidth 8)

/-- Write a list of bytes, from `a` upwards. -/
def write (m : Mem) (a : Word) (bs : List Byte) : Mem :=
  fun x => if (x - a).toNat < bs.length then bs.getD (x - a).toNat 0 else m x

/-! ## Blocks by their ends -/

/-- A block that does not wrap lies between its ends. -/
theorem mem_block_iff {a x : Word} {n : ℕ} (h : a.toNat + n ≤ 2 ^ 32) :
    x ∈ block a n ↔ a.toNat ≤ x.toNat ∧ x.toNat < a.toNat + n := by
  rw [mem_block]
  bv_omega

/-- A block inside another one. -/
theorem block_subset {a b : Word} {n k : ℕ} (hle : b.toNat ≤ a.toNat)
    (hend : a.toNat + n ≤ b.toNat + k) (hwrap : b.toNat + k ≤ 2 ^ 32) : block a n ⊆ block b k := by
  intro x hx
  rw [mem_block_iff (by omega)] at hx ⊢
  omega

/-- Two blocks, one of which ends before the other begins. -/
theorem notMem_block_of_apart {a b x : Word} {n k : ℕ}
    (h : a.toNat + n ≤ b.toNat ∨ b.toNat + k ≤ a.toNat) (ha : a.toNat + n ≤ 2 ^ 32)
    (hb : b.toNat + k ≤ 2 ^ 32) (hx : x ∈ block a n) : x ∉ block b k := by
  rw [mem_block_iff ha] at hx
  rw [mem_block_iff hb]
  omega

/-! ## Frames -/

/-- `m'` is `m` outside `S`. -/
def Frame (S : Set Word) (m m' : Mem) : Prop :=
  ∀ x, x ∉ S → m' x = m x

namespace Frame

variable {S T : Set Word} {m m' m'' : Mem} {a c : Word}

theorem refl (S : Set Word) (m : Mem) : Frame S m m :=
  fun _ _ => rfl

/-- What two steps leave alone, both together do. -/
theorem trans (h : Frame S m m') (h' : Frame S m' m'') : Frame S m m'' :=
  fun x hx => (h' x hx).trans (h x hx)

theorem mono (h : Frame S m m') (hS : S ⊆ T) : Frame T m m' :=
  fun x hx => h x fun hxS => hx (hS hxS)

/-- A word outside the set is read as before. -/
theorem load32 (h : Frame S m m') (hc : ∀ x ∈ block c 4, x ∉ S) : m'.load32 c = m.load32 c :=
  load32_eq_of_bytes fun x hx => h x (hc x hx)

end Frame

theorem frame_store8 (m : Mem) (a : Word) (b : Byte) : Frame (block a 1) m (m.store8 a b) := by
  intro x hx
  have hne : x ≠ a := by
    rintro rfl
    exact hx (mem_block.2 (by simp))
  exact if_neg hne

/-- A word of two bytes is stored to two. -/
theorem frame_store16 (m : Mem) (a : Word) (w : BitVec 16) :
    Frame (block a 2) m (m.store16 a w) := by
  intro x hx
  have hne : x ≠ a := by
    rintro rfl
    exact hx (mem_block.2 (by simp))
  have hne' : x ≠ a + 1 := by
    rintro rfl
    exact hx (mem_block.2 (by bv_omega))
  unfold store16 store8
  rw [if_neg hne', if_neg hne]

theorem frame_store32 (m : Mem) (a w : Word) : Frame (block a 4) m (m.store32 a w) :=
  fun _ hx => store32_of_notMem hx

theorem frame_fill (m : Mem) (a : Word) (b : Byte) {n : ℕ} (hn : n ≤ 2 ^ 32) :
    Frame (block a n) m (m.fill a b n) :=
  fun _ hx => fill_of_notMem hn hx

/-- A list of bytes changes as many places. -/
theorem frame_write (m : Mem) (a : Word) (bs : List Byte) :
    Frame (block a bs.length) m (m.write a bs) :=
  fun _ hx => if_neg (mt mem_block.2 hx)

end Mem

end ByteMemory
