import Scorch.Lib.MemoryFrame

/-!
# Memory with a log of blocks

A byte memory with the blocks that have been written, each by its address and length.
`Writes S l l'` says that what is written between `l` and `l'` lies in `S` : it composes along
a sequence of writes, and comes with the frame that reads need.
-/

namespace ByteMemory

/-- A memory and the blocks that have been written, in order. -/
structure BlockLog where
  mem : Mem
  blocks : List (Word × ℕ)

namespace BlockLog

open Mem

/-- Write one byte. -/
def store8 (l : BlockLog) (a : Word) (b : Byte) : BlockLog :=
  ⟨l.mem.store8 a b, l.blocks ++ [(a, 1)]⟩

/-- Write a word. -/
def store32 (l : BlockLog) (a w : Word) : BlockLog :=
  ⟨l.mem.store32 a w, l.blocks ++ [(a, 4)]⟩

/-- Write a byte to all places of a block. -/
def fill (l : BlockLog) (a : Word) (b : Byte) (n : ℕ) : BlockLog :=
  ⟨l.mem.fill a b n, l.blocks ++ [(a, n)]⟩

/-- All writes from `l` to `l'` are inside `S`. -/
structure Writes (S : Set Word) (l l' : BlockLog) : Prop where
  frame : Mem.Frame S l.mem l'.mem
  blocks : ∃ bs, l'.blocks = l.blocks ++ bs ∧ ∀ e ∈ bs, block e.1 e.2 ⊆ S

variable {S : Set Word} {l l' l'' : BlockLog} {a : Word}

theorem Writes.refl (S : Set Word) (l : BlockLog) : Writes S l l :=
  ⟨.refl S l.mem, [], (List.append_nil _).symm, fun _ he => absurd he List.not_mem_nil⟩

/-- Two parts of a run log one after the other. -/
theorem Writes.trans (h : Writes S l l') (h' : Writes S l' l'') : Writes S l l'' := by
  obtain ⟨bs, hbs, hin⟩ := h.blocks
  obtain ⟨bs', hbs', hin'⟩ := h'.blocks
  refine ⟨h.frame.trans h'.frame, bs ++ bs', by rw [hbs', hbs, List.append_assoc], fun e he => ?_⟩
  exact (List.mem_append.1 he).elim (hin e) (hin' e)

/-- One more block. -/
theorem writes_block {m : Mem} {n : ℕ} (hframe : Mem.Frame (block a n) l.mem m)
    (h : block a n ⊆ S) : Writes S l ⟨m, l.blocks ++ [(a, n)]⟩ :=
  ⟨hframe.mono h, [(a, n)], rfl, fun e he => by rwa [List.mem_singleton.1 he]⟩

theorem writes_store8 (l : BlockLog) (b : Byte) (h : block a 1 ⊆ S) :
    Writes S l (l.store8 a b) :=
  writes_block (Mem.frame_store8 _ _ _) h

theorem writes_store32 (l : BlockLog) (w : Word) (h : block a 4 ⊆ S) :
    Writes S l (l.store32 a w) :=
  writes_block (Mem.frame_store32 _ _ _) h

end BlockLog

end ByteMemory
