import Mathlib.Logic.Function.Basic
import Scorch.Lib.WordRecords
import Scorch.Lib.MemoryCopy

/-!
# The kernel's allocator

`liballoc.c` keeps a boundary tag of eight words in front of every block it hands out. The
blocks of a range that was taken from the pages lie one behind the other, linked by
`split_left` and `split_right`. The blocks that are not handed out stand in 32 lists by the
exponent of their size, linked by `next` and `prev`.

The tags are read and written in byte memory, as the program does. The loops over lists take
the number of rounds they may go on, and have no result when it is too small.
-/

open ByteMemory

namespace Scorch

/-! ## Tags -/

/-- `LIBALLOC_MAGIC`. -/
def liballocMagic : Word := 0xc001c0de

/-- The members of `struct boundary_tag`. -/
inductive TagField where
  | magic
  | size
  | realSize
  | index
  | splitLeft
  | splitRight
  | next
  | prev
  deriving DecidableEq, Repr

/-- Their places in the structure. -/
def TagField.place : TagField → ℕ
  | magic => 0
  | size => 1
  | realSize => 2
  | index => 3
  | splitLeft => 4
  | splitRight => 5
  | next => 6
  | prev => 7

theorem TagField.place_lt (f : TagField) : f.place < 8 := by
  cases f <;> decide

theorem TagField.place_inj {f g : TagField} : f.place = g.place ↔ f = g := by
  constructor
  · cases f <;> cases g <;> decide
  · exact congrArg place

/-- The memory of the heap and the static variables of `liballoc.c`. -/
structure Liballoc where
  mem : Mem
  freePages : ℕ → Word
  completePages : ℕ → Word
  initialized : Bool

namespace Liballoc

/-- `tag->f`. -/
def get (s : Liballoc) (tag : Word) (f : TagField) : Word :=
  s.mem.field tag f.place

/-- `tag->f = v`. -/
def set (s : Liballoc) (tag : Word) (f : TagField) (v : Word) : Liballoc :=
  { s with mem := s.mem.setField tag f.place v }

/-- `l_freePages[i] = tag`. -/
def setFreePages (s : Liballoc) (i tag : Word) : Liballoc :=
  { s with freePages := Function.update s.freePages i.toNat tag }

/-- `l_completePages[i] = n`. -/
def setCompletePages (s : Liballoc) (i n : Word) : Liballoc :=
  { s with completePages := Function.update s.completePages i.toNat n }

/-! ## Helper functions -/

/-- The loop of `getexp`, with `n` rounds left below `MAXEXP`. -/
def getexpFrom (size : Word) : ℕ → ℕ → ℕ
  | 0, shift => shift
  | n + 1, shift => if (1 : Word) <<< shift > size then shift else getexpFrom size n (shift + 1)

/-- `getexp (size)`. -/
def getexp (size : Word) : Word :=
  if size < 256 then -1 else BitVec.ofNat 32 (getexpFrom size 24 8) - 1

/-- `insert_tag (tag, index)`. -/
def insertTag (s : Liballoc) (tag index : Word) : Liballoc :=
  let realIndex :=
    if index.slt 0 then
      let realIndex := getexp (s.get tag .realSize - 32)
      if realIndex.slt 8 then 8 else realIndex
    else index
  let s := s.set tag .index realIndex
  let s :=
    if s.freePages realIndex.toNat ≠ 0 then
      let s := s.set (s.freePages realIndex.toNat) .prev tag
      s.set tag .next (s.freePages realIndex.toNat)
    else s
  s.setFreePages realIndex tag

/-- `remove_tag (tag)`. -/
def removeTag (s : Liballoc) (tag : Word) : Liballoc :=
  let s :=
    if s.freePages (s.get tag .index).toNat = tag then
      s.setFreePages (s.get tag .index) (s.get tag .next)
    else s
  let s := if s.get tag .prev ≠ 0 then s.set (s.get tag .prev) .next (s.get tag .next) else s
  let s := if s.get tag .next ≠ 0 then s.set (s.get tag .next) .prev (s.get tag .prev) else s
  let s := s.set tag .next 0
  let s := s.set tag .prev 0
  s.set tag .index (-1)

/-- `melt_left (tag)`. -/
def meltLeft (s : Liballoc) (tag : Word) : Word × Liballoc :=
  let left := s.get tag .splitLeft
  let s := s.set left .realSize (s.get left .realSize + s.get tag .realSize)
  let s := s.set left .splitRight (s.get tag .splitRight)
  let s :=
    if s.get tag .splitRight ≠ 0 then s.set (s.get tag .splitRight) .splitLeft left else s
  (left, s)

/-- `absorb_right (tag)`. -/
def absorbRight (s : Liballoc) (tag : Word) : Word × Liballoc :=
  let right := s.get tag .splitRight
  let s := s.removeTag right
  let s := s.set tag .realSize (s.get tag .realSize + s.get right .realSize)
  let s := s.set tag .splitRight (s.get right .splitRight)
  let s :=
    if s.get right .splitRight ≠ 0 then s.set (s.get right .splitRight) .splitLeft tag else s
  (tag, s)

/-- `split_tag (tag)`. -/
def splitTag (s : Liballoc) (tag : Word) : Word × Liballoc :=
  let remainder := s.get tag .realSize - 32 - s.get tag .size
  let newTag := tag + 32 + s.get tag .size
  let s := s.set newTag .magic liballocMagic
  let s := s.set newTag .realSize remainder
  let s := s.set newTag .next 0
  let s := s.set newTag .prev 0
  let s := s.set newTag .splitLeft tag
  let s := s.set newTag .splitRight (s.get tag .splitRight)
  let s :=
    if s.get newTag .splitRight ≠ 0 then s.set (s.get newTag .splitRight) .splitLeft newTag else s
  let s := s.set tag .splitRight newTag
  let s := s.set tag .realSize (s.get tag .realSize - s.get newTag .realSize)
  (newTag, s.insertTag newTag (-1))

/-! ## Allocation -/

/-- The pages that hold so many bytes, `l_pageCount` of them at least. -/
def pagesOf (bytes : Word) : Word :=
  let pages := bytes / 4096
  let pages := if bytes % 4096 ≠ 0 then pages + 1 else pages
  if pages < 16 then 16 else pages

/-- The pages that `allocate_new_tag (size)` asks for. -/
def pagesFor (size : Word) : Word :=
  pagesOf (size + 32)

/-- `allocate_new_tag (size)`, where `tag` is what `liballoc_alloc` returns. -/
def allocateNewTag (s : Liballoc) (tag size : Word) : Liballoc :=
  let s := s.set tag .magic liballocMagic
  let s := s.set tag .size size
  let s := s.set tag .realSize (pagesFor size * 4096)
  let s := s.set tag .index (-1)
  let s := s.set tag .next 0
  let s := s.set tag .prev 0
  let s := s.set tag .splitLeft 0
  s.set tag .splitRight 0

/-- The arrays are cleared at the first call. -/
def initArrays (s : Liballoc) : Liballoc :=
  if s.initialized then s
  else
    { s with
      freePages := fun i => if i < 32 then 0 else s.freePages i
      completePages := fun i => if i < 32 then 0 else s.completePages i
      initialized := true }

/-- The search of `malloc` from `tag` on. -/
def findTag (s : Liballoc) (size : Word) : ℕ → Word → Option Word
  | 0, _ => none
  | n + 1, tag =>
    if tag = 0 then some 0
    else if s.get tag .realSize - 32 ≥ size + 32 then some tag
    else findTag s size n (s.get tag .next)

/-- The end of `malloc` : the tag gets its size, and what is left is split off. -/
def carve (s : Liballoc) (tag size : Word) : Liballoc :=
  let s := s.set tag .size size
  let remainder := s.get tag .realSize - size - 32 * 2
  if (0 : Word).slt remainder then
    if ¬(getexp remainder).slt 0 then (s.splitTag tag).2 else s
  else s

/-- The list that `malloc` and `free` choose. -/
def listOf (size : Word) : Word :=
  let index := getexp size
  if index.slt 8 then 8 else index

/-- What a call of `malloc` returns, what it leaves behind, and the pages it asks
`liballoc_alloc` for, if it does. -/
structure MallocRun where
  ptr : Word
  state : Liballoc
  asked : Option Word

/-- `malloc (size)`, where `alloc` is what `liballoc_alloc` returns for a number of pages. -/
def malloc (k : ℕ) (alloc : Word → Word) (s : Liballoc) (size : Word) : Option MallocRun :=
  let s := s.initArrays
  let index := listOf size
  (s.findTag size k (s.freePages index.toNat)).map fun tag =>
    if tag = 0 then
      let tag := alloc (pagesFor size)
      if tag = 0 then ⟨0, s, some (pagesFor size)⟩
      else ⟨tag + 32, (s.allocateNewTag tag size).carve tag size, some (pagesFor size)⟩
    else
      let s := s.removeTag tag
      let s :=
        if s.get tag .splitLeft = 0 ∧ s.get tag .splitRight = 0 then
          s.setCompletePages index (s.completePages index.toNat - 1)
        else s
      ⟨tag + 32, s.carve tag size, none⟩

/-! ## Release -/

/-- The loop of `free` that melts the tag into the free blocks to its left. -/
def meltLoop : ℕ → Liballoc → Word → Option (Word × Liballoc)
  | 0, _, _ => none
  | n + 1, s, tag =>
    if s.get tag .splitLeft ≠ 0 ∧ ¬(s.get (s.get tag .splitLeft) .index).slt 0 then
      let r := s.meltLeft tag
      meltLoop n (r.2.removeTag r.1) r.1
    else some (tag, s)

/-- The loop of `free` that absorbs the free blocks to the right of the tag. -/
def absorbLoop : ℕ → Liballoc → Word → Option (Word × Liballoc)
  | 0, _, _ => none
  | n + 1, s, tag =>
    if s.get tag .splitRight ≠ 0 ∧ ¬(s.get (s.get tag .splitRight) .index).slt 0 then
      let r := s.absorbRight tag
      absorbLoop n r.2 r.1
    else some (tag, s)

/-- What a call of `free` leaves behind, and the pages it gives to `liballoc_free`, if it
does. -/
structure FreeRun where
  state : Liballoc
  released : Option (Word × Word)

/-- The end of `free`, with the tag that is left. -/
def giveBack (s : Liballoc) (tag : Word) : FreeRun :=
  let index := listOf (s.get tag .realSize - 32)
  if s.get tag .splitLeft = 0 ∧ s.get tag .splitRight = 0 then
    if s.completePages index.toNat = 5 then ⟨s, some (tag, pagesOf (s.get tag .realSize))⟩
    else ⟨(s.setCompletePages index (s.completePages index.toNat + 1)).insertTag tag index, none⟩
  else ⟨s.insertTag tag index, none⟩

/-- `free (ptr)`. -/
def free (k : ℕ) (s : Liballoc) (ptr : Word) : Option FreeRun :=
  if ptr = 0 then some ⟨s, none⟩
  else
    let tag := ptr - 32
    if s.get tag .magic ≠ liballocMagic then some ⟨s, none⟩
    else
      (meltLoop k s tag).bind fun r =>
        (absorbLoop k r.2 r.1).map fun r => r.2.giveBack r.1

/-! ## Clearing and copying -/

/-- `liballoc_memcpy (dst, src, n)` : the words first, then the bytes that are left. -/
def liballocMemcpy (m : Mem) (dst src : Word) (n : ℕ) : Mem :=
  let words := BitVec.ofNat 32 (4 * (n / 4))
  (m.copyWords dst src (n / 4)).copyBytes (dst + words) (src + words) (n % 4)

/-- The same lists over another memory. -/
def setMem (s : Liballoc) (m : Mem) : Liballoc :=
  { s with mem := m }

/-- `calloc (nobj, size)`. What `malloc` returns is cleared, also when it is null. -/
def calloc (k : ℕ) (alloc : Word → Word) (s : Liballoc) (nobj size : Word) : Option MallocRun :=
  let realSize := nobj * size
  (s.malloc k alloc realSize).map fun r =>
    { r with state := r.state.setMem (r.state.mem.fill r.ptr 0 realSize.toNat) }

/-- What a call of `realloc` returns and leaves behind, the pages it asks `liballoc_alloc` for
and those it gives to `liballoc_free`, if it does. -/
structure ReallocRun where
  ptr : Word
  state : Liballoc
  asked : Option Word
  released : Option (Word × Word)

/-- `realloc (p, size)`. The block is copied to what `malloc` returns, also when that is null. -/
def realloc (k : ℕ) (alloc : Word → Word) (s : Liballoc) (p size : Word) : Option ReallocRun :=
  if size = 0 then (s.free k p).map fun f => ⟨0, f.state, none, f.released⟩
  else if p = 0 then (s.malloc k alloc size).map fun r => ⟨r.ptr, r.state, r.asked, none⟩
  else
    let realSize := s.get (p - 32) .size
    let realSize := if realSize > size then size else realSize
    (s.malloc k alloc size).bind fun r =>
      let s := r.state.setMem (liballocMemcpy r.state.mem r.ptr p realSize.toNat)
      (s.free k p).map fun f => ⟨r.ptr, f.state, r.asked, f.released⟩

end Liballoc

end Scorch
