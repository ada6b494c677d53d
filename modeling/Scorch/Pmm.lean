import Scorch.Lib.ByteMemory
import Scorch.Lib.FirstMatch

/-!
# The physical memory manager

`pmm.c`. One bit per 4 KiB frame, in words of 32 bits behind `_mmngr_memory_map`, next to
a count of used frames. `int`, `size_t` (which `system.h` makes an `int`) and `uint32_t`
are 32-bit words; signed arithmetic wraps, and a shift takes its count modulo 32, as on
the i386. The `for` loops that return at the first hit are `FirstMatch.scan`; the other
loops recurse on the number of rounds left.
-/

open ByteMemory

namespace Scorch

/-- `PMMNGR_BLOCK_SIZE`. -/
def pmmngrBlockSize : Word := 4096

/-- `PMMNGR_BLOCKS_PER_BYTE`. -/
def pmmngrBlocksPerByte : Word := 8

/-- The variables of `pmm.c`, and the memory its pointers reach. -/
structure Pmm where
  /-- Kernel memory : what `_mmngr_memory_map` points into. -/
  mem : Mem
  /-- `_mmngr_memory_size`. -/
  mmngrMemorySize : Word
  /-- `_mmngr_used_blocks`. -/
  mmngrUsedBlocks : Word
  /-- `_mmngr_max_blocks`. -/
  mmngrMaxBlocks : Word
  /-- `_mmngr_memory_map`, an address. -/
  mmngrMemoryMap : Word

namespace Pmm

/-- `_mmngr_memory_map[i]`. -/
def mapWord (s : Pmm) (i : Word) : Word :=
  s.mem.load32 (s.mmngrMemoryMap + 4 * i)

/-- `_mmngr_memory_map[i] = w`. -/
def setMapWord (s : Pmm) (i w : Word) : Pmm :=
  { s with mem := s.mem.store32 (s.mmngrMemoryMap + 4 * i) w }

end Pmm

/-- `memset` of `string.c`, at an address of kernel memory : the count runs down to zero. -/
def memset (m : Mem) (dst val len : Word) : Mem :=
  m.fill dst (val.setWidth 8) len.toNat

/-- `1 << n` for an `int` count. -/
def bitMask (n : Word) : Word :=
  1#32 <<< (n.toNat % 32)

/-! ## The bit array -/

/-- `mmap_set`. -/
def mmapSet (s : Pmm) (bit : Word) : Pmm :=
  s.setMapWord (bit.sdiv 32) (s.mapWord (bit.sdiv 32) ||| bitMask (bit.srem 32))

/-- `mmap_unset`. -/
def mmapUnset (s : Pmm) (bit : Word) : Pmm :=
  s.setMapWord (bit.sdiv 32) (s.mapWord (bit.sdiv 32) &&& ~~~bitMask (bit.srem 32))

/-- `mmap_test`. -/
def mmapTest (s : Pmm) (bit : Word) : Bool :=
  s.mapWord (bit.sdiv 32) &&& bitMask (bit.srem 32) != 0

/-- `pmmngr_get_memory_size`. -/
def pmmngrGetMemorySize (s : Pmm) : Word :=
  s.mmngrMemorySize

/-- `pmmngr_get_block_count`. -/
def pmmngrGetBlockCount (s : Pmm) : Word :=
  s.mmngrMaxBlocks

/-- `pmmngr_get_free_block_count`. -/
def pmmngrGetFreeBlockCount (s : Pmm) : Word :=
  s.mmngrMaxBlocks - s.mmngrUsedBlocks

/-- Word `i` of the map is `0xffffffff`, so the loops pass over it. -/
def mapWordFull (s : Pmm) (i : ℕ) : Bool :=
  s.mapWord (BitVec.ofNat 32 i) == 0xffffffff

/-- `!(_mmngr_memory_map[i] & bit)` with `bit = 1 << j`. -/
def mapBitClear (s : Pmm) (i j : ℕ) : Bool :=
  s.mapWord (BitVec.ofNat 32 i) &&& bitMask (BitVec.ofNat 32 j) == 0

/-- `i*4*8+j`, or `-1` when the loops run out. -/
def frameIndex : Option (ℕ × ℕ) → Word
  | some (i, j) => BitVec.ofNat 32 i * 4 * 8 + BitVec.ofNat 32 j
  | none => -1

/-- `mmap_first_free` : the outer loop runs over `pmmngr_get_block_count()` words. -/
def mmapFirstFree (s : Pmm) : Word :=
  frameIndex
    (FirstMatch.scan (pmmngrGetBlockCount s).toNat 32 (mapWordFull s) (mapBitClear s))

/-- The innermost loop of `mmap_first_free_s`, with `rounds` values of `count` left :
count the clear bits from `startingBit` on until there are `size` of them. -/
def countFree (s : Pmm) (size startingBit : Word) : ℕ → Word → Word → Bool
  | 0, _, _ => false
  | rounds + 1, count, free =>
    let free := if mmapTest s (startingBit + count) then free else free + 1
    if free = size then true else countFree s size startingBit rounds (count + 1) free

/-- The frames tested for a run that would start at bit `j` of word `i` : the source adds
`bit`, which is `1 << j`, to `i*32`, and `count` runs from `0` to `size`. -/
def runFree (s : Pmm) (size : Word) (i j : ℕ) : Bool :=
  countFree s size (BitVec.ofNat 32 i * 32 + bitMask (BitVec.ofNat 32 j)) (size.toNat + 1) 0 0

/-- `mmap_first_free_s`. -/
def mmapFirstFreeS (s : Pmm) (size : Word) : Word :=
  if size = 0 then -1
  else if size = 1 then mmapFirstFree s
  else
    frameIndex (FirstMatch.scan (pmmngrGetBlockCount s).toNat 32 (mapWordFull s) fun i j =>
      mapBitClear s i j && runFree s size i j)

/-! ## The interface -/

/-- `pmmngr_init`, with the address of the bitmap. -/
def pmmngrInit (s : Pmm) (memSize bitmap : Word) : Pmm :=
  let s := { s with mmngrMemorySize := memSize, mmngrMemoryMap := bitmap }
  let s := { s with mmngrMaxBlocks := (pmmngrGetMemorySize s * 1024).sdiv pmmngrBlockSize }
  let s := { s with mmngrUsedBlocks := pmmngrGetBlockCount s }
  { s with mem := memset s.mem s.mmngrMemoryMap 0xf (pmmngrGetBlockCount s / pmmngrBlocksPerByte) }

/-- The number of rounds of `for (; blocks>0; blocks--)`. -/
def rounds (blocks : Word) : ℕ :=
  blocks.toInt.toNat

/-- The loop of `pmmngr_init_region`. -/
def initBlocks : ℕ → Word → Pmm → Pmm
  | 0, _, s => s
  | n + 1, align, s =>
    let s := mmapUnset s align
    initBlocks n (align + 1) { s with mmngrUsedBlocks := s.mmngrUsedBlocks - 1 }

/-- `pmmngr_init_region`. -/
def pmmngrInitRegion (s : Pmm) (base size : Word) : Pmm :=
  let align := base / pmmngrBlockSize
  let blocks := size.sdiv pmmngrBlockSize
  mmapSet (initBlocks (rounds blocks) align s) 0

/-- The loop of `pmmngr_deinit_region`. -/
def deinitBlocks : ℕ → Word → Pmm → Pmm
  | 0, _, s => s
  | n + 1, align, s =>
    let s := mmapSet s align
    deinitBlocks n (align + 1) { s with mmngrUsedBlocks := s.mmngrUsedBlocks + 1 }

/-- `pmmngr_deinit_region`. -/
def pmmngrDeinitRegion (s : Pmm) (base size : Word) : Pmm :=
  let align := base / pmmngrBlockSize
  let blocks := size.sdiv pmmngrBlockSize
  mmapSet (deinitBlocks (rounds blocks) align s) 0

/-- Returns the address of the block, `0` when there is none. -/
def pmmngrAllocBlock (s : Pmm) : Word × Pmm :=
  if pmmngrGetFreeBlockCount s ≤ 0 then (0, s)
  else
    let frame := mmapFirstFree s
    if frame = -1 then (0, s)
    else
      let s := mmapSet s frame
      (frame * pmmngrBlockSize, { s with mmngrUsedBlocks := s.mmngrUsedBlocks + 1 })

/-- `pmmngr_free_block`. -/
def pmmngrFreeBlock (s : Pmm) (p : Word) : Pmm :=
  let frame := p / pmmngrBlockSize
  let s := mmapUnset s frame
  { s with mmngrUsedBlocks := s.mmngrUsedBlocks - 1 }

/-- `for (i=0; i<size; i++) mmap_set (frame+i)`, with `n` rounds left. -/
def setBlocks : ℕ → Word → Pmm → Pmm
  | 0, _, s => s
  | n + 1, frame, s => setBlocks n (frame + 1) (mmapSet s frame)

/-- `for (i=0; i<size; i++) mmap_unset (frame+i)`, with `n` rounds left. -/
def unsetBlocks : ℕ → Word → Pmm → Pmm
  | 0, _, s => s
  | n + 1, frame, s => unsetBlocks n (frame + 1) (mmapUnset s frame)

/-- The guard compares an unsigned count with an `int`, so `size` is read as unsigned. -/
def pmmngrAllocBlocks (s : Pmm) (size : Word) : Word × Pmm :=
  if pmmngrGetFreeBlockCount s ≤ size then (0, s)
  else
    let frame := mmapFirstFreeS s size
    if frame = -1 then (0, s)
    else
      let s := setBlocks size.toNat frame s
      (frame * pmmngrBlockSize, { s with mmngrUsedBlocks := s.mmngrUsedBlocks + size })

/-- `pmmngr_free_blocks`. -/
def pmmngrFreeBlocks (s : Pmm) (p size : Word) : Pmm :=
  let frame := p / pmmngrBlockSize
  let s := unsetBlocks size.toNat frame s
  { s with mmngrUsedBlocks := s.mmngrUsedBlocks - size }

end Scorch
