import Scorch.Lib.WordPages
import Scorch.Allocation

/-!
# The virtual memory manager

The page-table functions of `vmm.c`. A directory is 1024 words at an address, and an entry
that is not zero is the address of a table of 1024 words with flags in its low bits.
Physical frames are read and written at their physical address, in a memory of their own.
The bit array of the physical manager is kernel data in another memory : the results are
about states in which it overlaps no frame that is in use or handed out, so that no store to
a directory, a table or a page is a store to it.

`vmmngr_createPageTable` and `vmmngr_mapPhysicalAddress` call each other. Each round takes
one of the free count of the physical manager, so they stop whatever the memory holds.

`nullStores` is no variable of the code. It counts the stores that
`vmmngr_mapPhysicalAddress` makes through a directory entry that is zero, which land in
physical page `0`.
-/

open ByteMemory

namespace Scorch

open Pmm

/-- The memory manager below, physical memory, and the variables of `vmm.c`. -/
structure Vmm where
  pmm : Pmm
  /-- Physical memory. -/
  mem : Mem
  /-- `_cur_directory`. -/
  curDirectory : Word
  /-- The stores made through an empty directory entry. -/
  nullStores : ℕ

/-- `virt >> 22`. -/
def dirIndex (virt : Word) : Word :=
  virt >>> 22

/-- `virt << 10 >> 10 >> 12`. -/
def tableIndex (virt : Word) : Word :=
  virt <<< 10 >>> 10 >>> 12

namespace Vmm

/-- `pagedir[i]`. -/
def pagedir (s : Vmm) (dir i : Word) : Word :=
  s.mem.load32 (dir + 4 * i)

/-- `pagedir[i] = w`. -/
def setPagedir (s : Vmm) (dir i w : Word) : Vmm :=
  { s with mem := s.mem.store32 (dir + 4 * i) w }

/-- `&((uint32_t*) (pagedir[virt >> 22] & ~0xfff))[virt << 10 >> 10 >> 12]`. -/
def entryAddr (s : Vmm) (dir virt : Word) : Word :=
  pageOf (s.pagedir dir (dirIndex virt)) + 4 * tableIndex virt

/-- Store `w` at that address. -/
def setEntry (s : Vmm) (dir virt w : Word) : Vmm :=
  { s with
    mem := s.mem.store32 (s.entryAddr dir virt) w
    nullStores := s.nullStores + if s.pagedir dir (dirIndex virt) = 0 then 1 else 0 }

end Vmm

/-- A block that is not null was taken off the free count. -/
theorem freeCount_pmmngrAllocBlock {s : Pmm} (h : (pmmngrAllocBlock s).1 ≠ 0) :
    (pmmngrGetFreeBlockCount (pmmngrAllocBlock s).2).toNat <
      (pmmngrGetFreeBlockCount s).toNat := by
  rcases pmmngrAllocBlock_cases s with ⟨heq, -⟩ | ⟨f, hfree, -, heq⟩
  · exact absurd (congrArg Prod.fst heq) h
  · have hsub : pmmngrGetFreeBlockCount (pmmngrAllocBlock s).2 =
        pmmngrGetFreeBlockCount s - 1 := by
      rw [heq]
      show s.mmngrMaxBlocks - (s.mmngrUsedBlocks + 1) = s.mmngrMaxBlocks - s.mmngrUsedBlocks - 1
      bv_omega
    rw [hsub]
    bv_omega

mutual

def vmmngrCreatePageTable (s : Vmm) (dir virt flags : Word) : Word × Vmm :=
  if s.pagedir dir (dirIndex virt) = 0 then
    let block := (pmmngrAllocBlock s.pmm).1
    let s₁ := { s with pmm := (pmmngrAllocBlock s.pmm).2 }
    if _ : (pmmngrAllocBlock s.pmm).1 = 0 then (0, s₁)
    else
      let s₂ := s₁.setPagedir dir (dirIndex virt) (block ||| flags)
      let s₃ := { s₂ with mem := memset s₂.mem (s₂.pagedir dir (dirIndex virt)) 0 4096 }
      (1, vmmngrMapPhysicalAddress s₃ dir block block flags)
  else (1, s)
termination_by 2 * (pmmngrGetFreeBlockCount s.pmm).toNat
decreasing_by
  have := freeCount_pmmngrAllocBlock ‹_›
  show 2 * (pmmngrGetFreeBlockCount (pmmngrAllocBlock s.pmm).2).toNat + 1 < _
  omega

def vmmngrMapPhysicalAddress (s : Vmm) (dir virt phys flags : Word) : Vmm :=
  let s :=
    if s.pagedir dir (dirIndex virt) = 0 then (vmmngrCreatePageTable s dir virt flags).2 else s
  s.setEntry dir virt (phys ||| flags)
termination_by 2 * (pmmngrGetFreeBlockCount s.pmm).toNat + 1

end

def vmmngrUnmapPageTable (s : Vmm) (dir virt : Word) : Vmm :=
  if s.pagedir dir (dirIndex virt) ≠ 0 then
    let frame := s.pagedir dir (dirIndex virt) &&& 0x7FFFF000
    let s := { s with pmm := pmmngrFreeBlock s.pmm frame }
    s.setPagedir dir (dirIndex virt) 0
  else s

def vmmngrUnmapPhysicalAddress (s : Vmm) (dir virt : Word) : Vmm :=
  if s.pagedir dir (dirIndex virt) ≠ 0 then vmmngrUnmapPageTable s dir virt else s

def vmmngrGetPhysicalAddress (s : Vmm) (dir virt : Word) : Word :=
  if s.pagedir dir (dirIndex virt) = 0 then 0
  else s.mem.load32 (s.entryAddr dir virt)

/-- `I86_PTE_PRESENT | I86_PTE_WRITABLE`. -/
def ptePresentWritable : Word :=
  1 ||| 2

/-- The loop of `vmmngr_alloc_pages_at_virtual_address`, with `n` rounds left. -/
def mapPages (dir : Word) : ℕ → Word → Word → Vmm → Vmm
  | 0, _, _, s => s
  | n + 1, start, blocks, s =>
    mapPages dir n (start + 4096) (blocks + 4096)
      (vmmngrMapPhysicalAddress s dir start blocks ptePresentWritable)

def vmmngrAllocPagesAtVirtualAddress (s : Vmm) (numPages virt : Word) : Bool × Vmm :=
  let dir := s.curDirectory
  if vmmngrGetPhysicalAddress s dir virt ≠ 0 then (false, s)
  else
    let blocks := (pmmngrAllocBlocks s.pmm numPages).1
    let s := { s with pmm := (pmmngrAllocBlocks s.pmm numPages).2 }
    if blocks = 0 then (false, s)
    else (true, mapPages dir numPages.toNat virt blocks s)

/-- The loop of `vmmngr_dealloc_pages_at_virtual_address`, with `n` rounds left. -/
def unmapPages (dir : Word) : ℕ → Word → Vmm → Vmm
  | 0, _, s => s
  | n + 1, start, s => unmapPages dir n (start + 4096) (vmmngrUnmapPhysicalAddress s dir start)

def vmmngrDeallocPagesAtVirtualAddress (s : Vmm) (numPages virt : Word) : Bool × Vmm :=
  let dir := s.curDirectory
  if vmmngrGetPhysicalAddress s dir virt ≠ 0 then (false, s)
  else (true, unmapPages dir numPages.toNat virt s)

end Scorch
