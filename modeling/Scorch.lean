import Scorch.Lib.ByteMemory
import Scorch.Lib.WordPages
import Scorch.Lib.FirstMatch
import Scorch.Lib.GuardedRun
import Scorch.Lib.Acyclic
import Scorch.Lib.ForestWalk
import Scorch.Lib.RecordRing
import Scorch.Lib.MemoryFrame
import Scorch.Lib.ForwardCopy
import Scorch.Lib.ShiftQueue
import Scorch.Lib.StoreLog
import Scorch.Lib.FirstIndex
import Scorch.Lib.Separated
import Scorch.Lib.MaximalRuns
import Scorch.Lib.LexSign
import Scorch.Lib.Polling
import Scorch.Lib.DoublyLinked
import Scorch.Lib.Tiling
import Scorch.Lib.WordRecords
import Scorch.Pmm
import Scorch.Frames
import Scorch.Allocation
import Scorch.Ownership
import Scorch.Accounting
import Scorch.FirstFit
import Scorch.OneBlock
import Scorch.FreeRuns
import Scorch.Regions
import Scorch.SearchBounds
import Scorch.Boot
import Scorch.Vmm
import Scorch.AddressSpace
import Scorch.TableCreation
import Scorch.TableDepth
import Scorch.TableSupply
import Scorch.PageRange
import Scorch.RangeRelease
import Scorch.IdentityMap
import Scorch.IdentityRanges
import Scorch.Paging
import Scorch.PageEntries
import Scorch.TableWalk
import Scorch.Heap
import Scorch.Strings
import Scorch.Strtok
import Scorch.StringSearch
import Scorch.StringCopy
import Scorch.Flpydsk
import Scorch.Fat12
import Scorch.ShortNames
import Scorch.ClusterChain
import Scorch.PathWalk
import Scorch.FatEncoding
import Scorch.FileRead
import Scorch.FloppyErrors
import Scorch.Dma
import Scorch.EntrySearch
import Scorch.RootDirectory
import Scorch.FatGeometry
import Scorch.SubDirectory
import Scorch.Pci
import Scorch.PciScan
import Scorch.PciEnumeration
import Scorch.Rtl8139
import Scorch.ReceiveRing
import Scorch.ReceiveProgress
import Scorch.Ahci
import Scorch.AhciRead
import Scorch.AhciSlots
import Scorch.AhciTables
import Scorch.AhciProbe
import Scorch.AhciPorts
import Scorch.Keyboard
import Scorch.KeyQueue
import Scorch.KeyLocks
import Scorch.Gets
import Scorch.Screen
import Scorch.Terminal
import Scorch.Numerals
import Scorch.Itoa
import Scorch.Putd
import Scorch.Shell
import Scorch.CommandSlots
import Scorch.CommandLookup
import Scorch.Builtins
import Scorch.RunShell
import Scorch.Fsys
import Scorch.VolOpen
import Scorch.StringOrder
import Scorch.Putx
import Scorch.Timer
import Scorch.Liballoc
import Scorch.TagOperations
import Scorch.TagLayout
import Scorch.BlockOrder
import Scorch.BlockRelease
import Scorch.BlockSupply
import Scorch.Pool
import Scorch.PoolRuns
import Scorch.HeapBacking
import Scorch.KernelHeap
import Scorch.Lib.Ia32
import Scorch.Descriptors
import Scorch.Stubs
import Scorch.Interrupts
import Scorch.InterruptRuns
import Scorch.TypedLines
import Scorch.Crc
