import KernelOfTruth.Lib.Prog
import KernelOfTruth.Lib.Bag
import KernelOfTruth.Lib.ListSegment
import KernelOfTruth.Lib.Tiling
import KernelOfTruth.Lib.Probing
import KernelOfTruth.Lib.Ring
import KernelOfTruth.Code.Types
import KernelOfTruth.Code.Mmu
import KernelOfTruth.Code.Paging
import KernelOfTruth.Code.PhysicalAllocator
import KernelOfTruth.Code.RegionVector
import KernelOfTruth.Code.Heap
import KernelOfTruth.Code.Hashtable
import KernelOfTruth.Rules
import KernelOfTruth.Window
import KernelOfTruth.Tables
import KernelOfTruth.PhysicalAllocator
import KernelOfTruth.Bits
import KernelOfTruth.Paging
import KernelOfTruth.PageStack
import KernelOfTruth.Exhaustion
import KernelOfTruth.RegionVector
import KernelOfTruth.RegionRelease
import KernelOfTruth.RandomPlacement
import KernelOfTruth.Heap
import KernelOfTruth.HeapRuns
import KernelOfTruth.FirstFit
import KernelOfTruth.Realloc
import KernelOfTruth.WrappedSizes
import KernelOfTruth.Krealloc
import KernelOfTruth.Spec.Hashtable
import KernelOfTruth.Hashtable
import KernelOfTruth.ProbeSlots
import KernelOfTruth.LookupOrder
import KernelOfTruth.FailedPut
import KernelOfTruth.Removal
import KernelOfTruth.Growth
import KernelOfTruth.Spec.Paging
import KernelOfTruth.Spec.Separation
import KernelOfTruth.MapPage
import KernelOfTruth.FreePages
import KernelOfTruth.PageOps
import KernelOfTruth.Spec.PageRanges
import KernelOfTruth.PageRanges
import KernelOfTruth.Unmapping
import KernelOfTruth.Slab
import KernelOfTruth.SlabRoundTrip
import KernelOfTruth.Separation
import KernelOfTruth.Code.Slab
import KernelOfTruth.Code.AddressSpace
import KernelOfTruth.Spec.AddressSpace
import KernelOfTruth.AddressSpace
import KernelOfTruth.Code.Object
import KernelOfTruth.Spec.Object
import KernelOfTruth.Objects
import KernelOfTruth.Code.File
import KernelOfTruth.Spec.File
import KernelOfTruth.Files
import KernelOfTruth.Directories
import KernelOfTruth.Code.Process
import KernelOfTruth.Spec.Process
import KernelOfTruth.ProcessPool
import KernelOfTruth.ThreadTables
import KernelOfTruth.Code.PageTable
import KernelOfTruth.Spec.ProcessFailure
import KernelOfTruth.ProcessFailure
import KernelOfTruth.Code.Format
import KernelOfTruth.Spec.Format
import KernelOfTruth.Format
import KernelOfTruth.Spec.Numerals
import KernelOfTruth.Numerals
import KernelOfTruth.Code.BootMemory
import KernelOfTruth.Spec.BootMemory
import KernelOfTruth.BootMemory
import KernelOfTruth.Code.Lock
import KernelOfTruth.Spec.Lock
import KernelOfTruth.Lock
import KernelOfTruth.Code.Scheduler
import KernelOfTruth.Spec.Scheduler
import KernelOfTruth.Scheduler
import KernelOfTruth.Code.Strings
import KernelOfTruth.Spec.Strings
import KernelOfTruth.Strings
import KernelOfTruth.Code.Elf
import KernelOfTruth.Code.Symbols
import KernelOfTruth.Code.Module
import KernelOfTruth.Code.ModuleInit
import KernelOfTruth.Code.Truesign
import KernelOfTruth.Spec.Signature
import KernelOfTruth.Signature
import KernelOfTruth.Code.Threads
import KernelOfTruth.Spec.Threads
import KernelOfTruth.Threads
import KernelOfTruth.Spec.Elf
import KernelOfTruth.Elf
import KernelOfTruth.ModuleBounds
import KernelOfTruth.Spec.Symbols
import KernelOfTruth.Symbols
import KernelOfTruth.Spec.Relocation
import KernelOfTruth.Relocation
import KernelOfTruth.Spec.ModuleInit
import KernelOfTruth.ModuleCalls
import KernelOfTruth.Spec.ModuleRollback
import KernelOfTruth.ModuleRollback
import KernelOfTruth.ProcessFailure
import KernelOfTruth.ModulePermissions
import KernelOfTruth.ElfNames
import KernelOfTruth.Spec.RelocationBounds
import KernelOfTruth.RelocationBounds
import KernelOfTruth.Code.Random
import KernelOfTruth.Spec.Random
import KernelOfTruth.Random
import KernelOfTruth.Code.Mt19937
import KernelOfTruth.Spec.Mt19937
import KernelOfTruth.Mt19937
import KernelOfTruth.Code.Entropy
import KernelOfTruth.Spec.Entropy
import KernelOfTruth.Entropy
import KernelOfTruth.Code.Vga
import KernelOfTruth.Spec.Console
import KernelOfTruth.Console
import KernelOfTruth.Code.Cmos
import KernelOfTruth.Spec.Clock
import KernelOfTruth.Clock
import KernelOfTruth.PageRemoval
import KernelOfTruth.Code.PageTableClone
import KernelOfTruth.Spec.PageTableClone
import KernelOfTruth.PageTableClone
import KernelOfTruth.WindowWalk
import KernelOfTruth.Memmove
import KernelOfTruth.Comparison
import KernelOfTruth.Code.SortedList
import KernelOfTruth.SortedList
import KernelOfTruth.Bitmap
import KernelOfTruth.Sha512
import KernelOfTruth.Isr
import KernelOfTruth.Interrupts
import KernelOfTruth.Boot
import KernelOfTruth.Code.Ref10.Field
import KernelOfTruth.Lib.Slices
import KernelOfTruth.Ref10.Bytes
