import KernelOfTruth.Code.Heap
import KernelOfTruth.Code.Paging

/-!
# `page_table_init` of `kernel/arch/x64/paging.c`

The record is in the heap, and the table itself in a page that is mapped only while it is filled.
-/

namespace KernelOfTruth.Code

variable {σ : Type}

/-- What `page_table_init` calls of the slab allocator. The results of `slab_alloc_phys` are the address and what the
variable at `phys` gets, if the address is not null. -/
structure FrameServices (σ : Type) where
  slab_alloc_phys : Word → Word → Kernel (HeapState σ) (Word × Word)
  slab_free_virt : Word → Word → Kernel (HeapState σ) Unit

/-- `sizeof(struct page_table)` -/
def pageTableSize : Word := 8

def pl4_Count : Word := 512

variable (nodes : NodeStore σ) (slab_alloc_locked : Word → Word → Kernel σ Word) (frames : FrameServices σ)

/-- The lower half of the new table is empty, the upper one is that of the current table, but for the entry that maps the
table itself. -/
def fillTable (pt pl4 : Word) : Kernel Memory Unit := do
  Memory.memset (Page_Small.toNat / 2) pl4 0
  Memory.memcpy (Page_Small.toNat / 2) (entryAddress pl4 (pl4_Count / 2)) (entryAddress get_pl4 (pl4_Count / 2))
  let physical_address ← Memory.load 8 pt
  Memory.store 8 (entryAddress pl4 (Kernel_Fractal_Page_Table_Index.setWidth 64))
    (physical_address ||| Memory_Writable ||| Memory_Present)

def page_table_init : Kernel (HeapState σ) Word := do
  -- the result is not compared with null
  let pt ← kmalloc nodes slab_alloc_locked pageTableSize
  let (pl4, physical_address) ← frames.slab_alloc_phys pt Memory_Writable
  if pl4 = 0 then pure 0
  else do
    onMem (Memory.store 8 pt physical_address)
    onMem (fillTable pt pl4)
    frames.slab_free_virt Page_Small pl4
    pure pt

end KernelOfTruth.Code
