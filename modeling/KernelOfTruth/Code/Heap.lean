import KernelOfTruth.Code.RegionVector
import KernelOfTruth.Code.Strings

/-!
# `kernel/core/heap.c`

The heap is one block of memory from the slab allocator. Two region vectors say which parts of it are
used and which are free. Each block has a red zone of 8 bytes before and after the part that the client
gets.
-/

namespace KernelOfTruth.Code

def Heap_Red_Zone_Size : Word := 8
def Heap_Red_Zone_Fill : Word := 0xcccccccccccccccc
def Heap_Size : Word := 16 * Page_Small

/-- The variables of `heap.c`, the memory that holds region vectors, and all other memory by bytes. -/
structure HeapState (σ : Type) where
  vectors : σ
  mem : Word → Option Byte
  heap_metadata_used : Word
  heap_metadata_free : Word
  heap : Word
  Used : Word

section Memory

variable {σ : Type}

def onVectors {α : Type} (p : Kernel σ α) : Kernel (HeapState σ) α :=
  Lib.zoom HeapState.vectors (fun s v => { s with vectors := v }) p

def onMem {α : Type} (p : Kernel Memory α) : Kernel (HeapState σ) α :=
  Lib.zoom HeapState.mem (fun s m => { s with mem := m }) p

def loadByte (address : Word) : Kernel (HeapState σ) Byte := do
  match (← get).mem address with
  | some b => pure b
  | none => throw .page_fault

def storeByte (address : Word) (b : Byte) : Kernel (HeapState σ) Unit := do
  let _ ← loadByte address
  modify fun s => { s with mem := Function.update s.mem address (some b) }

/-- A load of 8 bytes, the lowest byte first. -/
def loadLong (address : Word) : Kernel (HeapState σ) Word := do
  let b0 ← loadByte address
  let b1 ← loadByte (address + 1)
  let b2 ← loadByte (address + 2)
  let b3 ← loadByte (address + 3)
  let b4 ← loadByte (address + 4)
  let b5 ← loadByte (address + 5)
  let b6 ← loadByte (address + 6)
  let b7 ← loadByte (address + 7)
  return b7 ++ b6 ++ b5 ++ b4 ++ b3 ++ b2 ++ b1 ++ b0

def memset (buffer value : Word) : Nat → Kernel (HeapState σ) Unit
  | 0 => pure ()
  | size + 1 => do
    storeByte buffer (value.setWidth 8)
    memset (buffer + 1) value size

end Memory

variable {σ : Type} (nodes : NodeStore σ) (slab_alloc_locked : Word → Word → Kernel σ Word)
  (slab_free_locked : Word → Word → Kernel σ Unit)

def heap_get_usage : Kernel (HeapState σ) Word := do return (← get).Used

section Init

variable (slab_alloc : Word → Word → Kernel (HeapState σ) Word)
  (slab_free : Word → Word → Kernel (HeapState σ) Unit)

/-- The rest of `heap_init`, after the three calls of `slab_alloc`. -/
def initMetadata : Kernel (HeapState σ) Status := do
  let s ← get
  onVectors (region_vector_init nodes s.heap_metadata_used)
  onVectors (region_vector_init nodes s.heap_metadata_free)
  onVectors (region_free nodes slab_alloc_locked s.heap_metadata_free s.heap Heap_Size)
  memset s.heap Heap_Red_Zone_Fill Heap_Size.toNat
  pure .Ok

def heap_init : Kernel (HeapState σ) Status := do
  let used ← slab_alloc Page_Small Memory_Writable
  modify fun s => { s with heap_metadata_used := used }
  if used = 0 then do
    assert "heap_init" false
    pure .Error_No_Memory
  else do
    let free ← slab_alloc Page_Small Memory_Writable
    modify fun s => { s with heap_metadata_free := free }
    if free = 0 then do
      slab_free Page_Small used
      assert "heap_init" false
      pure .Error_No_Memory
    else do
      let heap ← slab_alloc Heap_Size (Memory_Writable ||| Memory_No_Execute)
      modify fun s => { s with heap := heap }
      if heap = 0 then do
        slab_free Page_Small used
        slab_free Page_Small free
        assert "heap_init" false
        pure .Error_No_Memory
      else initMetadata nodes slab_alloc_locked

end Init

/-- The loop of `kmalloc` that checks that a new block still has the fill pattern. -/
def checkFill (chunk : Word) : Nat → Kernel (HeapState σ) Unit
  | 0 => pure ()
  | count + 1 => do
    assert "kmalloc" ((← loadLong chunk) = Heap_Red_Zone_Fill)
    checkFill (chunk + 8) count

/-- The rest of `kmalloc`, after `region_alloc` has found room at `address`. -/
def takeBlock (bytes allocation_size address : Word) : Kernel (HeapState σ) Word := do
  onVectors (region_free nodes slab_alloc_locked (← get).heap_metadata_used address allocation_size)
  checkFill address (allocation_size.toNat / 8)
  let heap := (← get).heap
  assert "kmalloc" (address < heap + Heap_Size)
  assert "kmalloc" (address ≥ heap)
  assert "kmalloc" (address + bytes > heap)
  assert "kmalloc" (address + bytes ≤ heap + Heap_Size)
  modify fun s => { s with Used := s.Used + allocation_size }
  pure (address + Heap_Red_Zone_Size)

def kmalloc (bytes : Word) : Kernel (HeapState σ) Word := do
  let allocation_size := bytes + 2 * Heap_Red_Zone_Size
  match ← onVectors (region_alloc nodes (← get).heap_metadata_free allocation_size) with
  | .error _ => pure 0
  | .ok address => takeBlock nodes slab_alloc_locked bytes allocation_size address

/-- The copy has the length of the new block, which may be more than the old one has. -/
def krealloc (ptr size : Word) : Kernel (HeapState σ) Word :=
  if ptr = 0 then pure 0
  else do
    let new_mem ← kmalloc nodes slab_alloc_locked size
    if new_mem = 0 then pure 0
    else do
      onMem (Memory.memcpy size.toNat new_mem ptr)
      pure new_mem

def kcalloc (count size : Word) : Kernel (HeapState σ) Word := do
  let address ← kmalloc nodes slab_alloc_locked (count * size)
  if address = 0 then pure 0
  else do
    memset address 0 (count * size).toNat
    pure address

/-- The checks of `kfree` on the block that starts at `addr`. -/
def checkBlock (addr size : Word) : Kernel (HeapState σ) Unit := do
  assert "kfree" ((← loadLong addr) = Heap_Red_Zone_Fill)
  assert "kfree" ((← loadLong (addr + size - Heap_Red_Zone_Size)) = Heap_Red_Zone_Fill)
  let heap := (← get).heap
  assert "kfree" (addr ≥ heap)
  assert "kfree" (addr < heap + Heap_Size)
  assert "kfree" (addr + size > heap)
  assert "kfree" (addr + size ≤ heap + Heap_Size)

def kfree (ptr : Word) : Kernel (HeapState σ) Unit :=
  if ptr = 0 then pure ()
  else do
    let addr := ptr - Heap_Red_Zone_Size
    let size ← onVectors (region_find_size_and_free nodes slab_free_locked (← get).heap_metadata_used addr)
    checkBlock addr size
    memset addr Heap_Red_Zone_Fill size.toNat
    modify fun s => { s with Used := s.Used - size }
    onVectors (region_free nodes slab_alloc_locked (← get).heap_metadata_free addr size)

end KernelOfTruth.Code
