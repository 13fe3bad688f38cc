import KernelOfTruth.Code.Lock
import KernelOfTruth.Code.PhysicalAllocator
import KernelOfTruth.Code.RegionVector

/-!
# `kernel/core/slab.c`

The slab allocator hands out pages of kernel memory. Its region vector `slab_higher_half` says which
addresses are free, and takes the pages for its own nodes from there.
-/

namespace KernelOfTruth.Code

/-- The machine, the nodes of `slab_higher_half` by their addresses, and the variable `Usage`. -/
structure SlabState where
  machine : Machine
  nodes : Word → RegionVector
  Usage : Word

def onMachine {α : Type} (p : Kernel Machine α) : Kernel SlabState α :=
  Lib.zoom SlabState.machine (fun s m => { s with machine := m }) p

def slabNodes : NodeStore SlabState where
  read a := do
    if a = 0 then throw .page_fault
    return (← get).nodes a
  write a v := modify fun s => { s with nodes := Function.update s.nodes a v }

def slab_get_usage : Kernel SlabState Word := do return (← get).Usage

def addUsage (bytes : Word) : Kernel SlabState Unit := modify fun s => { s with Usage := s.Usage + bytes }

def subUsage (bytes : Word) : Kernel SlabState Unit := modify fun s => { s with Usage := s.Usage - bytes }

section Slab

-- `slab_higher_half` is the address of the variable, which is a page of the kernel image
variable (img : KernelImage) (slab_higher_half : Word)

/-! ## Pages with frames from the physical allocator -/

/-- The loop of `slab_alloc_helper`, after `i` pages, with `count` pages to go. The result is the last frame. -/
def slabAllocLoop (virt_address page_attributes : Word) (i : Nat) (next_virt_address phys : Word) (count : Nat) :
    Kernel SlabState Word :=
  match count with
  | 0 => pure phys
  | count + 1 => do
    let phys_address ← onMachine (physical_alloc img)
    assert "slab_alloc_helper" (phys_address ≠ invalid_phys_addr)
    let status ← onMachine (map_page (physical_alloc img) next_virt_address phys_address page_attributes)
    if status ≠ .Ok then
      onMachine (unmap_range (physical_free img) virt_address i true)
      assert "slab_alloc_helper" false
    slabAllocLoop virt_address page_attributes (i + 1) (next_virt_address + Page_Small) phys_address count

/-- The results are the address and the frame of the last page. The label `out` is not reached: an assertion fails
before each `goto out`. -/
def slab_alloc_helper (bytes page_attributes : Word) : Kernel SlabState (Word × Word) := do
  assert "slab_alloc_helper" (slab_higher_half ≠ 0)
  if !is_aligned bytes Page_Small then pure (0, 0)
  else
    match ← region_alloc slabNodes slab_higher_half bytes with
    | .error _ => pure (0, 0)
    | .ok virt_address => do
      let phys ← slabAllocLoop img virt_address page_attributes 0 virt_address 0 (bytes.toNat / Page_Small.toNat)
      subUsage bytes
      pure (virt_address, phys)

def slab_alloc_locked (bytes page_attributes : Word) : Kernel SlabState Word := do
  assert "slab_alloc_locked" (page_attributes &&& Memory_User_Access = 0)
  return (← slab_alloc_helper img slab_higher_half bytes page_attributes).1

def slab_alloc (bytes page_attributes : Word) : Kernel SlabState Word := do
  assert "slab_alloc" (page_attributes &&& Memory_User_Access = 0)
  return (← slab_alloc_helper img slab_higher_half bytes page_attributes).1

/-- The second result is what the variable at `phys` gets. -/
def slab_alloc_phys (phys page_attributes : Word) : Kernel SlabState (Word × Word) := do
  assert "slab_alloc_phys" (page_attributes &&& Memory_User_Access = 0)
  assert "slab_alloc_helper" (phys ≠ 0)
  slab_alloc_helper img slab_higher_half Page_Small page_attributes

/-- `region_free(&slab_higher_half, ..)` -/
def slabRegionFree (address size : Word) : Kernel SlabState Unit :=
  region_free slabNodes (slab_alloc_locked img slab_higher_half) slab_higher_half address size

def slab_free_helper (bytes address : Word) (free_phys : Bool) : Kernel SlabState Unit :=
  if address = 0 then pure ()
  else do
    onMachine (unmap_range (physical_free img) address (bytes.toNat / Page_Small.toNat) free_phys)
    addUsage bytes
    slabRegionFree img slab_higher_half address bytes

def slab_free (bytes address : Word) : Kernel SlabState Unit := do
  assert "slab_free" (!memory_is_lower_half address)
  slab_free_helper img slab_higher_half bytes address true

def slab_free_virt (bytes address : Word) : Kernel SlabState Unit := do
  assert "slab_free_virt" (!memory_is_lower_half address)
  slab_free_helper img slab_higher_half bytes address false

def slab_free_locked (bytes address : Word) : Kernel SlabState Unit := do
  assert "slab_free_locked" (!memory_is_lower_half address)
  slab_free_helper img slab_higher_half bytes address true

/-! ## Pages with frames that the caller names -/

/-- The two functions below differ in how they find room. -/
def requestPhysical (room : Kernel SlabState (Except Status Word)) (phys size attrs : Word) :
    Kernel SlabState Word :=
  if !is_aligned size Page_Small then pure 0
  else if size = 0 then pure 0
  else do
    match ← room with
    | .error _ => pure 0
    | .ok virt_address => do
      let status ← onMachine (map_range (physical_alloc img) (physical_free img) virt_address phys
        (size.toNat / Page_Small.toNat) attrs)
      if status ≠ .Ok then
        slabRegionFree img slab_higher_half virt_address size
        pure 0
      else do
        subUsage size
        pure virt_address

def slab_alloc_request_physical (phys size attrs : Word) : Kernel SlabState Word :=
  requestPhysical img slab_higher_half (region_alloc slabNodes slab_higher_half size) phys size attrs

/-- `randoms` are the numbers that `random_number` returns. -/
def slab_alloc_request_physical_random (randoms : List Word) (phys size attrs : Word) : Kernel SlabState Word :=
  requestPhysical img slab_higher_half
    (do
      assert "region_alloc_random" (slab_higher_half ≠ 0)
      region_alloc_random slabNodes (slab_alloc_locked img slab_higher_half) slab_higher_half size
        (randoms.take Region_Vector_Max_Random_Addresses))
    phys size attrs

/-! ## The start -/

def slab_init : Kernel SlabState Unit := do
  region_vector_init slabNodes slab_higher_half
  let address := Kernel_Virtual_End img
  addUsage (Kernel_Virtual_Start img - Kernel_Memory_Start)
  slabRegionFree img slab_higher_half address (Kernel_Virtual_Start img - Kernel_Memory_Start)
  addUsage (Higher_Half_End - Kernel_Virtual_End img)
  slabRegionFree img slab_higher_half address (Higher_Half_End - Kernel_Virtual_End img)

end Slab

/-! ## The lock

The functions above are what is done while `slab_higher_half_lock` is held. -/

structure LockedSlab where
  slab : SlabState
  slab_higher_half_lock : Lock

def underLock {α : Type} (p : Kernel SlabState α) : Kernel LockedSlab α := do
  let onLock := Lib.zoom LockedSlab.slab_higher_half_lock (fun s lock => { s with slab_higher_half_lock := lock })
  onLock lock_acquire_writer
  let result ← Lib.zoom LockedSlab.slab (fun s slab => { s with slab := slab }) p
  onLock lock_release_writer
  pure result

/-- The size is looked at before the lock is taken. -/
def LockedSlab.slab_alloc_request_physical (img : KernelImage) (slab_higher_half phys size attrs : Word) :
    Kernel LockedSlab Word :=
  if !is_aligned size Page_Small then pure 0
  else if size = 0 then pure 0
  else underLock (Code.slab_alloc_request_physical img slab_higher_half phys size attrs)

end KernelOfTruth.Code
