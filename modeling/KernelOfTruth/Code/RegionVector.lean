import KernelOfTruth.Code.Types
import Mathlib.Logic.Function.Basic

/-!
# `kernel/core/region_vector.c`

A region vector is a linked list of pages, each with an array of regions. The pages come from the slab
allocator, which keeps a region vector itself. So `slab_alloc_locked` and `slab_free_locked` are
arguments here.
-/

namespace KernelOfTruth.Code

structure Region where
  address : Word
  size : Word
  deriving DecidableEq, Repr

structure RegionVector where
  regions_used : Nat
  next : Word
  regions : Nat → Region

/-- As many regions as fit into a page, after `regions_used` and `next`. -/
def regions_count : Nat := (Page_Small.toNat - 16) / 16

/-- How the nodes of region vectors are read from and written to memory. -/
structure NodeStore (σ : Type) where
  read : Word → Kernel σ RegionVector
  write : Word → RegionVector → Kernel σ Unit

/-- No list of nodes at different addresses is longer. -/
def maxNodes : Nat := 2 ^ 64

/-- `for (i = 0; i < v->regions_used && i < regions_count; ++i)`, up to the first region with `p`. -/
def RegionVector.find (v : RegionVector) (p : Region → Bool) : Option Nat :=
  (List.range (min v.regions_used regions_count)).find? fun i => p (v.regions i)

/-- `v->regions[i] = r` -/
def RegionVector.set (v : RegionVector) (i : Nat) (r : Region) : RegionVector :=
  { v with regions := Function.update v.regions i r }

variable {σ : Type} (nodes : NodeStore σ)

def region_vector_init (vect : Word) : Kernel σ Unit := do
  let v ← nodes.read vect
  nodes.write vect { v with next := 0, regions_used := 0 }

/-- The `while` loop of `region_vector_fini`, in which `prev` stays as it is. -/
def regionFiniLoop (slab_free : Word → Word → Kernel σ Unit) (prev : Word) : Nat → Word → Kernel σ Unit
  | 0, _ => throw .diverge
  | fuel + 1, vect =>
    if vect = 0 then pure () else do
    let v ← nodes.read prev
    slab_free Page_Small prev
    regionFiniLoop slab_free prev fuel v.next

/-- No list of nodes at different addresses needs more rounds. -/
def region_vector_fini (slab_free : Word → Word → Kernel σ Unit) (vect : Word) : Kernel σ Unit :=
  regionFiniLoop nodes slab_free vect maxNodes vect

/-! ## `region_alloc` -/

/-- The node after the first `size` bytes of region `i` have been taken. -/
def RegionVector.takeFront (v : RegionVector) (i : Nat) (size : Word) : RegionVector :=
  let r := v.regions i
  let new_size := r.size - size
  if new_size = 0 then
    let v' := { v with regions_used := v.regions_used - 1 }
    if i ≠ v'.regions_used then v'.set i (v.regions v'.regions_used) else v'
  else v.set i ⟨r.address + size, new_size⟩

def regionAllocLoop (size : Word) : Nat → Word → Kernel σ (Except Status Word)
  | 0, _ => throw .diverge
  | fuel + 1, vect => do
    let v ← nodes.read vect
    match v.find fun r => size < r.size with
    | some i => do
      nodes.write vect (v.takeFront i size)
      pure (.ok (v.regions i).address)
    | none => if v.next = 0 then pure (.error .Error_No_Memory) else regionAllocLoop size fuel v.next

def region_alloc (vect size : Word) : Kernel σ (Except Status Word) := do
  assert "region_alloc" (vect ≠ 0)
  regionAllocLoop nodes size maxNodes vect

/-! ## `region_find_size_and_free` -/

section Find

variable (slab_free_locked : Word → Word → Kernel σ Unit)

/-- The body of the inner loop, for region `i` of the node `cur`. -/
def removeRegion (prev cur : Word) (v : RegionVector) (i : Nat) : Kernel σ Unit := do
  let v' := { v with regions_used := v.regions_used - 1 }
  if v'.regions_used ≠ 0 then nodes.write cur (v'.set i (v'.regions v'.regions_used))
  else do
    nodes.write cur v'
    if prev ≠ 0 then
      nodes.write prev { (← nodes.read prev) with next := v'.next }
      slab_free_locked Page_Small cur

def regionFindLoop (address : Word) : Nat → Word → Word → Kernel σ Word
  | 0, _, _ => throw .diverge
  | fuel + 1, prev, cur => do
    let v ← nodes.read cur
    match v.find fun r => r.address = address with
    | some i => do
      removeRegion nodes slab_free_locked prev cur v i
      pure (v.regions i).size
    | none => if v.next = 0 then pure 0 else regionFindLoop address fuel cur v.next

def region_find_size_and_free (vect address : Word) : Kernel σ Word :=
  regionFindLoop nodes slab_free_locked address maxNodes 0 vect

end Find

/-! ## `region_free` -/

section Free

variable (slab_alloc_locked : Word → Word → Kernel σ Word)

def extend_vector : Kernel σ Word := do
  let new ← slab_alloc_locked Page_Small Memory_Writable
  if new = 0 then pure 0
  else do
    let v ← nodes.read new
    nodes.write new { v with regions_used := 0, next := 0 }
    pure new

/-- Store the region in the first node with room. If there is none, return the last node. -/
def regionFreeLoop (r : Region) : Nat → Word → Kernel σ (Option Word)
  | 0, _ => throw .diverge
  | fuel + 1, cur => do
    let v ← nodes.read cur
    if v.regions_used ≠ regions_count then do
      nodes.write cur { v.set v.regions_used r with regions_used := v.regions_used + 1 }
      pure none
    else if v.next = 0 then pure (some cur)
    else regionFreeLoop r fuel v.next

/-- The rest of `region_free`, after the loop has come to the last node `prev`. -/
def appendNode (prev : Word) (r : Region) : Kernel σ Unit := do
  let new ← extend_vector nodes slab_alloc_locked
  assert "region_free" (new ≠ 0)
  nodes.write prev { (← nodes.read prev) with next := new }
  let v ← nodes.read new
  nodes.write new { v.set 0 r with regions_used := 1 }

def region_free (vect address size : Word) : Kernel σ Unit := do
  match ← regionFreeLoop nodes ⟨address, size⟩ maxNodes vect with
  | none => pure ()
  | some prev => appendNode nodes slab_alloc_locked prev ⟨address, size⟩

/-! ## `region_alloc_random` -/

def Region_Vector_Max_Random_Addresses : Nat := 5

def Memory_Kernel_Set_Mask : Word := 0xffffffff80000000

/-- `random_address(true, Page_Small)`, when `random_number` returns `random`. -/
def random_address (random : Word) : Word := align_as random Page_Small ||| Memory_Kernel_Set_Mask

/-- The random address is in this region. -/
def Region.has (r : Region) (addr : Word) : Bool :=
  r.address ≤ addr && r.address + r.size ≥ addr && r.address != 0

/-- What is left of region `i` of the node `v`, after `size` bytes at `addr` have been taken from it. The first part
of the result is the node, the second one a region that is to be inserted. -/
def RegionVector.takeAt (v : RegionVector) (i : Nat) (addr size : Word) : RegionVector × Option Region :=
  let r := v.regions i
  let prefix_size := addr - r.address
  let suffix_size := r.size - prefix_size - size
  if suffix_size = 0 then (v.set i ⟨r.address, r.size - size⟩, none)
  else if addr ≠ r.address then (v.set i ⟨r.address + size, suffix_size⟩, none)
  else (v.set i ⟨r.address, prefix_size⟩, some ⟨addr + size, suffix_size⟩)

/-- One random address, from the node `cur` on. The result is `false` when no region had the address. -/
def regionRandomLoop (vect addr size : Word) : Nat → Word → Kernel σ Bool
  | 0, _ => throw .diverge
  | fuel + 1, cur => do
    let v ← nodes.read cur
    match v.find fun r => r.has addr with
    | some i =>
      let r := v.regions i
      if r.size - (addr - r.address) < size then do
        -- only the inner loop is left, and then `v->next` is read through a null pointer
        let next := (← nodes.read 0).next
        if next = 0 then pure false else regionRandomLoop vect addr size fuel next
      else do
        let (v', suffix) := v.takeAt i addr size
        nodes.write cur v'
        match suffix with
        | none => pure true
        | some s => do
          region_free nodes slab_alloc_locked vect s.address s.size
          pure true
    | none => if v.next = 0 then pure false else regionRandomLoop vect addr size fuel v.next

def region_alloc_random (vect size : Word) : List Word → Kernel σ (Except Status Word)
  | [] => pure (.error .Error_No_Memory)
  | random :: randoms => do
    if ← regionRandomLoop nodes slab_alloc_locked vect (random_address random) size maxNodes vect then
      pure (.ok (random_address random))
    else region_alloc_random vect size randoms

end Free

end KernelOfTruth.Code
