import KernelOfTruth.Code.Types

/-!
# `insert_regions` of `kernel/core/physical_allocator.c`

The boot loader says which memory there is, and which modules it has loaded. All available memory goes to
the physical allocator, but for the reserved regions: the boot map, which has the kernel, and the list of
modules and the modules. The functions that `insert_regions` calls are parameters.
-/

namespace KernelOfTruth.Code

structure MultibootModList where
  mod_start : BitVec 32
  mod_end : BitVec 32

structure MultibootMmapEntry where
  addr : Word
  len : Word
  type : BitVec 32

def MULTIBOOT_MEMORY_AVAILABLE : BitVec 32 := 1

/-- The tables of the boot loader, with the arrays that `mods_addr` and `mmap_addr` point to. -/
structure MultibootInfo where
  mods_addr : BitVec 32
  mods : List MultibootModList
  mmap : List MultibootMmapEntry

/-- `sizeof(struct multiboot_mod_list)`. -/
def multibootModSize : Word := 16

variable (img : KernelImage)

def Kernel_Image_Size : Word := img.kernel_end - img.kernel_start
def Kernel_Physical_Start : Word := 0x100000
def Kernel_Physical_End : Word := Kernel_Physical_Start + Kernel_Image_Size img
def Boot_Map_Start : Word := 0x001000
def Boot_Map_End : Word := Kernel_Physical_End img

structure ReservedRegion where
  start : Word
  end_ : Word
  deriving DecidableEq

def physical_region_contains (start_a end_a start_b end_b : Word) : Bool :=
  (start_b > start_a && start_b < end_a) || (end_b > start_a && end_b < end_a)

/-! ## The reserved regions -/

def bootMap : ReservedRegion := ⟨Boot_Map_Start, Boot_Map_End img⟩

/-- `mods_list_start` and `mods_list_end`. -/
def modsList (info : MultibootInfo) : ReservedRegion where
  start := align_as (info.mods_addr.setWidth 64) Page_Small
  end_ := round_next (info.mods_addr.setWidth 64 + BitVec.ofNat 64 info.mods.length * multibootModSize) Page_Small

/-- The end is rounded in 32 bits, the width of `mod_end`. -/
def moduleRegion (mod : MultibootModList) : ReservedRegion where
  start := mod.mod_start.setWidth 64
  end_ := ((mod.mod_end + 0xfff) &&& ~~~0xfff).setWidth 64

/-- The list of modules is inside the boot map, so that it needs no region of its own. -/
def modsListMapped (info : MultibootInfo) : Bool :=
  physical_region_contains Boot_Map_Start (Boot_Map_End img) (modsList info).start (modsList info).end_

/-- The array `reserved`. -/
def reservedRegions (info : MultibootInfo) : List ReservedRegion :=
  (if modsListMapped img info then [bootMap img]
   else if Boot_Map_Start < (modsList info).start then [bootMap img, modsList info]
   else [modsList info, bootMap img]) ++ info.mods.map moduleRegion

/-! ## The loops -/

section Insert

variable {σ : Type} (physical_free_range : Word → Word → Kernel σ Unit)

/-- The body of the inner loop for a region that the entry contains, with the region after it. The result
is what is left of the entry. -/
def carveRegion (r : ReservedRegion) (next : Option ReservedRegion) (addr len : Word) : Kernel σ (Word × Word) := do
  let mem_start := addr
  let mem_end := addr + len
  if r.start > mem_start then
    physical_free_range mem_start (r.start - mem_start)
  match next.filter fun n => physical_region_contains mem_start mem_end n.start n.end_ with
  | some n =>
    if r.end_ ≠ n.start then
      physical_free_range r.end_ (n.start - r.end_)
    pure (n.start, len - (n.start - r.start))
  | none =>
    if r.end_ < mem_end then
      physical_free_range r.end_ (mem_end - r.end_)
    pure (addr, len)

/-- The inner loop, with what is left of the entry and `inserted`. -/
def carveLoop : List ReservedRegion → Word → Word → Bool → Kernel σ (Word × Word × Bool)
  | [], addr, len, inserted => pure (addr, len, inserted)
  | r :: rs, addr, len, inserted =>
    if physical_region_contains addr (addr + len) r.start r.end_ then do
      let (addr, len) ← carveRegion physical_free_range r rs.head? addr len
      carveLoop rs addr len true
    else carveLoop rs addr len inserted

/-- The body of the outer loop. -/
def insertEntry (reserved : List ReservedRegion) (entry : MultibootMmapEntry) : Kernel σ Unit :=
  if entry.type = MULTIBOOT_MEMORY_AVAILABLE then do
    let (addr, len, inserted) ← carveLoop physical_free_range reserved entry.addr entry.len false
    if inserted then pure () else physical_free_range addr len
  else pure ()

def insertEntries (reserved : List ReservedRegion) : List MultibootMmapEntry → Kernel σ Unit
  | [] => pure ()
  | entry :: mmap => do
    insertEntry physical_free_range reserved entry
    insertEntries reserved mmap

def insert_regions (map_range : Word → Word → Nat → Word → Kernel σ Status)
    (unmap_range : Word → Nat → Bool → Kernel σ Unit) (info : MultibootInfo) : Kernel σ Unit := do
  let modules : Word := info.mods_addr.setWidth 64
  let pages := (((modsList info).end_ - (modsList info).start) / Page_Small).toNat
  if modsListMapped img info then
    insertEntries physical_free_range (reservedRegions img info) info.mmap
  else do
    let status ← map_range modules (modsList info).start pages Memory_No_Attributes
    assert "insert_regions" (status = .Ok)
    insertEntries physical_free_range (reservedRegions img info) info.mmap
    unmap_range modules pages false

end Insert

end KernelOfTruth.Code
