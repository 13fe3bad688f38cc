import KernelOfTruth.Code.AddressSpace
import KernelOfTruth.Code.PageTable
import KernelOfTruth.Code.Slab

/-!
# `page_table_clone` and `page_table_fini` of `kernel/arch/x64/paging.c`

The record of a page table is in the memory of the kernel, and holds the frame of the root. Tables are read through the
window, and the tables and pages of the copy are written where the slab allocator maps them.
-/

namespace KernelOfTruth.Code

def page_entry_clone (new_entry old_entry : Word) : Word := old_entry &&& ~~~Phys_Addr_Mask ||| new_entry

def virt_from_indices (i4 i3 i2 i1 : Word) : Word := i4 <<< 39 ||| i3 <<< 30 ||| i2 <<< 21 ||| i1 <<< 12

/-- `memcpy` of so many words. -/
def copyWords (destination source : Word) : Nat → Kernel Machine Unit
  | 0 => pure ()
  | n + 1 => do
    store destination (← load source)
    copyWords (destination + 8) (source + 8) n

def isPresent (table i : Word) : Kernel Machine Bool := do return present (← load (entryAddress table i))

section Fini

variable (img : KernelImage) (kfree : Word → Kernel SlabState Unit)

/-- The loop over the entries of a table from `i` on. What is `below` an entry is freed before its frame. -/
def freeEntries (table : Word) (below : Word → Kernel Machine Unit) (i : Word) : Nat → Kernel Machine Unit
  | 0 => pure ()
  | n + 1 => do
    if ← isPresent table i then
      below i
      physical_free img (page_entry_to_phys (← load (entryAddress table i)))
    freeEntries table below (i + 1) n

def page_table_fini (pt : Word) : Kernel SlabState Unit := do
  let original_pt ← onMachine read_cr3
  onMachine (do page_table_switch (← load pt))
  onMachine <|
    freeEntries img get_pl4 (fun i4 =>
      freeEntries img (get_pl3_index i4) (fun i3 =>
        freeEntries img (get_pl2_index i4 i3) (fun i2 =>
          freeEntries img (get_pl1_index i4 i3 i2) (fun _ => pure ()) 0 512) 0 512) 0 512) 0 256
  onMachine (page_table_switch original_pt)
  onMachine (do physical_free img (page_entry_to_phys (← load pt)))
  kfree pt

end Fini

section Clone

-- `phys` is the address of a variable of `page_table_clone`, which is on the stack of the kernel
variable (img : KernelImage) (slab_higher_half phys : Word)

/-- A loop over the entries from `i` on that are present. The body may change a variable, and `none` is `goto err`. -/
def cloneEntries {α : Type} (table : Word) (body : Word → α → Kernel SlabState (Option α)) (i : Word) (x : α) :
    Nat → Kernel SlabState (Option α)
  | 0 => pure (some x)
  | n + 1 => do
    if ← onMachine (isPresent table i) then
      match ← body i x with
      | some x => cloneEntries table body (i + 1) x n
      | none => pure none
    else cloneEntries table body (i + 1) x n

/-- A new page stands for entry `i` in the copy. Its address is in a variable that `fill` may change. -/
def cloneEntry (table clone i : Word) (fill : Word → Kernel SlabState (Option Word)) :
    Kernel SlabState (Option Unit) := do
  let (page, new_phys) ← slab_alloc_phys img slab_higher_half phys (Memory_Writable ||| Memory_User_Access)
  if page = 0 then pure none
  else do
    let entry ← onMachine (load (entryAddress table i))
    onMachine (store (entryAddress clone i) (page_entry_clone new_phys entry))
    match ← fill page with
    | none => pure none
    | some page => do
      slab_free_virt img slab_higher_half Page_Small page
      pure (some ())

def clonePage (i4 i3 i2 level_one_clone i1 : Word) : Kernel SlabState (Option Unit) :=
  cloneEntry img slab_higher_half phys (get_pl1_index i4 i3 i2) level_one_clone i1 fun page_clone => do
    onMachine (copyWords page_clone (virt_from_indices i4 i3 i2 i1) 512)
    pure (some page_clone)

def cloneLevelOne (i4 i3 level_two_clone i2 : Word) : Kernel SlabState (Option Unit) :=
  cloneEntry img slab_higher_half phys (get_pl2_index i4 i3) level_two_clone i2 fun level_one_clone => do
    let done ← cloneEntries (get_pl1_index i4 i3 i2)
      (fun i1 _ => clonePage img slab_higher_half phys i4 i3 i2 level_one_clone i1) 0 () 512
    pure (done.map fun _ => level_one_clone)

/-- `level_two_clone` is null after the first table below it. -/
def cloneLevelTwo (i4 level_three_clone i3 : Word) : Kernel SlabState (Option Unit) :=
  cloneEntry img slab_higher_half phys (get_pl3_index i4) level_three_clone i3 fun level_two_clone =>
    cloneEntries (get_pl2_index i4 i3)
      (fun i2 level_two_clone => do
        let done ← cloneLevelOne img slab_higher_half phys i4 i3 level_two_clone i2
        pure (done.map fun _ => 0)) 0 level_two_clone 512

def cloneLevelThree (level_four_clone i4 : Word) : Kernel SlabState (Option Unit) :=
  cloneEntry img slab_higher_half phys get_pl4 level_four_clone i4 fun level_three_clone => do
    let done ← cloneEntries (get_pl3_index i4)
      (fun i3 _ => cloneLevelTwo img slab_higher_half phys i4 level_three_clone i3) 0 () 512
    pure (done.map fun _ => level_three_clone)

variable (kmalloc : Word → Kernel SlabState Word) (kfree : Word → Kernel SlabState Unit)

/-- The label `err`. The loops declare variables of the same names again, so that the last three are still null. -/
def cloneFailed (original_phys pt_clone level_four_clone : Word) : Kernel SlabState Word := do
  onMachine (page_table_switch original_phys)
  page_table_fini img kfree pt_clone
  slab_free_virt img slab_higher_half Page_Small level_four_clone
  slab_free_virt img slab_higher_half Page_Small 0
  slab_free_virt img slab_higher_half Page_Small 0
  slab_free_virt img slab_higher_half Page_Small 0
  pure 0

def page_table_clone (pt : Word) : Kernel SlabState Word := do
  let original_phys ← onMachine read_cr3
  onMachine (do page_table_switch (← load pt))
  let pt_clone ← kmalloc pageTableSize
  if pt_clone = 0 then cloneFailed img slab_higher_half kfree original_phys pt_clone 0
  else do
    let (level_four_clone, new_phys) ←
      slab_alloc_phys img slab_higher_half phys (Memory_Writable ||| Memory_User_Access)
    if level_four_clone = 0 then cloneFailed img slab_higher_half kfree original_phys pt_clone 0
    else do
      onMachine (store pt_clone new_phys)
      -- half as many bytes as a table has entries, to an address four pages on
      onMachine (copyWords (entryAddress level_four_clone (Page_Small / 2)) get_pl4 (pl4_Count.toNat / 2 / 8))
      match ← cloneEntries level_four_clone
          (fun i4 _ => cloneLevelThree img slab_higher_half phys level_four_clone i4) 0 () (pl4_Count.toNat / 2) with
      | none => cloneFailed img slab_higher_half kfree original_phys pt_clone level_four_clone
      | some () => do
        slab_free_virt img slab_higher_half Page_Small level_four_clone
        onMachine (page_table_switch original_phys)
        pure pt_clone

end Clone

end KernelOfTruth.Code
