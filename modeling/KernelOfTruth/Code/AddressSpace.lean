import KernelOfTruth.Code.PhysicalAllocator

/-!
# The functions of `kernel/arch/x64/paging.c` that deal with more than one page table

A page table is named by the frame of its root, which is what the page table register holds.
-/

namespace KernelOfTruth.Code

def read_cr3 : Kernel Machine Word := do return (← get).cr3

def write_cr3 (phys_address : Word) : Kernel Machine Unit := modify fun m => { m with cr3 := phys_address }

def page_table_switch (physical_address : Word) : Kernel Machine Unit := write_cr3 physical_address

variable (img : KernelImage)

/-! ## Pages of a page table that need not be the current one -/

def map_external_page (page_table virtual_address phys_address permissions : Word) : Kernel Machine Status := do
  let original_paging ← read_cr3
  write_cr3 page_table
  let status ← map_page (physical_alloc img) virtual_address phys_address permissions
  write_cr3 original_paging
  pure status

def unmap_external_page (page_table virtual_address : Word) (free_physical_memory : Bool) : Kernel Machine Unit := do
  let original_paging ← read_cr3
  write_cr3 page_table
  unmap_page (physical_free img) virtual_address free_physical_memory
  write_cr3 original_paging

end KernelOfTruth.Code
