import KernelOfTruth.Code.Mmu

/-!
# `kernel/arch/x64/paging.c`

`map_page` calls `physical_alloc` and `unmap_page` calls `physical_free`, and both of these call
back to map the pivot page. So the two are arguments here, and
`KernelOfTruth.Code.PhysicalAllocator` ties the knot.
-/

namespace KernelOfTruth.Code

/-! ## Indices and the recursive window -/

def pl4_index (address : Word) : Word := address >>> 39 &&& 0o777
def pl3_index (address : Word) : Word := address >>> 30 &&& 0o777
def pl2_index (address : Word) : Word := address >>> 21 &&& 0o777
def pl1_index (address : Word) : Word := address >>> 12 &&& 0o777

def get_pl4 : Word := 0o1777774004004004000000

def get_pl3_index (pl4_index : Word) : Word := 0o1777774004004000000000 ||| pl4_index <<< 12

def get_pl2_index (pl4_index pl3_index : Word) : Word :=
  0o1777774004000000000000 ||| pl4_index <<< 21 ||| pl3_index <<< 12

def get_pl1_index (pl4_index pl3_index pl2_index : Word) : Word :=
  0o1777774000000000000000 ||| pl4_index <<< 30 ||| pl3_index <<< 21 ||| pl2_index <<< 12

def get_pl3 (address : Word) : Word := get_pl3_index (pl4_index address)
def get_pl2 (address : Word) : Word := get_pl2_index (pl4_index address) (pl3_index address)
def get_pl1 (address : Word) : Word :=
  get_pl1_index (pl4_index address) (pl3_index address) (pl2_index address)

/-- `&table[index]`. -/
def entryAddress (table index : Word) : Word := table + 8 * index

/-- Entry 256 of `init_pl4`, which `_start` in `boot.S` writes in two halves. -/
def boot_fractal_entry (init_pl4 : BitVec 32) : Word :=
  let Page_Present : BitVec 32 := 1 <<< 0
  let Page_Write : BitVec 32 := 1 <<< 1
  let Page_Execute_Disable_High : BitVec 32 := 1 <<< 31
  (init_pl4 + (Page_Write ||| Page_Present)).setWidth 64 ||| Page_Execute_Disable_High.setWidth 64 <<< 32

def is_pl3_present (pl4 address : Word) : Kernel Machine Bool := do
  return present (← load (entryAddress pl4 (pl4_index address)))

def is_pl2_present (level_three address : Word) : Kernel Machine Bool := do
  return present (← load (entryAddress level_three (pl3_index address)))

def is_pl1_present (level_two address : Word) : Kernel Machine Bool := do
  return present (← load (entryAddress level_two (pl2_index address)))

def is_Memory_Present (level_one address : Word) : Kernel Machine Bool := do
  return present (← load (entryAddress level_one (pl1_index address)))

/-! ## One page -/

/-- Any even number will do. -/
def free_page_entry : Word := 0xcccccccccccccc

/-- `Memory_Writable` implies no execution. The higher levels of the page table need this one. -/
def Memory_Just_Writable : Word := 1 <<< 1

/-- The check at the top of `map_page` and `map_update_page`. -/
def permissionsRefused (virtual_address permissions : Word) : Bool :=
  (permissions &&& Memory_Writable != 0 && permissions &&& Memory_No_Execute == 0) ||
  (!memory_is_lower_half virtual_address && permissions &&& Memory_User_Access != 0)

/-- One of the three blocks of `map_page` that link a table that is missing: `entry` is the address of
the entry above it and `table` the address of the table itself. -/
def linkTable (physical_alloc : Kernel Machine Word) (entry table : Word) (is_present : Bool) :
    Kernel Machine Status :=
  if is_present then pure .Ok
  else do
    let phys_address ← physical_alloc
    if phys_address = invalid_phys_addr then pure .Error_No_Memory
    else do
      store entry (phys_address ||| Memory_Just_Writable ||| Memory_User_Access ||| Memory_Present)
      clear_page table
      pure .Ok

def map_page (physical_alloc : Kernel Machine Word) (virtual_address phys_address permissions : Word) :
    Kernel Machine Status :=
  if permissionsRefused virtual_address permissions then pure .Error_Permissions
  else
    let phys_address := phys_address &&& ~~~Memory_Permissions_Mask
    let pl4 := get_pl4
    let level_three := get_pl3 virtual_address
    let level_two := get_pl2 virtual_address
    let level_one := get_pl1 virtual_address
    bubble (do linkTable physical_alloc (entryAddress pl4 (pl4_index virtual_address)) level_three
                (← is_pl3_present pl4 virtual_address)) <|
    bubble (do linkTable physical_alloc (entryAddress level_three (pl3_index virtual_address)) level_two
                (← is_pl2_present level_three virtual_address)) <|
    bubble (do linkTable physical_alloc (entryAddress level_two (pl2_index virtual_address)) level_one
                (← is_pl1_present level_two virtual_address)) <| do
    if ← is_Memory_Present level_one virtual_address then pure .Error_Present
    else do
      store (entryAddress level_one (pl1_index virtual_address))
        (phys_address ||| permissions ||| Memory_Present)
      pure .Ok

def map_update_page (virtual_address permissions : Word) : Kernel Machine Status :=
  if permissionsRefused virtual_address permissions then pure .Error_Permissions
  else do
    let pl4 := get_pl4
    let level_three := get_pl3 virtual_address
    let level_two := get_pl2 virtual_address
    let level_one := get_pl1 virtual_address
    if !(← is_pl3_present pl4 virtual_address) then pure .Error_Absent
    else if !(← is_pl2_present level_three virtual_address) then pure .Error_Absent
    else if !(← is_pl1_present level_two virtual_address) then pure .Error_Absent
    else if !(← is_Memory_Present level_one virtual_address) then pure .Error_Absent
    else do
      let entry := entryAddress level_one (pl1_index virtual_address)
      let phys := (← load entry) &&& ~~~Memory_Permissions_Mask
      store entry (phys ||| permissions ||| Memory_Present)
      pure .Ok

def unmap_page (physical_free : Word → Kernel Machine Unit) (address : Word)
    (free_physical_memory : Bool) : Kernel Machine Unit := do
  if ← is_pl3_present get_pl4 address then
    if ← is_pl2_present (get_pl3 address) address then
      if ← is_pl1_present (get_pl2 address) address then
        let entry := entryAddress (get_pl1 address) (pl1_index address)
        if free_physical_memory then
          physical_free (page_entry_to_phys (← load entry))
        store entry free_page_entry

/-! ## Ranges of pages -/

def unmap_range (physical_free : Word → Kernel Machine Unit) (virt : Word) (count : Nat)
    (free_phys : Bool) : Kernel Machine Unit :=
  match count with
  | 0 => pure ()
  | count + 1 => do
    unmap_page physical_free virt free_phys
    unmap_range physical_free (virt + Page_Small) count free_phys

/-- The loop of `map_range`, after `i` pages, with `count` pages to go. -/
def mapRangeFrom (physical_alloc : Kernel Machine Word) (physical_free : Word → Kernel Machine Unit)
    (original_virt attrs : Word) (i : Nat) (virt phys : Word) (count : Nat) : Kernel Machine Status :=
  match count with
  | 0 => pure .Ok
  | count + 1 => do
    let status ← map_page physical_alloc virt phys attrs
    if status ≠ .Ok then
      unmap_range physical_free original_virt i false
      pure .Error_Present
    else
      mapRangeFrom physical_alloc physical_free original_virt attrs (i + 1) (virt + Page_Small)
        (phys + Page_Small) count

def map_range (physical_alloc : Kernel Machine Word) (physical_free : Word → Kernel Machine Unit)
    (virt phys : Word) (count : Nat) (attrs : Word) : Kernel Machine Status :=
  mapRangeFrom physical_alloc physical_free virt attrs 0 virt phys count

def paging_update_range (virt : Word) (count : Nat) (attrs : Word) : Kernel Machine Status :=
  match count with
  | 0 => pure .Ok
  | count + 1 => bubble (map_update_page virt attrs) (paging_update_range (virt + Page_Small) count attrs)

end KernelOfTruth.Code
