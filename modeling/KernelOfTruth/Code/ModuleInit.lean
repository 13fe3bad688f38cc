import KernelOfTruth.Code.Module

/-!
# The part of `kernel/core/module.c` that loads modules, and of `kernel/core/elf.c` that runs them

The functions of a module do not change the image. What they return may depend on all calls so far.
-/

namespace KernelOfTruth.Code

/-- `struct module`. The list is linked through the first field, and `physical_start` is not used. -/
structure Module where
  name : Word
  virtual_start : Word
  size : Word
  deriving DecidableEq

def moduleSize : Word := 40

/-- The call of an entry of one of the arrays of a module: the tag of the array in `.dynamic`, and the index. -/
structure EntryCall where
  array : Word
  index : Nat
  deriving DecidableEq

structure ModuleState (σ : Type) where
  symbols : SymbolState σ
  Module_List : List Module
  calls : List EntryCall

variable {σ : Type}

def inSymbols {α : Type} (p : Kernel (SymbolState σ) α) : Kernel (ModuleState σ) α :=
  Lib.zoom ModuleState.symbols (fun s symbols => { s with symbols := symbols }) p

def inImage {α : Type} (p : Kernel Memory α) : Kernel (ModuleState σ) α := inSymbols (inMemory p)

/-! ## Functions of a module -/

def DT_INIT_ARRAY : Word := 25
def DT_FINI_ARRAY : Word := 26
def DT_INIT_ARRAYSZ : Word := 27
def DT_FINI_ARRAYSZ : Word := 28

/-- The first loop of `elf_run_init_fini_helper`, with `n` entries of `.dynamic` left from number `i` on: the array and its
size, if they have been found. -/
def funcsLoop (dynamic base dt_array dt_array_size : Word) : Nat → Word → Word → Option Word → Kernel Memory (Word × Option Word)
  | 0, _, funcs, funcs_size => pure (funcs, funcs_size)
  | n + 1, i, funcs, funcs_size => do
    let tag ← d_tag dynamic i
    if tag = dt_array then do
      let funcs := base + (← d_val dynamic i)
      if funcs ≠ 0 ∧ funcs_size ≠ none then pure (funcs, funcs_size)
      else funcsLoop dynamic base dt_array dt_array_size n (i + 1) funcs funcs_size
    else if tag = dt_array_size then do
      let funcs_size := some (← d_val dynamic i)
      if funcs ≠ 0 then pure (funcs, funcs_size)
      else funcsLoop dynamic base dt_array dt_array_size n (i + 1) funcs funcs_size
    else if funcs ≠ 0 ∧ funcs_size ≠ none then pure (funcs, funcs_size)
    else funcsLoop dynamic base dt_array dt_array_size n (i + 1) funcs funcs_size

/-- `elf_run_init_fini_helper` up to the calls: a status to return, or the array and the number of its entries. -/
def findFuncs (module_start module_size dt_array dt_array_size : Word) : Kernel Memory (Except Status (Word × Nat)) := do
  let (dynamic, dynamic_size) ← elf_get_section module_start module_size (ascii ".dynamic")
  if dynamic = 0 then pure (.error .Error_Invalid) else do
  let base ← elf_get_base_address module_start module_size
  if base = 0 then pure (.error .Error_Invalid) else do
  let (funcs, funcs_size) ← funcsLoop dynamic base dt_array dt_array_size (dynamic_size / dynSize).toNat 0 0 none
  match funcs_size with
  | none => pure (.error .Ok)
  | some funcs_size =>
    if funcs = 0 then pure (.error .Ok)
    else if funcs + funcs_size > module_start + module_size then pure (.error .Error_Invalid)
    else pure (.ok (funcs, (funcs_size / pointerSize).toNat))

section Run

-- what a call returns, from all calls up to it
variable (answer : List EntryCall → Status)

/-- The second loop of `elf_run_init_fini_helper`, with `n` entries left from number `i` on. -/
def callLoop (dt_array funcs : Word) : Nat → Nat → Kernel (ModuleState σ) Status
  | 0, _ => pure .Ok
  | n + 1, i => do
    let _func ← inImage (Memory.load 8 (funcs + pointerSize * BitVec.ofNat 64 i))
    modify fun s => { s with calls := s.calls ++ [⟨dt_array, i⟩] }
    let status := answer (← get).calls
    if status ≠ .Ok then pure status else callLoop dt_array funcs n (i + 1)

def elf_run_init_fini_helper (module_start module_size dt_array dt_array_size : Word) : Kernel (ModuleState σ) Status := do
  match ← inImage (findFuncs module_start module_size dt_array dt_array_size) with
  | .error status => pure status
  | .ok (funcs, n) => callLoop answer dt_array funcs n 0

def elf_run_fini (module_start module_size : Word) : Kernel (ModuleState σ) Status :=
  elf_run_init_fini_helper answer module_start module_size DT_FINI_ARRAY DT_FINI_ARRAYSZ

def elf_run_init (module_start module_size : Word) : Kernel (ModuleState σ) Status := do
  let status ← elf_run_init_fini_helper answer module_start module_size DT_INIT_ARRAY DT_INIT_ARRAYSZ
  if status ≠ .Ok then do
    let _ ← elf_run_fini answer module_start module_size
    pure status
  else pure status

/-- The part of the loop of `modules_init` that runs a module. -/
def runModule (module_start module_size : Word) : Kernel (ModuleState σ) Status := do
  let status ← elf_run_init answer module_start module_size
  if status ≠ .Ok then do
    let _ ← elf_run_fini answer module_start module_size
    pure status
  else pure status

end Run

/-! ## Loading -/

section Load

variable (crypto_sign_ed25519_verify_detached : Word → Word → Word → Kernel Memory Int)
  (kmalloc : Word → Kernel σ Word) (kfree : Word → Kernel σ Unit)

/-- `module_load` before it inserts symbols. The second result is the name. -/
def loadRelocated (module_start module_size : Word) : Kernel (SymbolState σ) (Status × Word) := do
  let (status, module_name) ← inMemory (loadVerified crypto_sign_ed25519_verify_detached module_start module_size)
  if status ≠ .Ok then pure (status, module_name) else do
  let status ← inMemory (elf_relocate (hashtable_get (← get).symbol_table) module_start module_size)
  pure (status, module_name)

def module_load (module_start module_size : Word) : Kernel (ModuleState σ) Status := do
  let (status, module_name) ← inSymbols (loadRelocated crypto_sign_ed25519_verify_detached module_start module_size)
  if status ≠ .Ok then pure status else do
  let status ← inSymbols (module_insert_symbols kmalloc kfree module_start module_size)
  if status ≠ .Ok then pure status else do
  let new_module ← inSymbols (inHeap (kmalloc moduleSize))
  if new_module = 0 then do
    inSymbols (module_remove_symbols kmalloc kfree module_start module_size)
    pure .Error_No_Memory
  else do
    modify fun s => { s with Module_List := ⟨module_name, module_start, module_size⟩ :: s.Module_List }
    pure .Ok

end Load

/-! ## Permissions -/

section Permissions

variable (paging_update_range : Word → Word → Word → Kernel σ Status)

/-- The number of pages between two addresses. The difference of two pointers is signed. -/
def pagesBetween (start last : Word) : Word := (last - start).sdiv Page_Small

def module_set_section_permissions (elf size : Word) : Kernel (SymbolState σ) Status := do
  let module_rw_start ← inMemory (elf_get_symbol_address elf size (ascii "__module_rw_start"))
  let module_rw_end ← inMemory (elf_get_symbol_address elf size (ascii "__module_rw_end"))
  let rw_size := pagesBetween module_rw_start module_rw_end
  let module_rx_start ← inMemory (elf_get_symbol_address elf size (ascii "__module_rx_start"))
  let module_rx_end ← inMemory (elf_get_symbol_address elf size (ascii "__module_rx_end"))
  let rx_size := pagesBetween module_rx_start module_rx_end
  let module_ro_start ← inMemory (elf_get_symbol_address elf size (ascii "__module_ro_start"))
  let module_ro_end ← inMemory (elf_get_symbol_address elf size (ascii "__module_ro_end"))
  let ro_size := pagesBetween module_ro_start module_ro_end
  if module_rw_start = 0 ∨ module_rw_end = 0 ∨ module_rx_start = 0 ∨ module_rx_end = 0 ∨ module_ro_start = 0 ∨
      module_ro_end = 0 then pure .Error_Permissions
  else do
  let status ← inHeap (paging_update_range module_rw_start rw_size Memory_Writable)
  if status ≠ .Ok then do
    let _ ← inHeap (paging_update_range module_rw_start rw_size (Memory_No_Execute ||| Memory_Writable))
    pure status
  else do
  let status ← inHeap (paging_update_range module_rx_start rx_size Memory_No_Attributes)
  if status ≠ .Ok then do
    let _ ← inHeap (paging_update_range module_rx_start rx_size (Memory_No_Execute ||| Memory_Writable))
    let _ ← inHeap (paging_update_range module_rw_start rw_size (Memory_No_Execute ||| Memory_Writable))
    pure status
  else do
  let status ← inHeap (paging_update_range module_ro_start ro_size Memory_No_Execute)
  if status ≠ .Ok then do
    let _ ← inHeap (paging_update_range module_ro_start ro_size (Memory_No_Execute ||| Memory_Writable))
    let _ ← inHeap (paging_update_range module_rx_start rx_size (Memory_No_Execute ||| Memory_Writable))
    let _ ← inHeap (paging_update_range module_rw_start rw_size (Memory_No_Execute ||| Memory_Writable))
    pure status
  else pure .Ok

end Permissions

/-! ## The modules of the boot loader -/

/-- `struct multiboot_mod_list`. The command line is only printed. -/
structure MultibootModule where
  mod_start : BitVec 32
  mod_end : BitVec 32

def MultibootModule.module_size (m : MultibootModule) : Word := (m.mod_end - m.mod_start).setWidth 64

def MultibootModule.module_allocation_size (m : MultibootModule) : Word :=
  align_as (round_next m.module_size Page_Small) Page_Small

section Modules

variable (crypto_sign_ed25519_verify_detached : Word → Word → Word → Kernel Memory Int)
  (kmalloc : Word → Kernel σ Word) (kfree : Word → Kernel σ Unit)
  (paging_update_range : Word → Word → Word → Kernel σ Status) (answer : List EntryCall → Status)
  (slab_alloc_request_physical_random : Word → Word → Word → Kernel (SymbolState σ) Word)
  (slab_free : Word → Word → Kernel (SymbolState σ) Unit)

/-- The body of the loop of `modules_init` once the module is mapped. It returns the status of the stage that has failed. -/
def startModule (module_start module_size module_allocation_size : Word) : Kernel (ModuleState σ) Status := do
  let status ← module_load crypto_sign_ed25519_verify_detached kmalloc kfree module_start module_size
  if status ≠ .Ok then do
    inSymbols (slab_free Page_Small module_start)
    pure status
  else do
  let status ← inSymbols (module_set_section_permissions paging_update_range module_start module_allocation_size)
  if status ≠ .Ok then do
    inSymbols (slab_free Page_Small module_start)
    pure status
  else do
  let status ← runModule answer module_start module_size
  if status ≠ .Ok then do
    inSymbols (slab_free Page_Small module_start)
    pure status
  else pure .Ok

/-- The body of the loop of `modules_init`. -/
def initModule (m : MultibootModule) : Kernel (ModuleState σ) Status := do
  let module_start ← inSymbols
    (slab_alloc_request_physical_random (m.mod_start.setWidth 64) m.module_allocation_size Memory_Writable)
  if module_start = 0 then pure .Error_Invalid else
  startModule crypto_sign_ed25519_verify_detached kmalloc kfree paging_update_range answer slab_free module_start
    m.module_size m.module_allocation_size

/-- The loop of `modules_init`, with the modules that are left. -/
def modulesLoop : List MultibootModule → Status → Kernel (ModuleState σ) Status
  | [], modules_status => pure modules_status
  | m :: modules, modules_status => do
    let status ← initModule crypto_sign_ed25519_verify_detached kmalloc kfree paging_update_range answer
      slab_alloc_request_physical_random slab_free m
    modulesLoop modules (if status = .Ok then modules_status else status)

end Modules

end KernelOfTruth.Code
