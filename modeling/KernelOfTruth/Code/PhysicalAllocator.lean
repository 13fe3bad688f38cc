import KernelOfTruth.Code.Paging

/-!
# The page stack of `kernel/core/physical_allocator.c`

Free ranges of pages form a stack that lives in the free pages themselves. The header of a range
(`struct physical_page_stack`) is in its first page, and the header of the top range is mapped at
the pivot page.
-/

namespace KernelOfTruth.Code

variable (img : KernelImage)

/-- `&Physical_Page_Stack->next` -/
def stackNext : Word := Kernel_Pivot_Page img

/-- `&Physical_Page_Stack->length` -/
def stackLength : Word := Kernel_Pivot_Page img + 8

/-- `physical_alloc` and `physical_free` as they behave inside the functions below, which hold
`physical_allocator_lock`: `lock_acquire_writer` never returns. -/
def whileLocked {α : Type} : Kernel Machine α := throw .deadlock

def map_pivot (phys : Word) : Kernel Machine Status :=
  map_page whileLocked (Kernel_Pivot_Page img) phys Memory_Writable

def unmap_pivot : Kernel Machine Unit := unmap_page (fun _ => whileLocked) (Kernel_Pivot_Page img) false

/-- The branch of `physical_alloc` that hands out the last page of the top range, which holds the
header of the range. -/
def popRange : Kernel Machine Word := do
  let phys := (← get).physical_page
  let next ← load (stackNext img)
  unmap_pivot img
  let status ← (if next ≠ invalid_phys_addr then map_pivot img next else pure .Ok)
  if status ≠ .Ok then pure invalid_phys_addr
  else do
    modify fun m => { m with physical_page := next }
    assert "physical_alloc" (phys ≠ next)
    pure phys

/-- The other branch: the last page of the top range. -/
def takeLast : Kernel Machine Word := do
  let length ← load (stackLength img)
  return (← get).physical_page + length

def physical_alloc : Kernel Machine Word := do
  assert "physical_alloc" (is_aligned (← load (stackLength img)) Page_Small)
  store (stackLength img) ((← load (stackLength img)) - Page_Small)
  let length ← load (stackLength img)
  let phys ← (if length = 0 then popRange img else takeLast img)
  assert "physical_alloc" (phys &&& 0xfff = 0)
  assert "physical_alloc" (phys &&& 0xffff000000000000 = 0)
  assert "physical_alloc" (phys ≠ (← get).physical_page)
  pure phys

def physical_free_range (address length : Word) : Kernel Machine Unit := do
  assert "physical_free_range" (is_aligned address Page_Small)
  assert "physical_free_range" (is_aligned length Page_Small)
  assert "physical_free_range" (address &&& 0xfff = 0)
  assert "physical_free_range" (length &&& 0xfff = 0)
  assert "physical_free_range" (0 < length)
  assert "physical_free_range" (address &&& 0xffff000000000000 = 0)
  assert "physical_free_range" ((address + length) &&& 0xffff000000000000 = 0)
  let prev := (← get).physical_page
  unmap_pivot img
  let status ← map_pivot img address
  assert "physical_free_range" (status = .Ok)
  store (stackNext img) prev
  store (stackLength img) length
  modify fun m => { m with physical_page := address }

def physical_free (address : Word) : Kernel Machine Unit := physical_free_range img address Page_Small

/-- The body of the `if` in `physical_page_remove`: `current` follows the header that is mapped at the pivot page. -/
def unlinkNext (current : Word) : Kernel Machine Unit := do
  unmap_pivot img
  let next ← load (stackNext img)
  assert "physical_page_remove" ((← map_pivot img next) = .Ok)
  let next_next ← load (stackNext img)
  unmap_pivot img
  assert "physical_page_remove" ((← map_pivot img current) = .Ok)
  store (stackNext img) next_next

/-- The loop of `physical_page_remove`, for so many rounds at most. -/
def removeLoop (address : Word) : Nat → Word → Status → Kernel Machine Status
  | 0, _, _ => throw .diverge
  | rounds + 1, current, status =>
    if current = invalid_phys_addr then pure status
    else do
      unmap_pivot img
      let status ← map_pivot img current
      assert "physical_page_remove" (status = .Ok)
      let current ← load (stackNext img)
      if (← load (stackNext img)) = address then do
        unlinkNext img current
        pure .Ok
      else removeLoop address rounds current status

def physical_page_remove (rounds : Nat) (address : Word) : Kernel Machine Status := do
  assert "physical_page_remove" (is_aligned address Page_Small)
  let original := (← get).physical_page
  let status ← removeLoop img address rounds original .Error_Absent
  unmap_pivot img
  assert "physical_page_remove" ((← map_pivot img original) = .Ok)
  pure status

end KernelOfTruth.Code
