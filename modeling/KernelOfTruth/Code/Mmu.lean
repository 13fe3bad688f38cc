import KernelOfTruth.Code.Types

/-!
# The part of the machine that the paging code drives

Physical memory, the page table register and the walk that the processor does for every access.
Memory is in frames of 512 words, because the code in `paging.c` and `physical_allocator.c`
reads and writes whole aligned words only. A frame is named by its physical address.
-/

namespace KernelOfTruth.Code

/-- An index into a page table, or the index of a word in a page. -/
abbrev Index := BitVec 9

/-- The entry of every root that maps the root itself. -/
def Kernel_Fractal_Page_Table_Index : Index := 256

structure Machine where
  mem : Word → Index → Word
  cr3 : Word
  /-- The variable `Physical_Page`, the first page of the stack of free pages. -/
  physical_page : Word

def Phys_Addr_Mask : Word := 0x000ffffffffff000

def page_entry_to_phys (entry : Word) : Word := entry &&& Phys_Addr_Mask

def present (entry : Word) : Bool := entry &&& Memory_Present != 0

/-! ## The walk -/

/-- The frame reached from the root through the entries with these indices, the last one first.
It is `none` when an entry on the way is not present. -/
def Machine.table (m : Machine) : List Index → Option Word
  | [] => some m.cr3
  | i :: path => do
    let frame ← m.table path
    if present (m.mem frame i) then some (page_entry_to_phys (m.mem frame i)) else none

def index4 (address : Word) : Index := address.extractLsb' 39 9
def index3 (address : Word) : Index := address.extractLsb' 30 9
def index2 (address : Word) : Index := address.extractLsb' 21 9
def index1 (address : Word) : Index := address.extractLsb' 12 9

/-- The index of the word at `address` in its page. -/
def wordIndex (address : Word) : Index := address.extractLsb' 3 9

/-- The page of an address, as the processor sees it: the bits above the 48th do not matter. -/
def pagePath (address : Word) : List Index :=
  [index1 address, index2 address, index3 address, index4 address]

def Machine.translate (m : Machine) (address : Word) : Option Word := m.table (pagePath address)

/-! ## Loads and stores -/

def setWord (mem : Word → Index → Word) (frame : Word) (i : Index) (v : Word) : Word → Index → Word :=
  fun f j => if f = frame ∧ j = i then v else mem f j

def clearFrame (mem : Word → Index → Word) (frame : Word) : Word → Index → Word :=
  fun f j => if f = frame then 0 else mem f j

/-- The frame that an access to `address` goes to. -/
def access (address : Word) : Kernel Machine Word := do
  match (← get).translate address with
  | some frame => pure frame
  | none => throw .page_fault

def load (address : Word) : Kernel Machine Word := do
  let frame ← access address
  return (← get).mem frame (wordIndex address)

def store (address v : Word) : Kernel Machine Unit := do
  let frame ← access address
  modify fun m => { m with mem := setWord m.mem frame (wordIndex address) v }

/-- `memset(page, 0, Page_Small)` for an address at the start of a page. -/
def clear_page (page : Word) : Kernel Machine Unit := do
  let frame ← access page
  modify fun m => { m with mem := clearFrame m.mem frame }

end KernelOfTruth.Code
