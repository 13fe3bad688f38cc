import KernelOfTruth.Lib.Prog

/-!
# The types and constants that all of the kernel shares

From `include/truth/types.h`, `include/truth/memory.h`, `include/truth/panic.h` and
`kernel/arch/x64/link.ld`. Every C integer and pointer here is 64 bits wide.
-/

namespace KernelOfTruth.Code

abbrev Word := BitVec 64

abbrev Byte := BitVec 8

inductive Status
  | Ok
  | Error_No_Memory
  | Error_Invalid
  | Error_Permissions
  | Error_Present
  | Error_Absent
  | Error_Full
  | Error_Empty
  | Error_Go_Sit_By_A_Lake
  deriving DecidableEq, Repr

/-- The ways in which the kernel stops for good. -/
inductive Halt
  /-- An `assert` or `assert_ok` in the C function `func` failed, so `panic` halted the machine. -/
  | panic (func : String)
  /-- A load or store through an address that is not mapped. -/
  | page_fault
  /-- `lock_acquire_writer` on a lock that the same thread holds: it spins for ever. -/
  | deadlock
  /-- A `do .. while` along a list of nodes that has no end. -/
  | diverge
  deriving DecidableEq, Repr

abbrev Kernel (σ α : Type) := Lib.Prog Halt σ α

/-- The `assert` macro. -/
def assert {σ : Type} (func : String) (b : Bool) : Kernel σ Unit := Lib.check (.panic func) b

/-- The `bubble` macro: go on after `Ok`, return every other status at once. -/
def bubble {σ : Type} (condition rest : Kernel σ Status) : Kernel σ Status := do
  let error ← condition
  if error = .Ok then rest else pure error

/-! ## Macros on integers -/

def align_as (value alignment : Word) : Word := value &&& ~~~(alignment - 1)

def is_aligned (value alignment : Word) : Bool := (value &&& (alignment - 1)) == 0

def round_next (x y : Word) : Word := (x + (y - 1)) &&& ~~~(y - 1)

/-! ## Memory -/

def Page_Small : Word := 0x1000

/-- Special unaligned address. -/
def invalid_phys_addr : Word := 0xfff

def Memory_No_Attributes : Word := 0
def Memory_Present : Word := 1 <<< 0
def Memory_User_Access : Word := 1 <<< 2
def Memory_No_Execute : Word := 1 <<< 63
/-- Writable memory is never executable, so the no-execute bit is part of it. -/
def Memory_Writable : Word := 1 <<< 1 ||| Memory_No_Execute
def Memory_Permissions_Mask : Word := 0x8000000000000fff

def Lower_Half_End : Word := 0x00007fffffffffff
def Higher_Half_End : Word := ~~~0
def Kernel_Memory_Start : Word := 0o1777774010000000000000

def memory_is_lower_half (address : Word) : Bool := address ≤ Lower_Half_End

/-- Where the linker has put the kernel: `__kernel_start` and `__kernel_end`. Both are page aligned,
and the page before the image, the pivot page, is part of the kernel's memory. -/
structure KernelImage where
  kernel_start : Word
  kernel_end : Word
  start_aligned : is_aligned kernel_start Page_Small
  end_aligned : is_aligned kernel_end Page_Small
  memory_le_start : Kernel_Memory_Start.toNat + Page_Small.toNat ≤ kernel_start.toNat
  start_lt_end : kernel_start < kernel_end

variable (img : KernelImage)

def Kernel_Virtual_Start : Word := img.kernel_start - Page_Small
def Kernel_Pivot_Page : Word := img.kernel_start - Page_Small
def Kernel_Virtual_End : Word := img.kernel_end

/-- The position in `link.ld`, with an image of 512 KB. -/
def linkedImage : KernelImage where
  kernel_start := 0xffffffff80100000
  kernel_end := 0xffffffff80180000
  start_aligned := by decide
  end_aligned := by decide
  memory_le_start := by decide
  start_lt_end := by decide

end KernelOfTruth.Code
