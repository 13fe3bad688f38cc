import KernelOfTruth.Code.Paging

/-!
# The page tables of `kernel/arch/x64/boot.S`

`_start` from its first instruction to the one that turns paging on, without the control registers. The code is 32 bit code,
and all addresses in it are physical ones.
-/

namespace KernelOfTruth.Code.Boot

/-- What the linker puts in for `virt_to_phys` of the symbols. -/
structure BootLayout where
  init_pl4 : BitVec 32
  text_start : BitVec 32
  text_end : BitVec 32
  data_start : BitVec 32
  data_end : BitVec 32
  rodata_start : BitVec 32
  rodata_end : BitVec 32
  bss_start : BitVec 32
  bss_end : BitVec 32

section Bss

variable (l : BootLayout)

def BootLayout.init_pl3 : BitVec 32 := l.init_pl4 + 0x1000
def BootLayout.init_pl2 : BitVec 32 := l.init_pl4 + 0x2000
def BootLayout.init_pl1 : BitVec 32 := l.init_pl4 + 0x3000

/-- After `slab_higher_half`, `init_physical_allocator_vector` and 16 KB for the stack. -/
def BootLayout._init_stack_top : BitVec 32 := l.init_pl4 + 0xa000

end Bss

/-- Physical memory, and the registers that the code uses. -/
structure BootState where
  mem : Word → Index → Word
  cr3 : BitVec 32
  esp : BitVec 32
  edi : BitVec 32
  esi : BitVec 32
  edx : BitVec 32
  ecx : BitVec 32

/-- One half of a word is written. -/
def setHalf (w : Word) (high : Bool) (v : BitVec 32) : Word :=
  if high then v ++ w.extractLsb' 0 32 else w.extractLsb' 32 32 ++ v

/-- `movl` of `v` to an address that is a multiple of 4. -/
def BootState.movl (s : BootState) (v address : BitVec 32) : BootState :=
  let frame := (address >>> 12 <<< 12).setWidth 64
  let i := address.extractLsb' 3 9
  { s with mem := setWord s.mem frame i (setHalf (s.mem frame i) (address.getLsbD 2) v) }

def BootState.pushl (s : BootState) (v : BitVec 32) : BootState :=
  { s.movl v (s.esp - 4) with esp := s.esp - 4 }

def Page_Present : BitVec 32 := 1 <<< 0
def Page_Write : BitVec 32 := 1 <<< 1
def Page_User : BitVec 32 := 1 <<< 2
def Page_Execute_Disable_High : BitVec 32 := 1 <<< 31

/-- `Memory_Writable` of the assembler, and the low half of its `Memory_Writable_Mask`. -/
def Asm_Memory_Writable : BitVec 32 := 1 <<< 1
def Asm_Memory_Writable_Mask : BitVec 32 := 0xfffffffd

/-- The body of each of the five loops: one entry, in two halves. -/
def BootState.mapPage (s : BootState) : BootState :=
  let s := s.movl s.esi s.edi
  let s := { s with edi := s.edi + 4 }
  let s := s.movl s.edx s.edi
  let s := { s with esi := s.esi + 0x1000 }
  { s with edi := s.edi + 4 }

def mapPages : Nat → BootState → BootState
  | 0, s => s
  | n + 1, s => mapPages n s.mapPage

/-- `loop` counts down first, so that a count of zero is one of 2 ^ 32. -/
def BootState.loop (s : BootState) : BootState := { mapPages ((s.ecx - 1).toNat + 1) s with ecx := 0 }

/-- One section, with the high half of its entries in `edx`. -/
def BootState.mapSection (s : BootState) (edx start stop : BitVec 32) : BootState :=
  BootState.loop { s with edx := edx, ecx := (stop - start) >>> 12 }

variable (l : BootLayout)

/-- The upper levels. -/
def BootState.linkTables (s : BootState) : BootState :=
  let s := s.movl (l.init_pl3 + (Page_User ||| Page_Write ||| Page_Present)) l.init_pl4
  let s := s.movl (l.init_pl3 + (Page_User ||| Page_Write ||| Page_Present)) (l.init_pl4 + 511 * 8)
  let s := s.movl (l.init_pl2 + (Page_User ||| Page_Write ||| Page_Present)) l.init_pl3
  let s := s.movl (l.init_pl2 + (Page_User ||| Page_Write ||| Page_Present)) (l.init_pl3 + 510 * 8)
  let s := s.movl (l.init_pl1 + (Page_Write ||| Page_Present)) l.init_pl2
  let s := s.movl (l.init_pl4 + (Page_Write ||| Page_Present)) (l.init_pl4 + 256 * 8)
  s.movl Page_Execute_Disable_High (l.init_pl4 + 256 * 8 + 4)

/-- The lowest level. -/
def BootState.mapMemory (s : BootState) : BootState :=
  let s := BootState.loop { s with
    edi := l.init_pl1 + 8, esi := 0x1000 ||| Page_Present ||| Page_Write, edx := Page_Execute_Disable_High, ecx := 0xff }
  let s := { s with esi := s.esi &&& Asm_Memory_Writable_Mask }
  let s := s.mapSection 0 l.text_start l.text_end
  let s := { s with esi := s.esi ||| Asm_Memory_Writable }
  let s := s.mapSection Page_Execute_Disable_High l.data_start l.data_end
  let s := { s with esi := s.esi &&& Asm_Memory_Writable_Mask }
  let s := s.mapSection Page_Execute_Disable_High l.rodata_start l.rodata_end
  let s := { s with esi := s.esi ||| Asm_Memory_Writable }
  s.mapSection Page_Execute_Disable_High l.bss_start l.bss_end

def _start (ebx : BitVec 32) (s : BootState) : BootState :=
  let s := { s with esp := l._init_stack_top }
  let s := s.pushl 0
  let s := s.pushl ebx
  let s := { s with edi := l.init_pl4, cr3 := l.init_pl4 }
  (s.linkTables l).mapMemory l

/-- The machine when paging is on, with the first value of `Physical_Page`. -/
def BootState.machine (s : BootState) : Machine := ⟨s.mem, s.cr3.setWidth 64, invalid_phys_addr⟩

end KernelOfTruth.Code.Boot
