import KernelOfTruth.Code.Threads

/-!
# `kernel/arch/x64/isr.S`

With what the processor does when it takes an interrupt. The functions that are called are parameters, and they end with
their own `ret`.
-/

namespace KernelOfTruth.Code

inductive Seg
  | ds | es | fs | gs
  deriving DecidableEq, Repr

structure Processor where
  cpu : Cpu
  cs : BitVec 16
  ss : BitVec 16
  seg : Seg → BitVec 16

def onCpu {α : Type} (p : Kernel Cpu α) : Kernel Processor α := Lib.zoom Processor.cpu (fun m c => { m with cpu := c }) p

def setReg (r : Reg) (w : Word) : Kernel Processor Unit :=
  modify fun m => { m with cpu.reg := Function.update m.cpu.reg r w }

/-! ## The processor -/

/-- The privilege level is in the low bits of `cs`. -/
def Processor.user (m : Processor) : Bool := m.cs &&& 3 != 0

/-- Where the processor starts to push: the stack of the kernel for an interrupt in user mode, and aligned to 16 bytes. -/
def Processor.interruptStack (m : Processor) : Word := (if m.user then m.cpu.tss_stack else m.cpu.rsp) &&& ~~~0xf

/-- An interrupt gate clears the flag for interrupts. Some exceptions come with an error code. -/
def takeInterrupt (error_code : Option Word) : Kernel Processor Unit := do
  let m ← get
  modify fun m => { m with cpu.rsp := m.interruptStack }
  onCpu (pushWord (m.ss.setWidth 64))
  onCpu (pushWord m.cpu.rsp)
  onCpu (pushWord m.cpu.rflags)
  onCpu (pushWord (m.cs.setWidth 64))
  onCpu (pushWord m.cpu.rip)
  (match error_code with
  | some error_code => onCpu (pushWord error_code)
  | none => pure ())
  modify fun m => { m with
    cpu.rflags := m.cpu.rflags &&& ~~~CPU_Flag_Interrupts
    cs := Segment_Kernel_Code.setWidth 16
    ss := if m.user then 0 else m.ss }

def iretq : Kernel Processor Unit := do
  let rip ← onCpu popWord
  let cs ← onCpu popWord
  let rflags ← onCpu popWord
  let rsp ← onCpu popWord
  let ss ← onCpu popWord
  modify fun m => { m with cpu.rip := rip, cpu.rflags := rflags, cpu.rsp := rsp, cs := cs.setWidth 16, ss := ss.setWidth 16 }

/-! ## `_service_interrupt` -/

section Service

/-- `struct interrupt_cpu_state`, with its fields `r15` to `rax` in `reg`. -/
structure InterruptCpuState where
  ds : Word
  reg : Reg → Word
  interrupt_number : Word
  err_code : Word
  rip : Word
  cs : Word
  rflags : Word
  rsp : Word
  ss : Word

-- `alu` is what an arithmetic instruction makes of the flags, and `tsc` the time stamp counter
variable (alu : Word → Word) (tsc return_address : Word) (entropy_pool_seed : Kernel Processor Unit)
  (interrupts_dispatcher : InterruptCpuState → Kernel Processor Unit)

def PIT_Interrupt_Number : Word := 0x20

def saveRegisters : List Instr :=
  [.push .rax, .push .rbx, .push .rcx, .push .rdx, .push .rbp, .push .rsi, .push .rdi, .push .r8, .push .r9, .push .r10,
    .push .r11, .push .r12, .push .r13, .push .r14, .push .r15]

def restoreRegisters : List Instr :=
  [.pop .r15, .pop .r14, .pop .r13, .pop .r12, .pop .r11, .pop .r10, .pop .r9, .pop .r8, .pop .rdi, .pop .rsi, .pop .rbp,
    .pop .rdx, .pop .rcx, .pop .rbx, .pop .rax]

def changeFlags : Kernel Processor Unit := modify fun m => { m with cpu.rflags := alu m.cpu.rflags }

/-- `mov v, %ax`. -/
def setAx (v : BitVec 16) : Kernel Processor Unit := do
  let rax := (← get).cpu.reg .rax
  setReg .rax (rax &&& ~~~0xffff ||| v.setWidth 64)

/-- `mov %ax, %ds`, and the same for the other three. -/
def loadSegments : Kernel Processor Unit := modify fun m => { m with seg := fun _ => (m.cpu.reg .rax).setWidth 16 }

def call (f : Kernel Processor Unit) : Kernel Processor Unit := do
  onCpu (pushWord return_address)
  f

def rdtsc : Kernel Processor Unit := do
  setReg .rax (tsc &&& 0xffffffff)
  setReg .rdx (tsc >>> 32)

/-- Word number `i` of an argument that is passed on the stack, above the return address. -/
def argument (i : Nat) : Kernel Processor Word := do
  let rsp := (← get).cpu.rsp
  onCpu (onMemory (Memory.load 8 (rsp + BitVec.ofNat 64 (8 * (i + 1)))))

/-- The words of the fields from `r15` to `rax`, from word number `i` on. -/
def registerArguments : List Reg → Nat → Kernel Processor (Reg → Word)
  | [], _ => pure fun _ => 0
  | r :: rs, i => do
    let w ← argument i
    let rest ← registerArguments rs (i + 1)
    pure (Function.update rest r w)

def stateArgument : Kernel Processor InterruptCpuState := do
  let ds ← argument 0
  let reg ← registerArguments
    [.r15, .r14, .r13, .r12, .r11, .r10, .r9, .r8, .rdi, .rsi, .rbp, .rdx, .rcx, .rbx, .rax] 1
  let interrupt_number ← argument 16
  let err_code ← argument 17
  let rip ← argument 18
  let cs ← argument 19
  let rflags ← argument 20
  let rsp ← argument 21
  let ss ← argument 22
  pure ⟨ds, reg, interrupt_number, err_code, rip, cs, rflags, rsp, ss⟩

/-- From the label `.dispatch` on. -/
def dispatch : Kernel Processor Unit := do
  call return_address do
    let r ← stateArgument
    interrupts_dispatcher r
  onCpu (Instr.pop .rax).exec
  loadSegments
  onCpu (execAll restoreRegisters)
  -- add $16, %rsp
  modify fun m => { m with cpu.rsp := m.cpu.rsp + 16 }
  changeFlags alu
  iretq

def _service_interrupt : Kernel Processor Unit := do
  onCpu (execAll saveRegisters)
  -- xor %rax, %rax
  setReg .rax 0
  changeFlags alu
  setAx ((← get).seg .ds)
  onCpu (Instr.push .rax).exec
  setAx (Segment_Kernel_Data.setWidth 16)
  loadSegments
  let rsp := (← get).cpu.rsp
  let interrupt_number ← onCpu (onMemory (Memory.load 8 (rsp + 16 * 8)))
  changeFlags alu
  (if PIT_Interrupt_Number &&& interrupt_number = 0 then do
    rdtsc tsc
    -- mov %di, %ax
    setAx (((← get).cpu.reg .rdi).setWidth 16)
    call return_address entropy_pool_seed
  else pure ())
  dispatch alu return_address interrupts_dispatcher

/-! ## The stubs -/

/-- The stubs that the macro `interrupt` makes. All others come from `no_error_code_interrupt`. -/
def withErrorCode : List Nat := [8, 10, 11, 12, 13, 14, 17, 30]

def cli : Kernel Processor Unit := modify fun m => { m with cpu.rflags := m.cpu.rflags &&& ~~~CPU_Flag_Interrupts }

/-- `isr0` to `isr34`. -/
def isr (number : Nat) : Kernel Processor Unit := do
  cli
  (if number ∈ withErrorCode then pure () else onCpu (pushWord 0))
  onCpu (pushWord (BitVec.ofNat 64 number))
  _service_interrupt alu tsc return_address entropy_pool_seed interrupts_dispatcher

end Service

end KernelOfTruth.Code
