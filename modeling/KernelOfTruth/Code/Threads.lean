import KernelOfTruth.Code.Strings

/-!
# `kernel/arch/x64/process.S` and `kernel/arch/x64/arch_process.c`

The switch between two threads, by instruction. Memory is the kernel's half of the address space, which all page
tables share: a load of cr3 changes no kernel stack.
-/

namespace KernelOfTruth.Code

/-- The general registers, other than rsp. -/
inductive Reg
  | rax | rbx | rcx | rdx | rbp | rsi | rdi | r8 | r9 | r10 | r11 | r12 | r13 | r14 | r15
  deriving DecidableEq, Repr

structure Cpu where
  reg : Reg → Word
  rsp : Word
  rip : Word
  rflags : Word
  cr3 : Word
  /-- The stack for an interrupt in user mode. -/
  tss_stack : Word
  mem : Memory

def onMemory {α : Type} (p : Kernel Memory α) : Kernel Cpu α := Lib.zoom Cpu.mem (fun c m => { c with mem := m }) p

/-! ## `process.S` -/

def CPU_Flag_Interrupts : Word := 1 <<< 9

inductive Instr
  | push (r : Reg)
  | pop (r : Reg)
  | pushf
  | popf
  /-- `mov %rsp, (r)` -/
  | save_rsp (r : Reg)
  /-- `mov r, %rsp` -/
  | load_rsp (r : Reg)
  /-- `mov r, %cr3` -/
  | load_cr3 (r : Reg)
  | sti
  | ret
  deriving DecidableEq, Repr

def pushWord (w : Word) : Kernel Cpu Unit := do
  let c ← get
  onMemory (Memory.store 8 (c.rsp - 8) w)
  modify fun c => { c with rsp := c.rsp - 8 }

def popWord : Kernel Cpu Word := do
  let c ← get
  let w ← onMemory (Memory.load 8 c.rsp)
  modify fun c => { c with rsp := c.rsp + 8 }
  pure w

def Instr.exec : Instr → Kernel Cpu Unit
  | push r => do pushWord ((← get).reg r)
  | pop r => do
    let w ← popWord
    modify fun c => { c with reg := Function.update c.reg r w }
  | pushf => do pushWord (← get).rflags
  | popf => do
    let w ← popWord
    modify fun c => { c with rflags := w }
  | save_rsp r => do
    let c ← get
    onMemory (Memory.store 8 (c.reg r) c.rsp)
  | load_rsp r => modify fun c => { c with rsp := c.reg r }
  | load_cr3 r => modify fun c => { c with cr3 := c.reg r }
  | sti => modify fun c => { c with rflags := c.rflags ||| CPU_Flag_Interrupts }
  | ret => do
    let w ← popWord
    modify fun c => { c with rip := w }

def execAll : List Instr → Kernel Cpu Unit
  | [] => pure ()
  | i :: is => do
    i.exec
    execAll is

def _thread_switch : List Instr :=
  [.push .rax, .push .rbx, .push .rcx, .push .rdx, .push .rbp, .push .rsi, .push .rdi, .push .r8, .push .r9, .push .r10,
    .push .r11, .push .r12, .push .r13, .push .r14, .push .r15,
    .pushf,
    .save_rsp .rsi,
    .load_cr3 .rdx,
    .load_rsp .rdi,
    .popf,
    .pop .r15, .pop .r14, .pop .r13, .pop .r12, .pop .r11, .pop .r10, .pop .r9, .pop .r8, .pop .rdi, .pop .rsi, .pop .rbp,
    .pop .rdx, .pop .rcx, .pop .rbx, .pop .rax,
    .sti,
    .ret]

/-! ## `arch_process.c` -/

/-- What the two functions read of a `struct thread`. -/
structure Thread where
  /-- The address of the field `current_stack_pointer`. -/
  current_stack_pointer : Word
  kernel_stack : Word
  kernel_stack_size : Word
  user_space : Bool
  /-- `process->page_table->physical_address`. -/
  physical_address : Word

section Switch

variable {T : Type} [DecidableEq T] (threads : T → Thread)

/-- The registers that carry the arguments of a function have those of `_thread_switch`. -/
def switchArguments (reg : Reg → Word) (new_stack old_stack cr3 : Word) : Reg → Word
  | .rdi => new_stack
  | .rsi => old_stack
  | .rdx => cr3
  | r => reg r

/-- The call of `_thread_switch` is to come back to `return_address`. -/
def thread_switch (old_thread new_thread : T) (return_address : Word) : Kernel Cpu Unit := do
  assert "thread_switch" (new_thread ≠ old_thread)
  let new := threads new_thread
  modify fun c => { c with tss_stack := new.kernel_stack + new.kernel_stack_size }
  let new_stack ← onMemory (Memory.load 8 new.current_stack_pointer)
  modify fun c =>
    { c with reg := switchArguments c.reg new_stack (threads old_thread).current_stack_pointer new.physical_address }
  pushWord return_address
  execAll _thread_switch

end Switch

def Segment_Kernel_Code : Word := 0x08
def Segment_Kernel_Data : Word := 0x10
def Segment_User_Code : Word := 0x18
def Segment_User_Data : Word := 0x20
def Segment_RPL : Word := 0x03

def Thread_Default_User_Stack_Size : Word := 16 * 1024

/-- `sizeof(struct interrupt_cpu_state)`. -/
def interruptCpuStateSize : Word := 23 * 8

/-- What the function reads of a `struct process`. -/
structure Process where
  address_space : Word
  page_table : Word
  /-- `page_table->physical_address`. -/
  physical_address : Word

/-- With `thread->user_stack`. The address of `_privilege_level_switch` is a parameter. -/
def thread_user_stack_init (slab_alloc_helper : Word → Kernel Cpu Word) (_privilege_level_switch : Word)
    (thread : Thread) (proc : Process) (entry_point : Word) : Kernel Cpu (Status × Word) := do
  assert "thread_user_stack_init" (proc.address_space ≠ 0)
  assert "thread_user_stack_init" (proc.page_table ≠ 0)
  let original_cr3 := (← get).cr3
  modify fun c => { c with cr3 := proc.physical_address }
  let user_stack ← slab_alloc_helper Thread_Default_User_Stack_Size
  if user_stack = 0 then do
    modify fun c => { c with cr3 := original_cr3 }
    pure (.Error_No_Memory, user_stack)
  else do
  let state := thread.kernel_stack + thread.kernel_stack_size - interruptCpuStateSize - 8
  onMemory (Memory.store 8 thread.current_stack_pointer state)
  onMemory (Memory.memset thread.kernel_stack_size.toNat thread.kernel_stack 0)
  onMemory (Memory.memset Thread_Default_User_Stack_Size.toNat user_stack 0xdd)
  let code_segment := if thread.user_space then Segment_User_Code ||| Segment_RPL else Segment_Kernel_Code
  let data_segment := if thread.user_space then Segment_User_Data ||| Segment_RPL else Segment_Kernel_Data
  -- the fields rdi, rsi, rdx and rcx of a struct interrupt_cpu_state
  onMemory (Memory.store 8 (state + 9 * 8) entry_point)
  onMemory (Memory.store 8 (state + 10 * 8) code_segment)
  onMemory (Memory.store 8 (state + 12 * 8) (user_stack + Thread_Default_User_Stack_Size))
  onMemory (Memory.store 8 (state + 13 * 8) data_segment)
  onMemory (Memory.store 8 (thread.kernel_stack + thread.kernel_stack_size - 8 * 8) _privilege_level_switch)
  modify fun c => { c with cr3 := original_cr3 }
  pure (.Ok, user_stack)

end KernelOfTruth.Code
