import KernelOfTruth.Code.Threads
import KernelOfTruth.Spec.Strings

/-!
# Runs of several threads on one processor

A thread that is not running has somewhere to come back to: its own call of `thread_switch`, or the entry that was
prepared for it.
-/

open KernelOfTruth.Code

namespace KernelOfTruth.Spec

/-- The registers at a call of `thread_switch`. -/
structure Context where
  reg : Reg → Word
  rsp : Word
  rip : Word
  rflags : Word

inductive Resume
  | call (c : Context)
  | start (entry_point code_segment data_segment user_stack_top : Word)

section Threads

variable {T : Type} [DecidableEq T] (threads : T → Thread) (_privilege_level_switch : Word)
  (slab_alloc_helper : Word → Kernel Cpu Word)

/-- The processor goes on with a thread as it should. -/
def Resumed : Resume → Cpu → Prop
  | .call c, cpu => cpu.reg = c.reg ∧ cpu.rsp = c.rsp ∧ cpu.rip = c.rip ∧ cpu.rflags = c.rflags ||| CPU_Flag_Interrupts
  | .start entry_point code_segment data_segment user_stack_top, cpu =>
    cpu.rip = _privilege_level_switch ∧ cpu.reg .rdi = entry_point ∧ cpu.reg .rsi = code_segment ∧
      cpu.reg .rcx = data_segment ∧ cpu.reg .rdx = user_stack_top

def OnStack (t : T) (x : Word) : Prop := Covers (threads t).kernel_stack (threads t).kernel_stack_size.toNat x

def InField (t : T) (x : Word) : Prop := Covers (threads t).current_stack_pointer 8 x

/-- The kernel stacks are apart from each other, and so are the fields in which the stack pointers are kept. -/
structure Apart : Prop where
  stack_stack : ∀ {t u}, t ≠ u → ∀ {x}, OnStack threads t x → ¬ OnStack threads u x
  field_field : ∀ {t u}, t ≠ u → ∀ {x}, InField threads t x → ¬ InField threads u x
  field_stack : ∀ {t u x}, InField threads t x → ¬ OnStack threads u x

/-- On its way into `_thread_switch` a thread pushes the return address, 15 registers and the flags. -/
def HasRoom (t : T) (rsp : Word) : Prop :=
  136 ≤ (rsp - (threads t).kernel_stack).toNat ∧
    (rsp - (threads t).kernel_stack).toNat ≤ (threads t).kernel_stack_size.toNat

/-- A user stack is not in the kernel's memory, and no kernel stack changes when it is allocated. -/
def AllocatesUserStack : Prop := ∀ cpu user_stack cpu',
  (slab_alloc_helper Thread_Default_User_Stack_Size).run cpu = .ok (user_stack, cpu') →
  ∀ t x, OnStack threads t x ∨ InField threads t x →
    cpu'.mem x = cpu.mem x ∧ (user_stack ≠ 0 → ¬ Covers user_stack Thread_Default_User_Stack_Size.toNat x)

structure Multitasking (T : Type) where
  cpu : Cpu
  current : T
  resume : T → Option Resume

def codeSegment (thread : Thread) : Word :=
  if thread.user_space then Segment_User_Code ||| Segment_RPL else Segment_Kernel_Code

def dataSegment (thread : Thread) : Word :=
  if thread.user_space then Segment_User_Data ||| Segment_RPL else Segment_Kernel_Data

/-- The registers at the call of `_thread_switch` from `old` to `new`. -/
def contextAt (cpu : Cpu) (old new : T) (return_address : Word) : Context where
  reg := switchArguments cpu.reg (wordAt cpu.mem 8 (threads new).current_stack_pointer)
    (threads old).current_stack_pointer (threads new).physical_address
  rsp := cpu.rsp
  rip := return_address
  rflags := cpu.rflags

inductive Multitasking.Step : Multitasking T → Multitasking T → Prop
  /-- The current thread does anything, but it writes to no other stack and to no stack pointer that is kept. -/
  | work {s : Multitasking T} (cpu : Cpu)
    (hstacks : ∀ u ≠ s.current, ∀ x, OnStack threads u x → cpu.mem x = s.cpu.mem x)
    (hfields : ∀ u x, InField threads u x → cpu.mem x = s.cpu.mem x) : Step s { s with cpu := cpu }
  | switch {s : Multitasking T} {new : T} {r : Resume} {cpu : Cpu} (return_address : Word)
    (hroom : HasRoom threads s.current s.cpu.rsp) (hnew : s.resume new = some r)
    (hrun : (thread_switch threads s.current new return_address).run s.cpu = .ok ((), cpu)) :
    Step s ⟨cpu, new, Function.update
      (Function.update s.resume s.current (some (.call (contextAt threads s.cpu s.current new return_address)))) new none⟩
  /-- A thread is prepared, which has room for the frame that it starts from. -/
  | prepare {s : Multitasking T} {t : T} {proc : Process} {entry_point user_stack : Word} {cpu : Cpu}
    (ht : t ≠ s.current) (hroom : 192 ≤ (threads t).kernel_stack_size.toNat)
    (hrun : (thread_user_stack_init slab_alloc_helper _privilege_level_switch (threads t) proc entry_point).run s.cpu =
      .ok ((.Ok, user_stack), cpu)) :
    Step s ⟨cpu, s.current, Function.update s.resume t (some (.start entry_point (codeSegment (threads t))
      (dataSegment (threads t)) (user_stack + Thread_Default_User_Stack_Size)))⟩

/-- From the first thread on, with no other that could run. -/
inductive Multitasking.Run : Multitasking T → Prop
  | start (cpu : Cpu) (current : T) : Run ⟨cpu, current, fun _ => none⟩
  | step {s s' : Multitasking T} (hrun : Run s)
    (hstep : Step threads _privilege_level_switch slab_alloc_helper s s') : Run s'

end Threads

end KernelOfTruth.Spec
