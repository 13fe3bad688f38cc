import KernelOfTruth.Code.Isr
import KernelOfTruth.Spec.Strings

/-!
# What an interrupt leaves behind
-/

open KernelOfTruth.Lib KernelOfTruth.Code

namespace KernelOfTruth.Spec

/-- What a handler pushes: the words of a `struct interrupt_cpu_state` and a return address. -/
def interruptArea : Nat := 24 * 8

/-- A function returns to its caller, with the words of the `struct interrupt_cpu_state` that are above its return address as
they were. It may change all registers, and all memory but the addresses in `kept`. -/
def ReturnsFrom (kept : Word → Prop) (E : Halt → Prop) (f : Kernel Processor Unit) (m : Processor) : Prop :=
  Mapped m.cpu.mem m.cpu.rsp interruptArea →
    wp f (fun _ m' => m'.cpu.rsp = m.cpu.rsp + 8 ∧ Mapped m'.cpu.mem m.cpu.rsp interruptArea ∧
      ∀ x, kept x ∨ Covers (m.cpu.rsp + 8) (8 * 23) x → m'.cpu.mem x = m.cpu.mem x) E m

def Returns (kept : Word → Prop) (E : Halt → Prop) (f : Kernel Processor Unit) : Prop := ∀ m, ReturnsFrom kept E f m

/-- What the dispatcher is to be told about an interrupt. -/
def stateAtInterrupt (m : Processor) (number : Nat) (error_code : Option Word) : InterruptCpuState where
  ds := (m.seg .ds).setWidth 64
  reg := m.cpu.reg
  interrupt_number := BitVec.ofNat 64 number
  err_code := error_code.getD 0
  rip := m.cpu.rip
  cs := m.cs.setWidth 64
  rflags := m.cpu.rflags
  rsp := m.cpu.rsp
  ss := m.ss.setWidth 64

/-- The interrupted program goes on where it was. Its data segments all have the value of `ds`. -/
structure Resumes (kept : Word → Prop) (m m' : Processor) : Prop where
  reg : m'.cpu.reg = m.cpu.reg
  rsp : m'.cpu.rsp = m.cpu.rsp
  rip : m'.cpu.rip = m.cpu.rip
  rflags : m'.cpu.rflags = m.cpu.rflags
  cs : m'.cs = m.cs
  ss : m'.ss = m.ss
  seg : ∀ s, m'.seg s = m.seg .ds
  mem : ∀ x, kept x → ¬ Covers (m.interruptStack - BitVec.ofNat 64 interruptArea) interruptArea x → m'.cpu.mem x = m.cpu.mem x

end KernelOfTruth.Spec
