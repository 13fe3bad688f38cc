import KernelOfTruth.Code.Isr
import KernelOfTruth.Code.Lock

/-!
# `kernel/arch/x64/interrupts.c`

With `pic_end_of_interrupt` of `kernel/arch/x64/pic.c`. A handler is a pointer to a function, and `none` is NULL.
-/

namespace KernelOfTruth.Code

def IDT_Size : Nat := 256
def Interrupt_Handlers_Count : Nat := 10

/-- The values of `enum status` that the two functions below return. -/
inductive HandlerStatus
  | Ok
  | Error_Absent
  | Error_Count
  deriving DecidableEq, Repr

/-- The table, what has been written to ports, the last write first, and all else that a handler works on. -/
structure Interrupts (H σ : Type) where
  Interrupt_Dispatch : Nat → Nat → Option H
  ports : List (BitVec 16 × Byte)
  rest : σ

section Handlers

variable {H σ : Type} [DecidableEq H]

/-- The loop over the handlers of an interrupt, with `n` places left from number `i` on: the first one that holds `old` gets
`new`. -/
def replaceLoop (interrupt_number : Nat) (old new : Option H) (otherwise : HandlerStatus) :
    Nat → Nat → Kernel (Interrupts H σ) HandlerStatus
  | 0, _ => pure otherwise
  | n + 1, i => do
    let s ← get
    if s.Interrupt_Dispatch interrupt_number i = old then do
      let places := Function.update (s.Interrupt_Dispatch interrupt_number) i new
      set { s with Interrupt_Dispatch := Function.update s.Interrupt_Dispatch interrupt_number places }
      pure .Ok
    else replaceLoop interrupt_number old new otherwise n (i + 1)

/-- The table has no line for a number that is too large. -/
def replaceHandler (interrupt_number : Int) (old new : Option H) (otherwise : HandlerStatus) :
    Kernel (Locked (Interrupts H σ)) HandlerStatus := do
  acquireLock
  let status ←
    (if 0 ≤ interrupt_number ∧ interrupt_number < IDT_Size then
      onState (replaceLoop interrupt_number.toNat old new otherwise Interrupt_Handlers_Count 0)
    else throw .page_fault)
  releaseLock
  pure status

def interrupt_register_handler (interrupt_number : Int) (handler : Option H) : Kernel (Locked (Interrupts H σ)) HandlerStatus :=
  replaceHandler interrupt_number none handler .Error_Count

def interrupt_unregister_handler (interrupt_number : Int) (handler : Option H) : Kernel (Locked (Interrupts H σ)) HandlerStatus :=
  replaceHandler interrupt_number handler none .Error_Absent

end Handlers

section Dispatch

-- what a call of a handler does: it gets a pointer to the state, and can change it
variable {H σ : Type} (run : H → InterruptCpuState → Kernel (Locked (Interrupts H σ)) (Bool × InterruptCpuState))

def write_port (value : Byte) (port : BitVec 16) : Kernel (Locked (Interrupts H σ)) Unit :=
  modify fun s => { s with state.ports := (port, value) :: s.state.ports }

def PIC_End_Of_Interrupt : Byte := 0x20
def PIC1_Control : BitVec 16 := 0x20
def PIC2_Control : BitVec 16 := 0xa0
def PIC2_First_Interrupt : Byte := 0x08

def pic_end_of_interrupt (interrupt_number : Byte) : Kernel (Locked (Interrupts H σ)) Unit := do
  (if interrupt_number > PIC2_First_Interrupt then write_port PIC_End_Of_Interrupt PIC2_Control else pure ())
  write_port PIC_End_Of_Interrupt PIC1_Control

/-- The loop of `interrupts_dispatcher`, with `n` places left from number `i` on. -/
def dispatchLoop : Nat → Nat → InterruptCpuState → Kernel (Locked (Interrupts H σ)) (Bool × InterruptCpuState)
  | 0, _, r => pure (false, r)
  | n + 1, i, r => do
    match (← get).state.Interrupt_Dispatch r.interrupt_number.toNat i with
    | none => dispatchLoop n (i + 1) r
    | some handler => do
      let (handled, r) ← run handler r
      if handled then pure (true, r) else dispatchLoop n (i + 1) r

def interrupts_dispatcher (r : InterruptCpuState) : Kernel (Locked (Interrupts H σ)) Unit := do
  assert "interrupts_dispatcher" (r.interrupt_number.toNat < IDT_Size)
  let (handled, r) ← dispatchLoop run Interrupt_Handlers_Count 0 r
  -- the registers are logged before
  (if r.interrupt_number < 32 ∧ !handled then throw (.panic "interrupts_dispatcher") else pure ())
  pic_end_of_interrupt (r.interrupt_number.setWidth 8)

end Dispatch

end KernelOfTruth.Code
