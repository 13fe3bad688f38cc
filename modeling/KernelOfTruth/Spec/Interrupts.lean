import KernelOfTruth.Code.Interrupts
import KernelOfTruth.Lib.Bag
import Mathlib.Data.Multiset.Filter

/-!
# The handlers of an interrupt

For each interrupt there is a bag of ten places, and the order of the places is nobody's business.
-/

open KernelOfTruth.Lib KernelOfTruth.Code

namespace KernelOfTruth.Spec

variable {H σ : Type} [DecidableEq H]

abbrev Places (H : Type) := Nat → Multiset (Option H)

/-- One place with `old` in it gets `new`, if there is such a place. -/
def Places.replace (places : Places H) (number : Nat) (old new : Option H) : Places H :=
  if old ∈ places number then Function.update places number (new ::ₘ (places number).erase old) else places

/-- The handlers, each as often as it is registered. -/
def Places.handlers (places : Places H) (number : Nat) : Multiset H := (places number).filterMap id

section Runs

variable (run : H → InterruptCpuState → Kernel (Locked (Interrupts H σ)) (Bool × InterruptCpuState))

/-- Handlers are called in their order, until one of them has handled the interrupt. -/
def callHandlers : List H → InterruptCpuState → Kernel (Locked (Interrupts H σ)) (Bool × InterruptCpuState)
  | [], r => pure (false, r)
  | handler :: handlers, r => do
    let (handled, r) ← run handler r
    if handled then pure (true, r) else callHandlers handlers r

/-- An exception that nobody handles is the end. After any other interrupt both controllers are told, or the first one
alone. -/
def serveInterrupt (handlers : List H) (r : InterruptCpuState) : Kernel (Locked (Interrupts H σ)) Unit := do
  let (handled, r) ← callHandlers run handlers r
  if !handled ∧ r.interrupt_number.toNat < 32 then throw (.panic "interrupts_dispatcher") else
  modify fun s => { s with state.ports :=
    (if r.interrupt_number.toNat ≤ 8 then [(0x20, 0x20)] else [(0x20, 0x20), (0xa0, 0x20)]) ++ s.state.ports }

/-- A handler changes neither the table nor the lock, and not the number of the interrupt. -/
def KeepsTable : Prop := ∀ handler r s, wp (run handler r) (fun result s' => s'.lock = s.lock ∧
  s'.state.Interrupt_Dispatch = s.state.Interrupt_Dispatch ∧ result.2.interrupt_number = r.interrupt_number) (fun _ => True) s

/-- The states after any calls and interrupts, with the bags that there are then. -/
inductive Reached : Locked (Interrupts H σ) → Places H → Prop
  | start (ports : List (BitVec 16 × Byte)) (rest : σ) :
    Reached ⟨Lock_Clear, fun _ _ => none, ports, rest⟩ fun _ => Multiset.replicate 10 none
  | register {s s' : Locked (Interrupts H σ)} {places : Places H} {number : Nat} {handler : Option H} {status : HandlerStatus}
    (h : Reached s places) (hrun : (interrupt_register_handler number handler).run s = .ok (status, s')) :
    Reached s' (places.replace number none handler)
  | unregister {s s' : Locked (Interrupts H σ)} {places : Places H} {number : Nat} {handler : Option H} {status : HandlerStatus}
    (h : Reached s places) (hrun : (interrupt_unregister_handler number handler).run s = .ok (status, s')) :
    Reached s' (places.replace number handler none)
  | interrupt {s s' : Locked (Interrupts H σ)} {places : Places H} {r : InterruptCpuState} (h : Reached s places)
    (hrun : (interrupts_dispatcher run r).run s = .ok ((), s')) : Reached s' places

end Runs

end KernelOfTruth.Spec
