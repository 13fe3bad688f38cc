import KernelOfTruth.Code.Entropy

/-!
# What the entropy pool is for
-/

open KernelOfTruth.Code

namespace KernelOfTruth.Spec

inductive EntropyCall
  | seed (byte : Byte)
  | consume
  deriving DecidableEq

/-- A byte comes into the pool, or goes out of it. -/
inductive EntropyEvent
  | seeded (byte : Byte)
  | returned (byte : Byte)
  deriving DecidableEq

/-- The bytes of a word, the low one first. -/
def jitterBytes (entropy : Word) : List Byte := (List.range 8).map fun i => (entropy >>> (8 * i)).setWidth 8

/-- What `entropy_pool_consume` seeds before it takes a byte. -/
def refill (s : Entropy) : List Byte := if s.Entropy_Pool_Index < 0 then jitterBytes (s.jitter.headD 0) else []

/-- The calls one after the other, and what comes in and goes out. -/
def entropyCalls : List EntropyCall → Kernel (Locked Entropy) (List EntropyEvent)
  | [] => pure []
  | .seed byte :: calls => do
    entropy_pool_seed byte
    return .seeded byte :: (← entropyCalls calls)
  | .consume :: calls => do
    let s := (← get).state
    let byte ← entropy_pool_consume
    return (refill s).map .seeded ++ .returned byte :: (← entropyCalls calls)

/-- Each byte that goes out has come in before, and has not gone out since. -/
def OnceEach (events : List EntropyEvent) : Prop :=
  ∀ earlier byte later, events = earlier ++ .returned byte :: later →
    earlier.count (.returned byte) < earlier.count (.seeded byte)

/-- The pool at boot. -/
def bootEntropy (jitter : List Word) : Entropy := ⟨0, fun _ => 0, jitter⟩

/-- All calls return, without an access outside of the pool, and no byte is made up or used again. -/
def PoolDisciplined (jitter : List Word) (calls : List EntropyCall) : Prop :=
  ∃ events s', (entropyCalls calls).run ⟨Lock_Clear, bootEntropy jitter⟩ = .ok (events, s') ∧ OnceEach events

/-- With `n` bytes in the pool at the start there is one for each call that takes one, and there are never more than 255. -/
def CallsBalanced : Nat → List EntropyCall → Prop
  | _, [] => True
  | n, .seed _ :: calls => n < 255 ∧ CallsBalanced (n + 1) calls
  | 0, .consume :: _ => False
  | n + 1, .consume :: calls => CallsBalanced n calls

end KernelOfTruth.Spec
