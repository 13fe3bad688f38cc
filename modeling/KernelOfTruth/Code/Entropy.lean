import KernelOfTruth.Code.Lock
import Mathlib.Logic.Function.Basic

/-!
# `kernel/core/entropy.c`

Nothing but the pool is mapped, so that an access outside of it is a page fault. What `memory_jitter_calculate` returns
depends on the time that loads and stores take.
-/

namespace KernelOfTruth.Code

def Entropy_Pool_Size : Nat := 256

/-- `Entropy_Pool_Index` and `Entropy_Pool`, with the results of the calls of `memory_jitter_calculate` to come. -/
structure Entropy where
  Entropy_Pool_Index : Int
  Entropy_Pool : Nat → Byte
  jitter : List Word

/-- The place of `Entropy_Pool[Entropy_Pool_Index]`. -/
def poolPlace : Kernel Entropy Nat := do
  let index := (← get).Entropy_Pool_Index
  if 0 ≤ index ∧ index < Entropy_Pool_Size then pure index.toNat else throw .page_fault

def entropy_pool_seed (byte : Byte) : Kernel (Locked Entropy) Unit := do
  acquireLock
  onState do
    modify fun s => { s with Entropy_Pool_Index := s.Entropy_Pool_Index + 1 }
    let place ← poolPlace
    modify fun s => { s with Entropy_Pool := Function.update s.Entropy_Pool place byte }
  releaseLock

/-- The entropy is 0 when no more results are given. -/
def memory_jitter_calculate : Kernel (Locked Entropy) Word := do
  let s ← get
  set { s with state.jitter := s.state.jitter.tail }
  pure (s.state.jitter.headD 0)

/-- The loop of `entropy_pool_consume`, for `n` bytes. -/
def refillLoop : Nat → Word → Kernel (Locked Entropy) Unit
  | 0, _ => pure ()
  | n + 1, memory_jitter_entropy => do
    entropy_pool_seed ((memory_jitter_entropy &&& 0xff).setWidth 8)
    refillLoop n (memory_jitter_entropy >>> 8)

def entropy_pool_consume : Kernel (Locked Entropy) Byte := do
  acquireLock
  (if (← get).state.Entropy_Pool_Index < 0 then do
    releaseLock
    refillLoop 8 (← memory_jitter_calculate)
    acquireLock
  else pure ())
  let value ← onState do
    let value := (← get).Entropy_Pool (← poolPlace)
    modify fun s => { s with Entropy_Pool_Index := s.Entropy_Pool_Index - 1 }
    pure value
  releaseLock
  pure value

end KernelOfTruth.Code
