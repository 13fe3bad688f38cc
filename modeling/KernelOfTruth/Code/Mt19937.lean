import KernelOfTruth.Code.Lock
import Mathlib.Logic.Function.Basic

/-!
# `kernel/core/mt19937_64.c`
-/

namespace KernelOfTruth.Code

/-- `MT19937_64_Index`, and the entries of `MT19937_64_State`. -/
structure Mt19937 where
  Index : Word
  State : Nat → Word

namespace Mt19937

def W : Nat := 64
def N : Nat := 312
def M : Nat := 156
def A : Word := 0xb5026f5aa96619e9
def U : Nat := 29
def D : Word := 0x5555555555555555
def S : Nat := 17
def B : Word := 0x71d67fffeda60000
def T : Nat := 37
def C : Word := 0xfff7eee000000000
def F : Word := 6364136223846793005

def Lower_Mask : Word := 0x7fffffff
def Upper_Mask : Word := ~~~Lower_Mask

def setState (i : Nat) (v : Word) : Kernel Mt19937 Unit := modify fun s => { s with State := Function.update s.State i v }

def setIndex (v : Word) : Kernel Mt19937 Unit := modify fun s => { s with Index := v }

/-- The loop of `mt19937_64_seed`, with `n` rounds left from entry number `i` on. -/
def seedLoop : Nat → Nat → Kernel Mt19937 Unit
  | 0, _ => pure ()
  | n + 1, i => do
    let before := (← get).State (i - 1)
    setState i (F * (before ^^^ before >>> (W - 2)) + BitVec.ofNat 64 i)
    seedLoop n (i + 1)

def mt19937_64_seed (seed : Word) : Kernel (Locked Mt19937) Unit := do
  acquireLock
  onState do
    setState 0 seed
    seedLoop (N - 1 - 1) 1
    setIndex 0
  releaseLock

/-- The loop of `mt19937_64_twist`. -/
def twistLoop : Nat → Nat → Kernel Mt19937 Unit
  | 0, _ => pure ()
  | n + 1, i => do
    let state := (← get).State
    let x := (state i &&& Upper_Mask) + (state ((i + 1) % N) &&& Lower_Mask)
    let xA := if x &&& 1 = 1 then x >>> 1 ^^^ A else x >>> 1
    setState i (state ((i + M) % N) ^^^ xA)
    twistLoop n (i + 1)

def mt19937_64_twist : Kernel (Locked Mt19937) Unit := do
  acquireLock
  onState do
    twistLoop (N - 1) 0
    setIndex 0
  releaseLock

/-- The changes of `y` in `mt19937_64_get_random_number`. -/
def temper (y : Word) : Word :=
  let y := y ^^^ (y >>> U &&& D)
  let y := y ^^^ (y <<< S &&& B)
  let y := y ^^^ (y <<< T &&& C)
  y ^^^ y >>> 1

def mt19937_64_get_random_number : Kernel (Locked Mt19937) Word := do
  acquireLock
  assert "mt19937_64_get_random_number" ((← get).state.Index.toNat ≤ N)
  (if (← get).state.Index.toNat = N then mt19937_64_twist else pure ())
  let s := (← get).state
  onState (setIndex (s.Index + 1))
  releaseLock
  pure (temper (s.State s.Index.toNat))

end Mt19937

end KernelOfTruth.Code
