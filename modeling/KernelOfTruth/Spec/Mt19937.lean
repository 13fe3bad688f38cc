import KernelOfTruth.Code.Mt19937

/-!
# The 64-bit Mersenne Twister

The reference generator as a sequence of words: the seed gives the first 312, and each later word comes from three words
before it. Its constants are those of the code, and its shifts are its own.
-/

open KernelOfTruth.Code KernelOfTruth.Code.Mt19937

namespace KernelOfTruth.Spec.MersenneTwister

/-- The words of `init_genrand64`. -/
def seedWord (seed : Word) : Nat → Word
  | 0 => seed
  | k + 1 => F * (seedWord seed k ^^^ seedWord seed k >>> 62) + BitVec.ofNat 64 (k + 1)

/-- The upper 33 bits of one word and the lower 31 of the next one, times the matrix of the generator. -/
def twist (upper lower : Word) : Word :=
  let x := upper &&& 0xffffffff80000000 ||| lower &&& 0x7fffffff
  x >>> 1 ^^^ if x &&& 1 = 0 then 0 else A

def word (seed : Word) (k : Nat) : Word :=
  if k < 312 then seedWord seed k else word seed (k - 156) ^^^ twist (word seed (k - 312)) (word seed (k - 311))

def temper (x : Word) : Word :=
  let x := x ^^^ (x >>> 29 &&& D)
  let x := x ^^^ (x <<< 17 &&& B)
  let x := x ^^^ (x <<< 37 &&& C)
  x ^^^ x >>> 43

/-- What `genrand64_int64` returns in call number `n`, from 1 on. -/
def genrand64 (seed : Word) (n : Nat) : Word := temper (word seed (312 + n - 1))

/-! ## The generator of the kernel -/

/-- The results of `n` calls, one after the other. -/
def calls : Nat → Kernel (Locked Mt19937) (List Word)
  | 0 => pure []
  | n + 1 => do
    let number ← mt19937_64_get_random_number
    return number :: (← calls n)

def seededCalls (seed : Word) (n : Nat) : Kernel (Locked Mt19937) (List Word) := do
  mt19937_64_seed seed
  calls n

/-- Call number `n` returns what the reference does. -/
def FollowsReference (s : Mt19937) (seed : Word) (n : Nat) : Prop :=
  ∃ numbers s', (seededCalls seed n).run ⟨Lock_Clear, s⟩ = .ok (numbers, s') ∧ numbers[n - 1]? = some (genrand64 seed n)

/-- All of `n` calls return, and the lock is free after each of them. -/
def NeverBlocks (s : Mt19937) (seed : Word) (n : Nat) : Prop :=
  ∀ k ≤ n, ∃ numbers s', (seededCalls seed k).run ⟨Lock_Clear, s⟩ = .ok (numbers, ⟨Lock_Clear, s'⟩)

/-- The entries after `mt19937_64_seed`, which leaves the last one as it was. -/
def seeded (s : Mt19937) (seed : Word) (k : Nat) : Word := if k < 311 then seedWord seed k else s.State k

end KernelOfTruth.Spec.MersenneTwister
