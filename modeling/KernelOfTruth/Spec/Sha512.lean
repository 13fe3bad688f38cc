import KernelOfTruth.Code.Sha512
import KernelOfTruth.Lib.Blocks
import Mathlib.Analysis.SpecialFunctions.Pow.Real
import Mathlib.NumberTheory.PrimeCounting

/-!
# SHA-512

The hash function as FIPS 180-4 defines it: its constants come from the roots of the first primes, its schedule is one
recurrence, and in a round all eight working variables move on by one place.
-/

open KernelOfTruth.Lib KernelOfTruth.Code

namespace KernelOfTruth.Spec.Sha512

/-! ## Constants -/

/-- The first 64 bits of the fraction. -/
noncomputable def fractionBits (x : ℝ) : Word := BitVec.ofNat 64 ⌊Int.fract x * 2 ^ 64⌋₊

noncomputable def roundConstant (t : Nat) : Word := fractionBits ((Nat.nth Nat.Prime t : ℝ) ^ (3 : ℝ)⁻¹)

noncomputable def initialHash (i : Fin 8) : Word := fractionBits ((Nat.nth Nat.Prime i : ℝ) ^ (2 : ℝ)⁻¹)

/-! ## Words and bytes -/

/-- The number whose bytes these are, the highest one first. -/
def bigEndianValue (bytes : List Byte) : Nat := bytes.foldl (fun v b => 256 * v + b.toNat) 0

/-- The lowest `n` bytes of a number, the highest one of them first. -/
def bigEndian (n value : Nat) : List Byte := (List.range n).map fun i => BitVec.ofNat 8 (value / 256 ^ (n - 1 - i))

/-- Word number `t` of a block. -/
def blockWord (block : List Byte) (t : Nat) : Word := BitVec.ofNat 64 (bigEndianValue ((block.drop (8 * t)).take 8))

/-! ## One block -/

def choose (x y z : Word) : Word := (x &&& y) ^^^ (~~~x &&& z)
def majority (x y z : Word) : Word := (x &&& y) ^^^ (x &&& z) ^^^ (y &&& z)
def bigSigma0 (x : Word) : Word := x.rotateRight 28 ^^^ x.rotateRight 34 ^^^ x.rotateRight 39
def bigSigma1 (x : Word) : Word := x.rotateRight 14 ^^^ x.rotateRight 18 ^^^ x.rotateRight 41
def smallSigma0 (x : Word) : Word := x.rotateRight 1 ^^^ x.rotateRight 8 ^^^ x >>> 7
def smallSigma1 (x : Word) : Word := x.rotateRight 19 ^^^ x.rotateRight 61 ^^^ x >>> 6

def schedule (block : List Byte) (t : Nat) : Word :=
  if t < 16 then blockWord block t
  else smallSigma1 (schedule block (t - 2)) + schedule block (t - 7) + smallSigma0 (schedule block (t - 15)) +
    schedule block (t - 16)

/-- The working variables. -/
structure Working where
  a : Word
  b : Word
  c : Word
  d : Word
  e : Word
  f : Word
  g : Word
  h : Word

def Working.round (v : Working) (k w : Word) : Working :=
  let t₁ := v.h + bigSigma1 v.e + choose v.e v.f v.g + k + w
  let t₂ := bigSigma0 v.a + majority v.a v.b v.c
  ⟨t₁ + t₂, v.a, v.b, v.c, v.d + t₁, v.e, v.f, v.g⟩

/-- The working variables after `t` rounds. -/
noncomputable def working (hash : Fin 8 → Word) (block : List Byte) : Nat → Working
  | 0 => ⟨hash 0, hash 1, hash 2, hash 3, hash 4, hash 5, hash 6, hash 7⟩
  | t + 1 => (working hash block t).round (roundConstant t) (schedule block t)

noncomputable def compress (hash : Fin 8 → Word) (block : List Byte) : Fin 8 → Word :=
  let v := working hash block 80
  fun i => hash i + ![v.a, v.b, v.c, v.d, v.e, v.f, v.g, v.h] i

/-! ## A message -/

/-- A one bit and as few zeros as make room for the length in bits, which takes 16 bytes. -/
def padding (length : Nat) : List Byte :=
  0x80 :: (List.replicate ((239 - length % 128) % 128) 0 ++ bigEndian 16 (8 * length))

noncomputable def sha512 (message : List Byte) : List Byte :=
  let hash := (absorb 128 compress initialHash (message ++ padding message.length)).1
  (List.finRange 8).flatMap fun i => bigEndian 8 (hash i).toNat

/-! ## The calls of the code -/

/-- The first `n` bytes behind a pointer. -/
def bytesFrom (p : Nat → Byte) (n : Nat) : List Byte := (List.range n).map p

/-- A call of `crypto_hash_sha512_update`, with what the stack holds then. -/
structure Update where
  input : Nat → Byte
  inlen : Word
  tmp64 : Nat → Word

def Update.piece (u : Update) : List Byte := bytesFrom u.input u.inlen.toNat

def Update.run (s : Sha512State) (u : Update) : Sha512State :=
  Code.Sha512.crypto_hash_sha512_update s u.input u.inlen u.tmp64

end KernelOfTruth.Spec.Sha512
