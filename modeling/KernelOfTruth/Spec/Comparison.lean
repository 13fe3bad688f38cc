import KernelOfTruth.Spec.Strings
import Mathlib.Order.Defs.Unbundled

/-!
# What the comparisons of `string.h` promise

The contract of the C library. The ranges are given by their bytes, number by number.
-/

open KernelOfTruth.Code

namespace KernelOfTruth.Spec

/-- Number `k` is the first of `n` bytes at which the two ranges differ. -/
def FirstDifference (f g : Nat → Byte) (n k : Nat) : Prop := k < n ∧ (∀ j < k, f j = g j) ∧ f k ≠ g k

/-- Number `k` is the first of at most `n` characters at which the two texts differ. -/
def FirstTextDifference (f g : Nat → Byte) (n k : Nat) : Prop := k < n ∧ ComesTo f g k ∧ f k ≠ g k

/-- The sign of `a - b`, for bytes without a sign. -/
def byteOrder (a b : Byte) : Int := ((a.toNat : Int) - b.toNat).sign

structure ComparesBytes (f g : Nat → Byte) (n : Nat) (result : Int) : Prop where
  zero : result = 0 ↔ ∀ k < n, f k = g k
  sign : ∀ k, FirstDifference f g n k → result.sign = byteOrder (f k) (g k)

structure ComparesTexts (f g : Nat → Byte) (n : Nat) (result : Int) : Prop where
  zero : result = 0 ↔ SameText f g n
  sign : ∀ k, FirstTextDifference f g n k → result.sign = byteOrder (f k) (g k)

def NulFree (f : Nat → Byte) (n : Nat) : Prop := ∀ i < n, f i ≠ 0

/-- The strings of `n` characters without a NUL. -/
def NulFreeString (n : Nat) : Type := { s : List Byte // s.length = n ∧ 0 ∉ s }

/-- What a comparison takes for "not behind". -/
def stringOrder (compare : (s1 s2 : Nat → Kernel Memory Byte) → Nat → Kernel Memory Int) (m : Memory) (n : Nat)
    (x y : NulFreeString n) : Prop :=
  ∃ result, (compare (constant x.val) (constant y.val) n).run m = .ok (result, m) ∧ result ≤ 0

/-- The contract of `memcmp(a, b, n)` and of `strncmp(s, t, k)`, and that the two agree on strings. -/
structure ComparisonContract (m : Memory) (a b : Word) (n : Nat) (s t : Word) (k : Nat) : Prop where
  memcmp : ∃ result, (memcmp (pointer a) (pointer b) n).run m = .ok (result, m) ∧
    ComparesBytes (charAt m a) (charAt m b) n result
  strncmp : ∃ result, (strncmp (pointer s) (pointer t) k).run m = .ok (result, m) ∧
    ComparesTexts (charAt m s) (charAt m t) k result
  memcmpOrder : IsLinearOrder (NulFreeString n) (stringOrder Code.memcmp m n)
  strncmpOrder : IsLinearOrder (NulFreeString n) (stringOrder Code.strncmp m n)
  consistent : NulFree (charAt m a) n → NulFree (charAt m b) n → ∃ r₁ r₂,
    (Code.memcmp (pointer a) (pointer b) n).run m = .ok (r₁, m) ∧
    (Code.strncmp (pointer a) (pointer b) n).run m = .ok (r₂, m) ∧ r₁.sign = r₂.sign

end KernelOfTruth.Spec
