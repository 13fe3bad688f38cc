import KernelOfTruth.Code.Random
import KernelOfTruth.Spec.Strings

/-!
# What `random_bytes` is for
-/

open KernelOfTruth.Code

namespace KernelOfTruth.Spec

variable (s : RandomState) (buf size : Word)

/-- Byte number `i` of the numbers to come, the low byte of each number first. -/
def randomByte (i : Nat) : Byte := (s.numbers (s.taken + i / 8) >>> (8 * (i % 8))).setWidth 8

/-- The buffer has the next bytes, and nothing else has changed. -/
def FillsBuffer : Prop :=
  ∃ s', (random_bytes buf size).run s = .ok ((), s') ∧ s'.taken = s.taken + (size.toNat + 7) / 8 ∧
    (∀ i < size.toNat, s'.memory (buf + BitVec.ofNat 64 i) = some (randomByte s i)) ∧
    ∀ x, ¬ Covers buf size.toNat x → s'.memory x = s.memory x

/-- A shift by `i` bits gives the same low byte as a shift by `i` bytes. -/
def ShiftsAgree (number : Word) (n : Nat) : Prop :=
  ∀ i < n, (number >>> i).setWidth 8 = (number >>> (8 * i)).setWidth 8

instance (number : Word) (n : Nat) : Decidable (ShiftsAgree number n) :=
  inferInstanceAs (Decidable (∀ i < n, (number >>> i).setWidth 8 = (number >>> (8 * i)).setWidth 8))

end KernelOfTruth.Spec
