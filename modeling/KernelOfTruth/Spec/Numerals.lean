import KernelOfTruth.Spec.Format
import Mathlib.Algebra.Ring.Int.Defs

/-!
# Numerals

What a reader makes of the digits that `vfprintf` prints for an integer.
-/

open KernelOfTruth.Code KernelOfTruth.Code.Format

namespace KernelOfTruth.Spec

/-! ## Reading -/

/-- There are no capital letters among the digits. -/
def digitValue (c : Byte) : Option Nat :=
  if chr '0' ≤ c ∧ c ≤ chr '9' then some (c - chr '0').toNat
  else if chr 'a' ≤ c ∧ c ≤ chr 'f' then some ((c - chr 'a').toNat + 10)
  else none

/-- The value of a numeral after one more digit. -/
def readDigit (base value : Nat) (c : Byte) : Option Nat := do
  let digit ← digitValue c
  if digit < base then pure (value * base + digit) else none

/-- The value of a text of one digit or more. -/
def readNat (base : Nat) (text : List Byte) : Option Nat :=
  if text = [] then none else text.foldlM (readDigit base) 0

/-- The value of a text of digits that may start with a minus sign. -/
def readInt (base : Nat) (text : List Byte) : Option Int :=
  if text.head? = some (chr '-') then (readNat base text.tail).map fun n : Nat => -(n : Int)
  else (readNat base text).map fun n : Nat => (n : Int)

/-! ## Directives -/

inductive Modifier
  | none
  | hh
  | h
  | l
  | ll
  | z
  deriving DecidableEq

def Modifier.chars : Modifier → List Byte
  | none => []
  | hh => [chr 'h', chr 'h']
  | h => [chr 'h']
  | l => [chr 'l']
  | ll => [chr 'l', chr 'l']
  | z => [chr 'z']

/-- The size of the integer that the modifier is for: `char`, `short`, `int`, `long`, `long long` or `size_t`. -/
def Modifier.size : Modifier → Nat
  | none => 4
  | hh => 1
  | h => 2
  | l => 8
  | ll => 8
  | z => 8

/-- A pointer has 8 bytes without any modifier. -/
def operandSize (m : Modifier) (conv : Byte) : Nat := if m = .none ∧ conv = chr 'p' then 8 else m.size

/-- The argument that a caller passes for an integer of `size` bytes. One that is smaller than an `int` is promoted. -/
def passed (size : Nat) (v : Int) : Arg := if size = 8 then .long (BitVec.ofInt 64 v) else .int (BitVec.ofInt 32 v)

def directiveChars (m : Modifier) (conv : Byte) : List Byte := chr '%' :: (m.chars ++ [conv])

/-- What `vfprintf` writes for the directive has the property, when all writes succeed: behind any characters that stand
for themselves, and before any other format that has a text with the arguments behind `arg`. -/
def DirectiveWrites (m : Modifier) (conv : Byte) (arg : Arg) (P : List Byte → Prop) : Prop :=
  ∀ (before after : List Byte) (hnul : 0 ∉ before ++ (directiveChars m conv ++ after)) (args : List Arg)
    (more : List Byte) (s : FormatState), chr '%' ∉ before → formatText after args = some more → s.blocks = [] →
    s.args = arg :: args → ∃ text s', (vfprintf (some fun _ => .Ok) ⟨_, hnul⟩).run s = .ok (.Ok, s') ∧
      s'.blocks.flatten = before ++ (text ++ more) ∧ P text

/-- A signed integer of `size` bytes. -/
def IsSigned (size : Nat) (v : Int) : Prop := -2 ^ (8 * size - 1) ≤ v ∧ v < 2 ^ (8 * size - 1)

def IsUnsigned (size : Nat) (v : Int) : Prop := 0 ≤ v ∧ v < 2 ^ (8 * size)

end KernelOfTruth.Spec
