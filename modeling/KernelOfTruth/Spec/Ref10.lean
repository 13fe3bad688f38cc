import KernelOfTruth.Code.Ref10.Field
import Mathlib.Data.ZMod.Basic

/-!
# The numbers behind the arrays of `curve25519_ref10.c`
-/

open KernelOfTruth.Lib KernelOfTruth.Code.Ref10

namespace KernelOfTruth.Spec.Ref10

/-- The field has `2^255 - 19` elements. -/
def p : Nat := 2 ^ 255 - 19

/-- `t[0]+2^26 t[1]+2^51 t[2]+2^77 t[3]+2^102 t[4]+...+2^230 t[9]`. -/
def radix : List Int := [1, 2 ^ 26, 2 ^ 51, 2 ^ 77, 2 ^ 102, 2 ^ 128, 2 ^ 153, 2 ^ 179, 2 ^ 204, 2 ^ 230]

def feValue (f : Fe) : Int := LimbStep.weigh radix fun i => (f i).toInt

/-- The element of the field. -/
def feMod (f : Fe) : ZMod p := feValue f

/-- An even entry has one bit more than an odd one. -/
def evenness (i : Nat) : Int := if i % 2 = 0 then 2 else 1

def FeBounded (k : Int) (f : Fe) : Prop := ∀ i < 10, -(evenness i * k) ≤ (f i).toInt ∧ (f i).toInt ≤ evenness i * k

/-- `1.65*2^26,1.65*2^25,1.65*2^26,1.65*2^25,etc.` -/
def mulBound : Int := 55364812

/-- `1.01*2^25,1.01*2^24,1.01*2^25,1.01*2^24,etc.` -/
def reducedBound : Int := 16944988

end KernelOfTruth.Spec.Ref10
