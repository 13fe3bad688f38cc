import KernelOfTruth.Code.Bitmap
import KernelOfTruth.Spec.Strings
import Mathlib.Data.Set.Insert

/-!
# What a bitmap is for

A bitmap is a set of entries below its count.
-/

open KernelOfTruth.Code

namespace KernelOfTruth.Spec

inductive BitmapCall
  | set (entry : Word)
  | clear (entry : Word)
  | set_range (start length : Word)
  | get_index

/-- The call is about entries below the count. -/
def BitmapCall.Below (count : Word) : BitmapCall → Prop
  | .set entry => entry < count
  | .clear entry => entry < count
  | .set_range start length => start < count ∧ start.toNat + length.toNat ≤ count.toNat
  | .get_index => True

/-- Memory for a bitmap, and nothing else: two fields of 8 bytes each and a bit for each entry. -/
structure BitmapMemory (m : Memory) (bitmap count : Word) : Prop where
  nonnull : bitmap ≠ 0
  fits : bitmap.toNat + (16 + count.toNat / 8) ≤ 2 ^ 64
  mapped : ∀ x, (m x).isSome ↔ Covers bitmap (16 + count.toNat / 8) x

/-- No two entries have the same bit of the same word. -/
def DistinctBits (count : Word) : Prop :=
  ∀ a < count, ∀ b < count, bitmap_index a = bitmap_index b → bitmap_bit a = bitmap_bit b → a = b

variable (bitmap count : Word)

/-- `bitmap_is_set` is right about every entry. -/
def TellsMembers (m : Memory) (members : Set Word) : Prop :=
  ∀ entry < count, ∃ found, (bitmap_is_set bitmap entry).run m = .ok (found, m) ∧ (found = true ↔ entry ∈ members)

/-- Each of the calls returns and does its work on the set. -/
def ServesSet : List BitmapCall → Memory → Set Word → Prop
  | [], m, members => TellsMembers bitmap count m members
  | .set entry :: calls, m, members => TellsMembers bitmap count m members ∧
    ∃ m', (bitmap_set bitmap entry).run m = .ok ((), m') ∧ ServesSet calls m' (insert entry members)
  | .clear entry :: calls, m, members => TellsMembers bitmap count m members ∧
    ∃ m', (bitmap_clear bitmap entry).run m = .ok ((), m') ∧ ServesSet calls m' (members \ {entry})
  | .set_range start length :: calls, m, members => TellsMembers bitmap count m members ∧
    ∃ m', (bitmap_set_range bitmap start length).run m = .ok ((), m') ∧
      ServesSet calls m' (members ∪ { entry | start ≤ entry ∧ entry.toNat < start.toNat + length.toNat })
  | .get_index :: calls, m, members => TellsMembers bitmap count m members ∧
    ((∃ entry m', (bitmap_get_index bitmap).run m = .ok ((.Ok, some entry), m') ∧ entry < count ∧ entry ∉ members ∧
        ServesSet calls m' (insert entry members)) ∨
      ∃ m', (bitmap_get_index bitmap).run m = .ok ((.Error_Full, none), m') ∧ (∀ entry < count, entry ∈ members) ∧
        ServesSet calls m' members)

/-- From `bitmap_static_init` on, the bitmap refines a set. -/
def RefinesSet (calls : List BitmapCall) (m : Memory) : Prop :=
  DistinctBits count ∧
    ∃ m', (bitmap_static_init bitmap count).run m = .ok ((), m') ∧ ServesSet bitmap count calls m' ∅

end KernelOfTruth.Spec
