import Mathlib.Data.Multiset.Range
import Mathlib.Data.Multiset.MapFold
import Mathlib.Data.Multiset.Count
import Mathlib.Tactic.Common

/-!
# The used part of an array, without its order

An array with a count of used elements is a multiset. Elements are added at the end, changed in place,
and removed by moving the last one into the gap.
-/

namespace KernelOfTruth.Lib

variable {α : Type}

def bag (f : Nat → α) (n : Nat) : Multiset α := (Multiset.range n).map f

theorem mem_bag {f : Nat → α} {n : Nat} {x : α} : x ∈ bag f n ↔ ∃ i < n, f i = x := by
  simp [bag]

theorem bag_succ (f : Nat → α) (n : Nat) : bag f (n + 1) = f n ::ₘ bag f n := by
  simp [bag, Multiset.range_succ]

theorem bag_update_of_le {f : Nat → α} {i n : Nat} (h : n ≤ i) (x : α) : bag (Function.update f i x) n = bag f n := by
  refine Multiset.map_congr rfl fun j hj => ?_
  have hlt := Multiset.mem_range.mp hj
  exact Function.update_of_ne (by omega) _ _

theorem bag_push (f : Nat → α) (n : Nat) (x : α) : bag (Function.update f n x) (n + 1) = x ::ₘ bag f n := by
  rw [bag_succ, bag_update_of_le le_rfl, Function.update_self]

theorem bag_set {f : Nat → α} {i n : Nat} (h : i < n) (x : α) :
    f i ::ₘ bag (Function.update f i x) n = x ::ₘ bag f n := by
  induction n with
  | zero => omega
  | succ n ih =>
    rw [bag_succ, bag_succ]
    by_cases hi : i = n
    · subst hi
      rw [bag_update_of_le le_rfl, Function.update_self, Multiset.cons_swap]
    · rw [Function.update_of_ne (by omega), Multiset.cons_swap, ih (by omega), Multiset.cons_swap]

theorem bag_swap_remove {f : Nat → α} {i n : Nat} (h : i < n + 1) :
    f i ::ₘ bag (Function.update f i (f n)) n = bag f (n + 1) := by
  rw [bag_succ]
  by_cases hi : i = n
  · subst hi
    rw [bag_update_of_le le_rfl]
  · exact bag_set (by omega) _

end KernelOfTruth.Lib
