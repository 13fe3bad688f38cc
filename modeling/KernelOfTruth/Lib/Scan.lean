import Mathlib.Order.Basic

/-!
# Loops that scan a range of numbers

A loop goes over the numbers from `i` on, `n` of them at most. It stops at the first one at which it has no
reason to go on. What the loop needs at every number that it comes to splits into what it needs at the first
one and what it needs behind it.
-/

namespace KernelOfTruth.Lib

variable {P C : Nat → Prop} {n i : Nat}

theorem forall_from_succ : (∀ k, i ≤ k → k < i + (n + 1) → P k) ↔ P i ∧ ∀ k, i + 1 ≤ k → k < i + 1 + n → P k := by
  constructor
  · exact fun h => ⟨h i (Nat.le_refl i) (by omega), fun k hk hkn => h k (by omega) (by omega)⟩
  · rintro ⟨hfirst, hrest⟩ k hk hkn
    rcases Nat.eq_or_lt_of_le hk with rfl | hlt
    · exact hfirst
    · exact hrest k hlt (by omega)

/-- The loop goes on behind `j` when `C j` holds. -/
theorem forall_while_succ :
    (∀ k, i ≤ k → k < i + (n + 1) → (∀ j, i ≤ j → j < k → C j) → P k) ↔
      P i ∧ (C i → ∀ k, i + 1 ≤ k → k < i + 1 + n → (∀ j, i + 1 ≤ j → j < k → C j) → P k) := by
  rw [forall_from_succ]
  refine and_congr ⟨fun h => h fun j hj hji => absurd hji (Nat.not_lt.mpr hj), fun h _ => h⟩ ?_
  constructor
  · intro h hgo k hk hkn hbefore
    refine h k hk hkn fun j hj hjk => ?_
    rcases Nat.eq_or_lt_of_le hj with rfl | hlt
    · exact hgo
    · exact hbefore j hlt hjk
  · intro h k hk hkn hbefore
    exact h (hbefore i (Nat.le_refl i) (by omega)) k hk hkn fun j hj hjk => hbefore j (by omega) hjk

end KernelOfTruth.Lib
