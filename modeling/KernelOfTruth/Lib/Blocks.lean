import Mathlib.Data.List.Basic

/-!
# Block by block

A function takes its input in blocks of `n` items. What is left of the input at the end is less than a block, and
waits in front of the next input.
-/

namespace KernelOfTruth.Lib

variable {σ α : Type} {n : Nat} {f : σ → List α → σ} {s : σ} {xs ys : List α}

/-- The state behind the whole blocks of `xs`, and what is left of `xs`. -/
def absorb (n : Nat) (f : σ → List α → σ) (s : σ) (xs : List α) : σ × List α :=
  if 0 < n ∧ n ≤ xs.length then absorb n f (f s (xs.take n)) (xs.drop n) else (s, xs)
termination_by xs.length
decreasing_by rw [List.length_drop]; omega

theorem absorb_of_lt (h : xs.length < n) : absorb n f s xs = (s, xs) := by
  rw [absorb, if_neg fun hn => absurd hn.2 (by omega)]

theorem absorb_block (hn : 0 < n) (h : xs.length = n) : absorb n f s (xs ++ ys) = absorb n f (f s xs) ys := by
  rw [absorb, if_pos ⟨hn, by rw [List.length_append]; omega⟩, List.take_left' h, List.drop_left' h]

theorem absorb_one (hn : 0 < n) (h : xs.length = n) : absorb n f s xs = (f s xs, []) := by
  have habsorb : absorb n f s (xs ++ []) = absorb n f (f s xs) [] := absorb_block hn h
  have hnil : absorb n f (f s xs) [] = (f s xs, []) := absorb_of_lt hn
  rwa [List.append_nil, hnil] at habsorb

/-- An input may come in two pieces. -/
theorem absorb_append (n : Nat) (f : σ → List α → σ) (s : σ) (xs ys : List α) :
    absorb n f s (xs ++ ys) = absorb n f (absorb n f s xs).1 ((absorb n f s xs).2 ++ ys) := by
  fun_induction absorb n f s xs with
  | case1 s xs h ih =>
    have htake : (xs.take n).length = n := by
      rw [List.length_take]
      omega
    rw [← ih, ← absorb_block h.1 htake, ← List.append_assoc, List.take_append_drop]
  | case2 => rfl

theorem absorb_length (hn : 0 < n) : (absorb n f s xs).2.length = xs.length % n := by
  fun_induction absorb n f s xs with
  | case1 s xs h ih => rw [ih, List.length_drop, ← Nat.mod_eq_sub_mod h.2]
  | case2 s xs h => exact (Nat.mod_eq_of_lt (Nat.lt_of_not_le fun hle => h ⟨hn, hle⟩)).symm

end KernelOfTruth.Lib
