import Mathlib.Logic.Function.Basic

/-!
# Arrays that are filled place by place

Some places of an array have new values, and one more gets its own.
-/

namespace KernelOfTruth.Lib

variable {ι α : Type} [DecidableEq ι] {p p' : ι → Prop} [DecidablePred p] [DecidablePred p'] {f g : ι → α} {i : ι}

/-- The place was filled before the others. -/
theorem ite_update (h : ∀ k, p' k ↔ p k ∨ k = i) :
    (fun k => if p k then f k else Function.update g i (f i) k) = fun k => if p' k then f k else g k := by
  funext k
  by_cases hk : k = i
  · subst hk
    rw [Function.update_self, ite_self, if_pos ((h k).mpr (.inr rfl))]
  · rw [Function.update_of_ne hk]
    by_cases hp : p k
    · rw [if_pos hp, if_pos ((h k).mpr (.inl hp))]
    · rw [if_neg hp, if_neg fun hp' => ((h k).mp hp').elim hp hk]

/-- The place is filled after the others. -/
theorem update_ite (h : ∀ k, p' k ↔ p k ∨ k = i) :
    Function.update (fun k => if p k then f k else g k) i (f i) = fun k => if p' k then f k else g k := by
  rw [← ite_update h]
  funext k
  by_cases hk : k = i
  · subst hk
    rw [Function.update_self, Function.update_self, ite_self]
  · rw [Function.update_of_ne hk, Function.update_of_ne hk]

/-- A loop that fills the `n` places from `o` on. -/
theorem foldl_update_range {f g : Nat → α} {o : Nat} (n : Nat) :
    (List.range n).foldl (fun a i => Function.update a (o + i) (f i)) g = fun k => if o ≤ k ∧ k < o + n then f (k - o) else g k := by
  induction n with
  | zero =>
    funext k
    rw [if_neg (by omega)]
    rfl
  | succ n ih =>
    rw [List.range_succ, List.foldl_append, ih, List.foldl_cons, List.foldl_nil, show f n = f (o + n - o) by rw [Nat.add_sub_cancel_left]]
    exact update_ite (f := fun k => f (k - o)) fun k => by omega

end KernelOfTruth.Lib
