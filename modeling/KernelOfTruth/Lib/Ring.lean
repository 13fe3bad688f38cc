import Mathlib.Data.List.Nodup
import Mathlib.Logic.Function.Basic

/-!
# Rings

Nodes that are linked both ways in a circle. The links are two functions, and a ring is given by one of its
nodes and the list of the others, in the order of `next`.
-/

namespace KernelOfTruth.Lib

variable {α : Type} {next prev next' prev' : α → α}

/-- From `a` the links go through `xs` to `b`, and back the same way. -/
def Path (next prev : α → α) : α → List α → α → Prop
  | a, [], b => next a = b ∧ prev b = a
  | a, x :: xs, b => next a = x ∧ prev x = a ∧ Path next prev x xs b

structure Ring (next prev : α → α) (x : α) (xs : List α) : Prop where
  path : Path next prev x xs x
  nodup : (x :: xs).Nodup

/-! ## Paths -/

theorem path_append {a b x : α} {xs ys : List α} :
    Path next prev a (xs ++ x :: ys) b ↔ Path next prev a xs x ∧ Path next prev x ys b := by
  induction xs generalizing a with
  | nil => simp [Path, and_assoc]
  | cons y xs ih => simp [Path, ih, and_assoc]

theorem path_congr {a b : α} {xs : List α} (h : Path next prev a xs b) (hnext : ∀ y ∈ a :: xs, next' y = next y)
    (hprev : ∀ y ∈ b :: xs, prev' y = prev y) : Path next' prev' a xs b := by
  induction xs generalizing a with
  | nil => exact ⟨(hnext a (by simp)).trans h.1, (hprev b (by simp)).trans h.2⟩
  | cons x xs ih =>
    obtain ⟨h1, h2, h3⟩ := h
    refine ⟨(hnext a (by simp)).trans h1, (hprev x (by simp)).trans h2, ih h3 ?_ ?_⟩
    · intro y hy
      exact hnext y (List.mem_cons_of_mem _ hy)
    · intro y hy
      refine hprev y ?_
      rcases List.mem_cons.mp hy with rfl | hy
      · simp
      · simp [hy]

theorem path_prev_mem {a b : α} {xs : List α} (h : Path next prev a xs b) : prev b ∈ a :: xs := by
  induction xs generalizing a with
  | nil => simp [h.2]
  | cons x xs ih => exact List.mem_cons_of_mem _ (ih h.2.2)

theorem path_next_mem {a b : α} {xs : List α} (h : Path next prev a xs b) : next a ∈ xs ++ [b] := by
  cases xs with
  | nil => simp [h.1]
  | cons x xs => simp [h.1]

theorem ring_rotate {x y : α} {xs : List α} (h : Ring next prev x (y :: xs)) : Ring next prev y (xs ++ [x]) := by
  obtain ⟨h1, h2, h3⟩ := h.path
  refine ⟨path_append.mpr ⟨h3, h1, h2⟩, ?_⟩
  have hperm : (y :: (xs ++ [x])).Perm (x :: y :: xs) := List.perm_append_singleton x (y :: xs)
  exact hperm.nodup_iff.mpr h.nodup

theorem ring_nodup_middle {x t : α} {ys zs : List α} (h : Ring next prev x (ys ++ t :: zs)) :
    (t :: x :: (ys ++ zs)).Nodup := by
  have hperm : (x :: (ys ++ t :: zs)).Perm (t :: x :: (ys ++ zs)) := (List.perm_middle.cons x).trans (List.Perm.swap t x _)
  exact hperm.nodup_iff.mp h.nodup

/-- A node that is its own successor is alone. -/
theorem ring_self {x t : α} {xs : List α} (h : Ring next prev x xs) (ht : t ∈ x :: xs) (hself : next t = t) :
    x = t ∧ xs = [] := by
  rcases List.mem_cons.mp ht with rfl | ht
  · cases xs with
    | nil => exact ⟨rfl, rfl⟩
    | cons y ys =>
      have hy : next t = y := h.path.1
      exact absurd h.nodup (by simp [← hy, hself])
  · obtain ⟨ys, zs, rfl⟩ := List.append_of_mem ht
    have hnot := (List.nodup_cons.mp (ring_nodup_middle h)).1
    have hnext := path_next_mem (path_append.mp h.path).2
    rw [hself] at hnext
    simp only [List.mem_append, List.mem_cons, List.not_mem_nil, or_false] at hnext hnot
    tauto

theorem ring_prev_ne {x t : α} {ys zs : List α} (h : Ring next prev x (ys ++ t :: zs)) : t ≠ prev t := by
  have hmem := path_prev_mem (path_append.mp h.path).1
  have hnot := (List.nodup_cons.mp (ring_nodup_middle h)).1
  intro e
  rw [← e] at hmem
  simp only [List.mem_cons, List.mem_append] at hmem hnot
  tauto

section Links

variable [DecidableEq α]

/-- The last link of a path goes to `c` instead. -/
theorem path_retarget {a b c : α} {xs : List α} (h : Path next prev a xs b) (hnodup : (a :: xs).Nodup) (hc : c ∉ xs) :
    Path (Function.update next (prev b) c) (Function.update prev c (prev b)) a xs c := by
  induction xs generalizing a with
  | nil =>
    obtain ⟨-, rfl⟩ := h
    exact ⟨Function.update_self .., Function.update_self ..⟩
  | cons x xs ih =>
    obtain ⟨h1, h2, h3⟩ := h
    obtain ⟨ha, hxs⟩ := List.nodup_cons.mp hnodup
    rw [List.mem_cons, not_or] at hc
    have hne : a ≠ prev b := fun e => ha (e ▸ path_prev_mem h3)
    refine ⟨?_, ?_, ih h3 hxs hc.2⟩
    · rw [Function.update_of_ne hne, h1]
    · rw [Function.update_of_ne (Ne.symm hc.1), h2]

/-! ## Rings -/

theorem ring_single (t : α) : Ring (Function.update next t t) (Function.update prev t t) t [] :=
  ⟨⟨Function.update_self .., Function.update_self ..⟩, by simp⟩

theorem ring_insert {x t : α} {xs : List α} (h : Ring next prev x xs) (ht : t ∉ x :: xs) :
    Ring (Function.update (Function.update next t (next x)) x t)
      (Function.update (Function.update prev t x) (next x) t) x (t :: xs) := by
  have hnodup : (x :: t :: xs).Nodup := (List.Perm.swap t x xs).nodup_iff.mpr (List.nodup_cons.mpr ⟨ht, h.nodup⟩)
  rw [List.mem_cons, not_or] at ht
  refine ⟨?_, hnodup⟩
  cases xs with
  | nil =>
    obtain ⟨hx, -⟩ := h.path
    rw [hx]
    simp [Path, ht.1]
  | cons y ys =>
    obtain ⟨hx, -, hrest⟩ := h.path
    have hty : t ≠ y := fun e => ht.2 (by simp [e])
    rw [hx]
    refine ⟨Function.update_self .., ?_, ?_, Function.update_self .., ?_⟩
    · rw [Function.update_of_ne hty, Function.update_self]
    · rw [Function.update_of_ne ht.1, Function.update_self]
    · obtain ⟨hxy, hy⟩ := List.nodup_cons.mp h.nodup
      refine path_congr hrest ?_ ?_
      · intro z hz
        have hzx : z ≠ x := fun e => hxy (e ▸ hz)
        have hzt : z ≠ t := fun e => ht.2 (e ▸ hz)
        rw [Function.update_of_ne hzx, Function.update_of_ne hzt]
      · intro z hz
        rw [Function.update_of_ne, Function.update_of_ne]
        · rintro rfl
          rcases List.mem_cons.mp hz with rfl | hz
          · exact ht.1 rfl
          · exact ht.2 (List.mem_cons_of_mem _ hz)
        · rintro rfl
          rcases List.mem_cons.mp hz with rfl | hz
          · exact hxy (by simp)
          · exact (List.nodup_cons.mp hy).1 hz

theorem ring_erase {x t null : α} {ys zs : List α} (h : Ring next prev x (ys ++ t :: zs)) :
    Ring (Function.update (Function.update next (prev t) (next t)) t null)
      (Function.update (Function.update prev (next t) (prev t)) t null) x (ys ++ zs) := by
  obtain ⟨hto, hfrom⟩ := path_append.mp h.path
  obtain ⟨ht, hring⟩ := List.nodup_cons.mp (ring_nodup_middle h)
  have hys : (x :: ys).Nodup := hring.sublist ((List.sublist_append_left ys zs).cons_cons x)
  have hprev := path_prev_mem hto
  -- The links of `t` itself are out of the way.
  have hclear : ∀ {f : α → α} (y), y ∈ x :: (ys ++ zs) → Function.update f t null y = f y :=
    fun y hy => Function.update_of_ne (fun e => ht (by rwa [e] at hy)) _ _
  refine ⟨path_congr ?_ (fun y hy => hclear y hy) (fun y hy => hclear y hy), hring⟩
  cases zs with
  | nil =>
    rw [List.append_nil, hfrom.1]
    exact path_retarget hto hys (List.nodup_cons.mp hys).1
  | cons z zs =>
    obtain ⟨hz, -, hrest⟩ := hfrom
    rw [hz]
    obtain ⟨hx, hyz⟩ := List.nodup_cons.mp hring
    obtain ⟨hyn, hzn, hdisj⟩ := List.nodup_append.mp hyz
    refine path_append.mpr ⟨path_retarget hto hys fun hmem => hdisj z hmem z (by simp) rfl, path_congr hrest ?_ ?_⟩
    · intro y hy
      refine Function.update_of_ne ?_ _ _
      rintro rfl
      rcases List.mem_cons.mp hprev with e | hmem
      · exact hx (by rw [← e]; exact List.mem_append_right _ hy)
      · exact hdisj _ hmem _ hy rfl
    · intro y hy
      refine Function.update_of_ne ?_ _ _
      rintro rfl
      rcases List.mem_cons.mp hy with rfl | hmem
      · exact hx (by simp)
      · exact (List.nodup_cons.mp hzn).1 hmem

end Links

end KernelOfTruth.Lib
