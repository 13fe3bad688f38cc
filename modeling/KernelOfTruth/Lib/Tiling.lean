import Mathlib.Algebra.Order.Group.Multiset
import Mathlib.Data.Multiset.Count
import Mathlib.Data.Multiset.Pairwise
import Mathlib.Data.Set.Lattice
import Mathlib.Order.CompletePartialOrder
import Mathlib.Tactic.Common

/-!
# Cutting a set into pieces

`Tiles points pieces whole` says that the pieces are disjoint and that together they are the whole set.
The same, point by point: each point of the whole is in one piece, and each other point in none.
-/

namespace KernelOfTruth.Lib

variable {α β : Type} {points : α → Set β} {pieces : Multiset α} {whole : Set β}

/-- The pieces have no point in common. -/
def Apart (points : α → Set β) (pieces : Multiset α) : Prop :=
  pieces.Pairwise fun a b => Disjoint (points a) (points b)

structure Tiles (points : α → Set β) (pieces : Multiset α) (whole : Set β) : Prop where
  apart : Apart points pieces
  cover : ∀ x, x ∈ whole ↔ ∃ a ∈ pieces, x ∈ points a

open Classical in
/-- How many of the pieces have the point `x`. -/
noncomputable def layers (points : α → Set β) (pieces : Multiset α) (x : β) : Nat :=
  pieces.countP fun a => x ∈ points a

@[simp] theorem layers_add (p q : Multiset α) (x : β) : layers points (p + q) x = layers points p x + layers points q x := by
  simp [layers]

@[simp] theorem layers_zero (x : β) : layers points 0 x = 0 := by simp [layers]

theorem layers_cons (a : α) (p : Multiset α) (x : β) :
    layers points (a ::ₘ p) x = layers points p x + layers points {a} x := by
  rw [← Multiset.singleton_add, layers_add, Nat.add_comm]

theorem layers_singleton_of_mem {a : α} {x : β} (h : x ∈ points a) : layers points {a} x = 1 := by
  classical
  unfold layers
  rw [← Multiset.cons_zero, Multiset.countP_cons_of_pos (p := fun a => x ∈ points a) _ h, Multiset.countP_zero]

theorem layers_singleton_of_not_mem {a : α} {x : β} (h : x ∉ points a) : layers points {a} x = 0 := by
  classical
  unfold layers
  rw [← Multiset.cons_zero, Multiset.countP_cons_of_neg (p := fun a => x ∈ points a) _ h, Multiset.countP_zero]

theorem layers_pos {x : β} : 0 < layers points pieces x ↔ ∃ a ∈ pieces, x ∈ points a := by
  simp [layers, Multiset.countP_pos]

theorem apart_cons {a : α} {p : Multiset α} :
    Apart points (a ::ₘ p) ↔ (∀ b ∈ p, Disjoint (points a) (points b)) ∧ Apart points p := by
  have hsymm : Std.Symm fun a b : α => Disjoint (points a) (points b) := ⟨fun _ _ h => h.symm⟩
  induction p using Quotient.inductionOn with
  | h l =>
    unfold Apart
    simp only [Multiset.quot_mk_to_coe, Multiset.cons_coe, Multiset.pairwise_coe_iff_pairwise,
      List.pairwise_cons, Multiset.mem_coe]

theorem apart_iff_layers : Apart points pieces ↔ ∀ x, layers points pieces x ≤ 1 := by
  induction pieces using Multiset.induction with
  | empty => simp [Apart, Multiset.pairwise_zero]
  | cons a p ih =>
    rw [apart_cons, ih]
    constructor
    · rintro ⟨hdisj, hp⟩ x
      rw [layers_cons]
      by_cases hx : x ∈ points a
      · have : ¬ 0 < layers points p x := by
          rw [layers_pos]
          rintro ⟨b, hb, hxb⟩
          exact Set.disjoint_left.mp (hdisj b hb) hx hxb
        rw [layers_singleton_of_mem hx]
        omega
      · rw [layers_singleton_of_not_mem hx]
        exact hp x
    · intro h
      refine ⟨fun b hb => Set.disjoint_left.mpr fun x hx hxb => ?_, fun x => ?_⟩
      · have hpos : 0 < layers points p x := layers_pos.mpr ⟨b, hb, hxb⟩
        have := h x
        rw [layers_cons, layers_singleton_of_mem hx] at this
        omega
      · have := h x
        rw [layers_cons] at this
        omega

theorem tiles_iff_layers :
    Tiles points pieces whole ↔
      ∀ x, (x ∈ whole → layers points pieces x = 1) ∧ (x ∉ whole → layers points pieces x = 0) := by
  constructor
  · rintro ⟨hapart, hcover⟩ x
    have hle := apart_iff_layers.mp hapart x
    refine ⟨fun hx => ?_, fun hx => ?_⟩
    · have := layers_pos.mpr ((hcover x).mp hx)
      omega
    · have : ¬ 0 < layers points pieces x := fun h => hx ((hcover x).mpr (layers_pos.mp h))
      omega
  · intro h
    refine ⟨apart_iff_layers.mpr fun x => ?_, fun x => ?_⟩
    · by_cases hx : x ∈ whole
      · rw [(h x).1 hx]
      · rw [(h x).2 hx]; omega
    · rw [← layers_pos]
      by_cases hx : x ∈ whole
      · simp [hx, (h x).1 hx]
      · simp [hx, (h x).2 hx]

/-! ## Rules -/

/-- Pieces may be exchanged for others that have each point as often. -/
theorem tiles_exchange {p q : Multiset α} (rest : Multiset α) (whole : Set β) (h : ∀ x, layers points p x = layers points q x) :
    Tiles points (p + rest) whole ↔ Tiles points (q + rest) whole := by
  simp only [tiles_iff_layers, layers_add, h]

/-- A piece may be cut in two. -/
theorem tiles_cut {a b c : α} {rest : Multiset α} (hunion : points a = points b ∪ points c)
    (hdisj : Disjoint (points b) (points c)) :
    Tiles points (a ::ₘ rest) whole ↔ Tiles points (b ::ₘ c ::ₘ rest) whole := by
  have h : ∀ x, layers points {a} x = layers points (b ::ₘ {c}) x := by
    intro x
    rw [layers_cons]
    have hx : x ∈ points a ↔ x ∈ points b ∨ x ∈ points c := by rw [hunion]; rfl
    by_cases hb : x ∈ points b
    · have hc : x ∉ points c := Set.disjoint_left.mp hdisj hb
      rw [layers_singleton_of_mem (hx.mpr (.inl hb)), layers_singleton_of_mem hb,
        layers_singleton_of_not_mem hc]
    · by_cases hc : x ∈ points c
      · rw [layers_singleton_of_mem (hx.mpr (.inr hc)), layers_singleton_of_not_mem hb,
          layers_singleton_of_mem hc]
      · rw [layers_singleton_of_not_mem (fun h => (hx.mp h).elim hb hc), layers_singleton_of_not_mem hb,
          layers_singleton_of_not_mem hc]
  simpa using tiles_exchange rest whole h

/-- A piece without points may be added or left out. -/
theorem tiles_empty {a : α} {rest : Multiset α} (h : points a = ∅) :
    Tiles points (a ::ₘ rest) whole ↔ Tiles points rest whole := by
  have hx : ∀ x, layers points {a} x = layers points 0 x := by
    intro x
    rw [layers_singleton_of_not_mem (by simp [h]), layers_zero]
  simpa using tiles_exchange rest whole hx

/-- What is left when a piece is taken away. -/
theorem Tiles.remove {a : α} {rest : Multiset α} (h : Tiles points (a ::ₘ rest) whole) :
    Tiles points rest (whole \ points a) := by
  obtain ⟨hdisj, hrest⟩ := apart_cons.mp h.apart
  refine ⟨hrest, fun x => ?_⟩
  constructor
  · rintro ⟨hx, hnot⟩
    obtain ⟨b, hb, hxb⟩ := (h.cover x).mp hx
    rcases Multiset.mem_cons.mp hb with rfl | hb
    · exact absurd hxb hnot
    · exact ⟨b, hb, hxb⟩
  · rintro ⟨b, hb, hxb⟩
    exact ⟨(h.cover x).mpr ⟨b, Multiset.mem_cons_of_mem hb, hxb⟩, fun hxa => Set.disjoint_left.mp (hdisj b hb) hxa hxb⟩

theorem Tiles.subset (h : Tiles points pieces whole) {a : α} (ha : a ∈ pieces) : points a ⊆ whole :=
  fun x hx => (h.cover x).mpr ⟨a, ha, hx⟩

theorem Tiles.disjoint {a b : α} {rest : Multiset α} (h : Tiles points (a ::ₘ rest) whole) (hb : b ∈ rest) :
    Disjoint (points a) (points b) :=
  (apart_cons.mp h.apart).1 b hb

end KernelOfTruth.Lib
