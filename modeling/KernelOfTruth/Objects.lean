import KernelOfTruth.Spec.Object

/-! # The count of references is one too high -/

open KernelOfTruth.Code KernelOfTruth.Spec

namespace KernelOfTruth.Objects

variable {H : Type} {w : Sharing H} {free_func : Word}

/-- The count is one more than the number of references that are held. -/
structure Counted (free_func : Word) (w : Sharing H) : Prop where
  count : w.object.ref_count = BitVec.ofNat 32 (Multiset.card w.held + 1)
  free : w.object.free = free_func

theorem start_counted (free_func : Word) (creator : H) : Counted free_func (Sharing.start free_func creator) :=
  ⟨rfl, rfl⟩

theorem next_counted [DecidableEq H] {e : RefEvent H} (h : Counted free_func w) (hmay : w.May e) : Counted free_func (w.next e) := by
  cases e with
  | retain holder =>
    refine ⟨?_, h.free⟩
    simp only [Sharing.next, Object.object_retain, h.count, Multiset.card_cons]
    rw [BitVec.ofNat_add (Multiset.card w.held + 1) 1]
    rfl
  | release holder =>
    have hcard := Multiset.card_erase_add_one (show holder ∈ w.held from hmay)
    refine ⟨?_, h.free⟩
    simp only [Sharing.next, Object.object_release, h.count, ← hcard]
    rw [BitVec.ofNat_add (Multiset.card (w.held.erase holder) + 1) 1]
    exact BitVec.add_sub_cancel _ _

/-- The test in `object_release` finds 1 when the number of references is a multiple of 2^32. -/
theorem release_calls_iff (h : Counted free_func w) (hfree : free_func ≠ 0) :
    w.object.object_release.2 = true ↔ 2 ^ 32 ∣ Multiset.card w.held := by
  have hone : w.object.ref_count = 1 ↔ 2 ^ 32 ∣ Multiset.card w.held := by
    rw [h.count, ← BitVec.toNat_inj, BitVec.toNat_ofNat, show (1 : BitVec 32).toNat = 1 from rfl]
    omega
  simp only [Object.object_release, Bool.and_eq_true, beq_iff_eq, bne_iff_ne, h.free, hone]
  exact and_iff_left hfree

variable [DecidableEq H]

/-- Once `free` has been called while references were held, it stays so. -/
theorem run_calls_prefix (w : Sharing H) (es : List (RefEvent H)) : w.calls <+: (w.run es).calls := by
  induction es generalizing w with
  | nil => exact List.prefix_refl _
  | cons e es ih =>
    refine List.IsPrefix.trans ?_ (ih (w.next e))
    cases e with
    | retain holder => exact List.prefix_refl _
    | release holder =>
      simp only [Sharing.next]
      split
      · exact List.prefix_append _ _
      · exact List.prefix_refl _

theorem not_freedOnce_of_early {n : Nat} {es : List (RefEvent H)} (hcalls : w.calls = [n]) (hn : n ≠ 0) :
    ¬ (w.run es).FreedOnce := by
  intro hright
  have hprefix := run_calls_prefix w es
  rw [hcalls, hright] at hprefix
  split at hprefix <;> simp [hn] at hprefix

/-- While references are kept as the condition asks, `free` is not called. -/
theorem keepsOne_run {es : List (RefEvent H)} (h : Counted free_func w) (hfree : free_func ≠ 0) (hvalid : w.Valid es)
    (hcalls : w.calls = []) (hkeeps : w.KeepsOne es) : (w.run es).calls = [] ∧ (w.run es).held ≠ 0 := by
  induction es generalizing w with
  | nil => exact ⟨hcalls, hkeeps⟩
  | cons e es ih =>
    obtain ⟨hmay, hvalid⟩ := hvalid
    have h' := next_counted h hmay
    cases e with
    | retain holder => exact ih h' hvalid hcalls hkeeps
    | release holder =>
      refine ih h' hvalid ?_ hkeeps.2
      simp only [Sharing.next, release_calls_iff h hfree, if_neg hkeeps.1]
      exact hcalls

theorem keepsOne_of_freedOnce {es : List (RefEvent H)} (h : Counted free_func w) (hfree : free_func ≠ 0)
    (hvalid : w.Valid es) (hcalls : w.calls = []) (hright : (w.run es).FreedOnce) : w.KeepsOne es := by
  induction es generalizing w with
  | nil =>
    intro hheld
    rw [Sharing.FreedOnce, show w.run [] = w from rfl, hcalls, if_pos hheld] at hright
    cases hright
  | cons e es ih =>
    obtain ⟨hmay, hvalid⟩ := hvalid
    have h' := next_counted h hmay
    cases e with
    | retain holder => exact ih h' hvalid hcalls hright
    | release holder =>
      have hcard := Multiset.card_erase_add_one (show holder ∈ w.held from hmay)
      have hnot : ¬ 2 ^ 32 ∣ Multiset.card w.held := by
        -- a call now is one while at least 2^32 - 1 references are held
        intro hdvd
        refine not_freedOnce_of_early (w := w.next (.release holder)) (n := Multiset.card (w.held.erase holder)) ?_ ?_ hright
        · simp only [Sharing.next, (release_calls_iff h hfree).mpr hdvd, if_true, hcalls, List.nil_append]
        · omega
      refine ⟨hnot, ih h' hvalid ?_ hright⟩
      simp only [Sharing.next, release_calls_iff h hfree, if_neg hnot]
      exact hcalls

end KernelOfTruth.Objects
