import KernelOfTruth.Code.Lock

/-! # Rules for the macros of the kernel, and for its locks -/

open KernelOfTruth.Lib KernelOfTruth.Code

namespace KernelOfTruth.Rules

variable {σ : Type} {E : Halt → Prop} {s : σ}

theorem wp_assert {func : String} {b : Bool} {Q : Unit → σ → Prop} (h : b = true) :
    wp (assert func b) Q E s ↔ Q () s := by
  simp [Code.assert, h]

theorem wp_assert_decide {func : String} {p : Prop} [Decidable p] {Q : Unit → σ → Prop} (h : p) :
    wp (assert func (decide p)) Q E s ↔ Q () s :=
  wp_assert (decide_eq_true h)

theorem wp_assert_false {func : String} {b : Bool} {Q : Unit → σ → Prop} (h : b = false) :
    wp (assert func b) Q E s ↔ E (.panic func) := by
  simp [Code.assert, h]

theorem wp_assert_iff {func : String} {p : Prop} [Decidable p] {Q : Unit → σ → Prop} :
    wp (assert func (decide p)) Q E s ↔ if p then Q () s else E (.panic func) := by
  simp [Code.assert]

theorem wp_assert_or {func : String} {p : Prop} [Decidable p] {Q : Unit → σ → Prop} (hpanic : ¬ p → E (.panic func))
    (h : Q () s) : wp (assert func (decide p)) Q E s := by
  rw [wp_assert_iff]
  split
  · exact h
  · rename_i hnot
    exact hpanic hnot

/-- Where it does not matter whether the kernel stops. -/
theorem wp_assert_partial {func : String} {b : Bool} {Q : Unit → σ → Prop} (h : Q () s) :
    wp (assert func b) Q (fun _ => True) s := by
  rw [Code.assert, wp_check]
  split
  · exact h
  · trivial

theorem readOnly_assert (func : String) (b : Bool) : ReadOnly (assert func b : Kernel σ Unit) := readOnly_check _ _

theorem wp_bubble {c r : Kernel σ Status} {Q : Status → σ → Prop} :
    wp (bubble c r) Q E s ↔ wp c (fun st s' => if st = .Ok then wp r Q E s' else Q st s') E s := by
  unfold bubble
  rw [wp_bind]
  constructor <;>
  · intro h
    refine wp_imp h fun st s' h => ?_
    split at h <;> simp_all

/-! ## Locks -/

/-- A lock that a writer has. -/
def heldLock : Lock := ⟨0, true⟩

theorem wp_lock_acquire_writer {Q : Unit → Lock → Prop} : wp lock_acquire_writer Q E Lock_Clear ↔ Q () heldLock := by
  unfold lock_acquire_writer
  rw [wp_bind, wp_get, if_neg (by decide)]
  exact wp_set ..

theorem wp_lock_acquire_writer_held {Q : Unit → Lock → Prop} : wp lock_acquire_writer Q E heldLock ↔ E .deadlock := by
  unfold lock_acquire_writer
  rw [wp_bind, wp_get, if_pos (by decide), wp_bind, wp_throw]

theorem wp_lock_release_writer {Q : Unit → Lock → Prop} : wp lock_release_writer Q E heldLock ↔ Q () Lock_Clear := by
  unfold lock_release_writer
  rw [wp_bind, wp_get, wp_bind, wp_assert (by decide), wp_bind, wp_get, wp_bind, wp_assert (by decide), wp_modify]
  rfl

section Locked

variable {α : Type} {state : σ}

theorem wp_acquireLock {Q : Unit → Locked σ → Prop} : wp acquireLock Q E ⟨Lock_Clear, state⟩ ↔ Q () ⟨heldLock, state⟩ :=
  (wp_zoom ..).trans wp_lock_acquire_writer

/-- The second one of two nested calls never returns. -/
theorem wp_acquireLock_held {Q : Unit → Locked σ → Prop} : wp acquireLock Q E ⟨heldLock, state⟩ ↔ E .deadlock :=
  (wp_zoom ..).trans wp_lock_acquire_writer_held

theorem wp_releaseLock {Q : Unit → Locked σ → Prop} : wp releaseLock Q E ⟨heldLock, state⟩ ↔ Q () ⟨Lock_Clear, state⟩ :=
  (wp_zoom ..).trans wp_lock_release_writer

theorem wp_onState {lock : Lock} {p : Kernel σ α} {Q : α → Locked σ → Prop} :
    wp (onState p) Q E ⟨lock, state⟩ ↔ wp p (fun a state' => Q a ⟨lock, state'⟩) E state := wp_zoom ..

end Locked

end KernelOfTruth.Rules
