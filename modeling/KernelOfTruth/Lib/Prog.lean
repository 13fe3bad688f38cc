import Mathlib.Algebra.Ring.Nat
import Mathlib.Data.Set.Lattice
import Mathlib.Logic.Relation
import Mathlib.Order.CompletePartialOrder
import Mathlib.Tactic.Tauto

/-!
# Programs that change a state and may stop for good

A program takes a state, and returns a value with a new state or stops with a reason of
type `ε`. `wp` is its weakest precondition with one postcondition for each way to end: `Q` for a
normal return and `E` for a stop. With `E := fun _ => False` it is total correctness, with
`E := fun _ => True` partial correctness.
-/

namespace KernelOfTruth.Lib

abbrev Prog (ε σ α : Type) := StateT σ (Except ε) α

variable {ε σ α β : Type}

def wp (p : Prog ε σ α) (Q : α → σ → Prop) (E : ε → Prop) (s : σ) : Prop :=
  match p.run s with
  | .ok (a, s') => Q a s'
  | .error e => E e

/-- Stop when the condition is false. -/
def check (e : ε) (b : Bool) : Prog ε σ Unit := if b then pure () else throw e

/-! ## One rule per construct -/

@[simp] theorem wp_pure (a : α) (Q : α → σ → Prop) (E : ε → Prop) (s : σ) :
    wp (pure a : Prog ε σ α) Q E s ↔ Q a s := by
  unfold wp
  rfl

@[simp] theorem wp_throw (e : ε) (Q : α → σ → Prop) (E : ε → Prop) (s : σ) :
    wp (throw e : Prog ε σ α) Q E s ↔ E e := by
  unfold wp
  rfl

@[simp] theorem wp_get (Q : σ → σ → Prop) (E : ε → Prop) (s : σ) :
    wp (get : Prog ε σ σ) Q E s ↔ Q s s := by
  unfold wp
  rfl

@[simp] theorem wp_set (t : σ) (Q : PUnit → σ → Prop) (E : ε → Prop) (s : σ) :
    wp (set t : Prog ε σ PUnit) Q E s ↔ Q ⟨⟩ t := by
  unfold wp
  rfl

@[simp] theorem wp_modify (f : σ → σ) (Q : PUnit → σ → Prop) (E : ε → Prop) (s : σ) :
    wp (modify f : Prog ε σ PUnit) Q E s ↔ Q ⟨⟩ (f s) := by
  unfold wp
  rfl

@[simp] theorem wp_bind (p : Prog ε σ α) (f : α → Prog ε σ β) (Q : β → σ → Prop) (E : ε → Prop) (s : σ) :
    wp (p >>= f) Q E s ↔ wp p (fun a s' => wp (f a) Q E s') E s := by
  simp only [wp, StateT.run_bind]
  cases p.run s with
  | error e => exact Iff.rfl
  | ok r => exact Iff.rfl

@[simp] theorem wp_map (p : Prog ε σ α) (f : α → β) (Q : β → σ → Prop) (E : ε → Prop) (s : σ) :
    wp (f <$> p) Q E s ↔ wp p (fun a s' => Q (f a) s') E s := by
  rw [← bind_pure_comp, wp_bind]; rfl

@[simp] theorem wp_check (e : ε) (b : Bool) (Q : Unit → σ → Prop) (E : ε → Prop) (s : σ) :
    wp (check e b) Q E s ↔ if b then Q () s else E e := by
  unfold check
  split <;> rfl

theorem wp_ite (c : Prop) [Decidable c] (p q : Prog ε σ α) (Q : α → σ → Prop) (E : ε → Prop) (s : σ) :
    wp (if c then p else q) Q E s ↔ if c then wp p Q E s else wp q Q E s := by
  split <;> rfl

/-- Run a program on a part of the state. -/
def zoom {τ : Type} (part : τ → σ) (put : τ → σ → τ) (p : Prog ε σ α) : Prog ε τ α := fun t =>
  match p.run (part t) with
  | .ok (a, s) => .ok (a, put t s)
  | .error e => .error e

@[simp] theorem wp_zoom {τ : Type} (part : τ → σ) (put : τ → σ → τ) (p : Prog ε σ α) (Q : α → τ → Prop)
    (E : ε → Prop) (t : τ) : wp (zoom part put p) Q E t ↔ wp p (fun a s => Q a (put t s)) E (part t) := by
  unfold wp zoom
  cases h : p.run (part t) with
  | error e =>
    simp only [StateT.run] at h ⊢
    rw [h]
  | ok r =>
    simp only [StateT.run] at h ⊢
    rw [h]

/-! ## Consequence -/

theorem wp_mono {p : Prog ε σ α} {Q Q' : α → σ → Prop} {E E' : ε → Prop} {s : σ}
    (h : wp p Q E s) (hQ : ∀ a s', Q a s' → Q' a s') (hE : ∀ e, E e → E' e) : wp p Q' E' s := by
  unfold wp at *
  split at h
  · exact hQ _ _ h
  · exact hE _ h

theorem wp_imp {p : Prog ε σ α} {Q Q' : α → σ → Prop} {E : ε → Prop} {s : σ}
    (h : wp p Q E s) (hQ : ∀ a s', Q a s' → Q' a s') : wp p Q' E s :=
  wp_mono h hQ fun _ he => he

theorem wp_and {p : Prog ε σ α} {Q Q' : α → σ → Prop} {E : ε → Prop} {s : σ}
    (h : wp p Q E s) (h' : wp p Q' E s) : wp p (fun a s' => Q a s' ∧ Q' a s') E s := by
  unfold wp at *
  split at h <;> simp_all

theorem wp_any {p : Prog ε σ α} {Q : α → σ → Prop} {E : ε → Prop} {s : σ} (hQ : ∀ a s', Q a s')
    (hE : ∀ e, E e) : wp p Q E s := by
  unfold wp
  split
  · exact hQ _ _
  · exact hE _

/-! ## Programs that need something -/

/-- The precondition of a program that needs `P`, and stops without it: `Q` is the postcondition at what the program
returns, and `F` is the one for the stop. -/
def Guarded (P Q F : Prop) : Prop := (P → Q) ∧ (¬ P → F)

theorem guarded_of {P Q F : Prop} (h : P) : Guarded P Q F ↔ Q := by simp [Guarded, h]

theorem guarded_false {P Q : Prop} : Guarded P Q False ↔ P ∧ Q := by
  unfold Guarded
  tauto

theorem guarded_true {P Q : Prop} : Guarded P Q True ↔ (P → Q) := by simp [Guarded]

theorem guarded_congr {P P' Q Q' F : Prop} (hP : P ↔ P') (hQ : Q ↔ Q') : Guarded P Q F ↔ Guarded P' Q' F := by
  rw [hP, hQ]

theorem guarded_guarded {P P' Q F : Prop} : Guarded P (Guarded P' Q F) F ↔ Guarded (P ∧ P') Q F := by
  unfold Guarded
  tauto

/-! ## Programs that only read -/

/-- The program leaves the state as it is, unless it stops. -/
structure ReadOnly (p : Prog ε σ α) : Prop where
  keeps : ∀ s, wp p (fun _ s' => s' = s) (fun _ => True) s

theorem readOnly_pure (a : α) : ReadOnly (pure a : Prog ε σ α) := ⟨fun _ => rfl⟩

theorem readOnly_get : ReadOnly (get : Prog ε σ σ) := ⟨fun _ => rfl⟩

theorem readOnly_throw (e : ε) : ReadOnly (throw e : Prog ε σ α) := ⟨fun _ => trivial⟩

theorem readOnly_check (e : ε) (b : Bool) : ReadOnly (check e b : Prog ε σ Unit) := by
  refine ⟨fun s => ?_⟩
  rw [wp_check]
  split <;> trivial

theorem readOnly_bind {p : Prog ε σ α} {f : α → Prog ε σ β} (hp : ReadOnly p) (hf : ∀ a, ReadOnly (f a)) :
    ReadOnly (p >>= f) := by
  refine ⟨fun s => ?_⟩
  rw [wp_bind]
  refine wp_imp (hp.keeps s) ?_
  rintro a s' rfl
  exact (hf a).keeps s'

theorem readOnly_ite {c : Prop} [Decidable c] {p q : Prog ε σ α} (hp : ReadOnly p) (hq : ReadOnly q) :
    ReadOnly (if c then p else q) := by
  split
  · exact hp
  · exact hq

/-! ## Programs that keep an invariant -/

/-- The program keeps `I`, unless it stops. -/
def Keeps (I : σ → Prop) (p : Prog ε σ α) : Prop := ∀ s, I s → wp p (fun _ s' => I s') (fun _ => True) s

section Keeps

variable {I : σ → Prop}

theorem keeps_bind {p : Prog ε σ α} {f : α → Prog ε σ β} (hp : Keeps I p) (hf : ∀ a, Keeps I (f a)) : Keeps I (p >>= f) := by
  intro s h
  rw [wp_bind]
  exact wp_imp (hp s h) fun a s' h' => hf a s' h'

theorem keeps_ite {c : Prop} [Decidable c] {p q : Prog ε σ α} (hp : Keeps I p) (hq : Keeps I q) :
    Keeps I (if c then p else q) := by
  split
  · exact hp
  · exact hq

theorem ReadOnly.keepsInv {p : Prog ε σ α} (hp : ReadOnly p) : Keeps I p := by
  intro s h
  refine wp_imp (hp.keeps s) ?_
  rintro _ _ rfl
  exact h

theorem keeps_pure (a : α) : Keeps I (pure a : Prog ε σ α) := (readOnly_pure a).keepsInv

theorem keeps_modify {f : σ → σ} (hf : ∀ s, I s → I (f s)) : Keeps I (modify f : Prog ε σ PUnit) := by
  intro s h
  rw [wp_modify]
  exact hf s h

end Keeps

/-! ## Single runs -/

/-- A normal return satisfies the postcondition. -/
theorem wp_ok {p : Prog ε σ α} {Q : α → σ → Prop} {E : ε → Prop} {s s' : σ} {a : α}
    (h : wp p Q E s) (hr : p.run s = .ok (a, s')) : Q a s' := by
  unfold wp at h
  rw [hr] at h
  exact h

theorem wp_error {p : Prog ε σ α} {Q : α → σ → Prop} {E : ε → Prop} {s : σ} {e : ε}
    (h : wp p Q E s) (hr : p.run s = .error e) : E e := by
  unfold wp at h
  rw [hr] at h
  exact h

theorem wp_of_run {p : Prog ε σ α} {Q : α → σ → Prop} {E : ε → Prop} {s s' : σ} {a : α}
    (h : p.run s = .ok (a, s')) : wp p Q E s ↔ Q a s' := by
  unfold wp
  rw [h]

theorem wp_of_error {p : Prog ε σ α} {Q : α → σ → Prop} {E : ε → Prop} {s : σ} {e : ε} (h : p.run s = .error e) :
    wp p Q E s ↔ E e := by
  unfold wp
  rw [h]

theorem wp_total {p : Prog ε σ α} {Q : α → σ → Prop} {s : σ} (h : wp p Q (fun _ => False) s) :
    ∃ a s', p.run s = .ok (a, s') ∧ Q a s' := by
  unfold wp at h
  split at h
  · exact ⟨_, _, by assumption, h⟩
  · exact h.elim

theorem run_eq_ok_iff {p : Prog ε σ α} {s s' : σ} {a : α} :
    p.run s = .ok (a, s') ↔ wp p (fun b t => b = a ∧ t = s') (fun _ => False) s := by
  constructor
  · exact fun hrun => (wp_of_run hrun).mpr ⟨rfl, rfl⟩
  · intro h
    obtain ⟨b, t, hrun, rfl, rfl⟩ := wp_total h
    exact hrun

theorem run_eq_error_iff {p : Prog ε σ α} {s : σ} {e : ε} : p.run s = .error e ↔ wp p (fun _ _ => False) (· = e) s := by
  constructor
  · exact fun hrun => (wp_of_error hrun).mpr rfl
  · intro h
    cases hrun : p.run s with
    | error e' => rw [(wp_of_error hrun).mp h]
    | ok r => exact ((wp_of_run hrun).mp h).elim

theorem wp_intro {p : Prog ε σ α} {Q : α → σ → Prop} {E : ε → Prop} {s : σ}
    (hok : ∀ a s', p.run s = .ok (a, s') → Q a s') (herror : ∀ e, p.run s = .error e → E e) : wp p Q E s := by
  unfold wp
  split
  · exact hok _ _ (by assumption)
  · exact herror _ (by assumption)

theorem run_of_run' {p : Prog ε σ α} {s : σ} {a : α} (h : p.run' s = .ok a) : ∃ s', p.run s = .ok (a, s') := by
  change (p.run s).map Prod.fst = .ok a at h
  cases hrun : p.run s with
  | error e => simp [hrun, Except.map] at h
  | ok r =>
    rw [hrun] at h
    cases h
    exact ⟨r.2, rfl⟩

theorem run'_of_run {p : Prog ε σ α} {s s' : σ} {a : α} (h : p.run s = .ok (a, s')) : p.run' s = .ok a := by
  change (p.run s).map Prod.fst = .ok a
  rw [h]
  rfl

/-- What a program that only reads comes to, every time it runs. -/
theorem ReadOnly.run {p : Prog ε σ α} {s s' : σ} {a : α} (hp : ReadOnly p) (h : p.run s = .ok (a, s')) : s' = s := by
  have hkeeps := wp_ok (hp.keeps s) h
  exact hkeeps

theorem wp_avoids {p : Prog ε σ α} {e : ε} {s : σ} : wp p (fun _ _ => True) (· ≠ e) s ↔ p.run s ≠ .error e := by
  unfold wp
  cases p.run s with
  | error e' => simp
  | ok r => simp

/-- Partial correctness, in terms of runs. -/
theorem wp_partial {p : Prog ε σ α} {Q : α → σ → Prop} {s : σ} :
    wp p Q (fun _ => True) s ↔ ∀ a s', p.run s = .ok (a, s') → Q a s' :=
  ⟨fun h _ _ hr => wp_ok h hr, fun h => wp_intro h fun _ _ => trivial⟩

/-- A program that is bounded in its rounds and ends in `t`, if the bound is large enough. -/
theorem exists_run_iff {p : Nat → Prog ε σ Unit} {P : σ → Prop} {s t : σ} (enough : Nat)
    (hbounded : ∀ rounds, wp (p rounds) (fun _ s' => s' = t) (fun _ => True) s) (hrun : (p enough).run s = .ok ((), t)) :
    (∃ rounds s', (p rounds).run s = .ok ((), s') ∧ P s') ↔ P t := by
  constructor
  · rintro ⟨rounds, s', hr, hP⟩
    rwa [wp_ok (hbounded rounds) hr] at hP
  · exact fun hP => ⟨enough, t, hrun, hP⟩

/-- A program that stops only when `R` is false, and whose result is right exactly when `R` is true. -/
theorem wp_total_iff {p : Prog ε σ α} {Q Q' : α → σ → Prop} {R : Prop} {s : σ} (h : wp p Q' (fun _ => ¬ R) s)
    (hQ : ∀ a s', Q' a s' → (Q a s' ↔ R)) : wp p Q (fun _ => False) s ↔ R := by
  constructor
  · intro htotal
    obtain ⟨a, s', hrun, hresult⟩ := wp_total htotal
    have hspec := wp_ok h hrun
    exact (hQ a s' hspec).mp hresult
  · exact fun hR => wp_mono h (fun a s' hspec => (hQ a s' hspec).mpr hR) fun _ hnot => hnot hR

-- Only the rules above look into it. Otherwise a check of types may run a whole program.
attribute [irreducible] wp

end KernelOfTruth.Lib
