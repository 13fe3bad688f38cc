import KernelOfTruth.Rules
import KernelOfTruth.Spec.Entropy
import Mathlib.Data.List.Count

/-!
# The entropy pool

The pool is a stack that starts at entry number 1. Entry number 0 is never seeded at boot, but it is returned when the stack
is empty.
-/

open KernelOfTruth.Lib KernelOfTruth.Code KernelOfTruth.Spec KernelOfTruth.Rules

namespace KernelOfTruth.EntropyPool

variable {E : Halt → Prop} {pool : Nat → Byte} {jitter : List Word} {byte : Byte} {stack : List Byte}

/-! ## The stack -/

/-- The bytes of the stack, from the top down to entry number 1. -/
def Holds (pool : Nat → Byte) : List Byte → Prop
  | [] => True
  | byte :: stack => pool (stack.length + 1) = byte ∧ Holds pool stack

theorem holds_update {i : Nat} (hi : stack.length < i) (h : Holds pool stack) : Holds (Function.update pool i byte) stack := by
  induction stack with
  | nil => trivial
  | cons b stack ih =>
    rw [List.length_cons] at hi
    refine ⟨?_, ih (by omega) h.2⟩
    rw [Function.update_of_ne (by omega)]
    exact h.1

theorem holds_push (h : Holds pool stack) : Holds (Function.update pool (stack.length + 1) byte) (byte :: stack) :=
  ⟨Function.update_self .., holds_update (Nat.lt_succ_self _) h⟩

/-! ## The calls -/

theorem wp_poolPlace {n : Nat} {Q : Nat → Entropy → Prop} :
    wp poolPlace Q E ⟨n, pool, jitter⟩ ↔ Guarded (n < 256) (Q n ⟨n, pool, jitter⟩) (E .page_fault) := by
  have hplace : (0 ≤ (n : Int) ∧ (n : Int) < Entropy_Pool_Size) ↔ n < 256 := by
    unfold Entropy_Pool_Size
    omega
  unfold poolPlace
  rw [wp_bind, wp_get, wp_ite]
  simp only [hplace, wp_pure, wp_throw, Int.toNat_natCast]
  by_cases hn : n < 256
  · rw [if_pos hn, guarded_of hn]
  · rw [if_neg hn]
    simp [Guarded, hn]

theorem wp_entropy_pool_seed {n : Nat} {Q : Unit → Locked Entropy → Prop} :
    wp (entropy_pool_seed byte) Q E ⟨Lock_Clear, n, pool, jitter⟩ ↔
      Guarded (n + 1 < 256) (Q () ⟨Lock_Clear, (n + 1 : Nat), Function.update pool (n + 1) byte, jitter⟩) (E .page_fault) := by
  have hnext : (n : Int) + 1 = (n + 1 : Nat) := rfl
  unfold entropy_pool_seed
  rw [wp_bind, wp_acquireLock, wp_bind, wp_onState, wp_bind, wp_modify, wp_bind, hnext, wp_poolPlace]
  simp only [wp_modify, wp_releaseLock]

theorem wp_entropy_pool_consume {n : Nat} {Q : Byte → Locked Entropy → Prop} (hn : n < 256) :
    wp entropy_pool_consume Q E ⟨Lock_Clear, n, pool, jitter⟩ ↔ Q (pool n) ⟨Lock_Clear, n - 1, pool, jitter⟩ := by
  have hnot : ¬ ((n : Int) < 0) := by omega
  unfold entropy_pool_consume
  rw [wp_bind, wp_acquireLock, wp_bind, wp_get, wp_bind, if_neg hnot, wp_pure, wp_bind, wp_onState, wp_bind, wp_get, wp_bind,
    wp_poolPlace, guarded_of hn, wp_bind, wp_modify, wp_pure, wp_bind, wp_releaseLock, wp_pure]

/-! ## What comes in and goes out -/

/-- As `OnceEach`, with some bytes in the pool before. -/
def Fits (stack : List Byte) (events : List EntropyEvent) : Prop :=
  ∀ earlier byte later, events = earlier ++ .returned byte :: later →
    earlier.count (.returned byte) < stack.count byte + earlier.count (.seeded byte)

theorem fits_nil_iff {events : List EntropyEvent} : Fits [] events ↔ OnceEach events := by
  unfold Fits OnceEach
  simp only [List.count_nil, Nat.zero_add]

theorem fits_no_events : Fits stack [] := by
  intro earlier byte later h
  simp at h

/-- The first event, and those behind it. -/
theorem fits_cons {e : EntropyEvent} {events : List EntropyEvent} : Fits stack (e :: events) ↔
    (∀ byte, e = .returned byte → 0 < stack.count byte) ∧
    ∀ earlier byte later, events = earlier ++ .returned byte :: later →
      (e :: earlier).count (.returned byte) < stack.count byte + (e :: earlier).count (.seeded byte) := by
  constructor
  · intro h
    refine ⟨fun b he => ?_, fun earlier b later hsplit => ?_⟩
    · have hcount := h [] b events (by rw [he, List.nil_append])
      simpa using hcount
    · exact h (e :: earlier) b later (by rw [hsplit, List.cons_append])
  · rintro ⟨hfirst, hrest⟩ earlier b later hsplit
    cases earlier with
    | nil =>
      rw [List.nil_append, List.cons.injEq] at hsplit
      simpa using hfirst b hsplit.1
    | cons e' earlier =>
      rw [List.cons_append, List.cons.injEq] at hsplit
      obtain ⟨rfl, hevents⟩ := hsplit
      exact hrest earlier b later hevents

theorem fits_seeded {events : List EntropyEvent} : Fits stack (.seeded byte :: events) ↔ Fits (byte :: stack) events := by
  have hfirst : ∀ b, EntropyEvent.seeded byte = .returned b → 0 < stack.count b := fun _ h => nomatch h
  rw [fits_cons, and_iff_right hfirst]
  refine forall₃_congr fun earlier b later => imp_congr_right fun _ => ?_
  rw [List.count_cons_of_ne (by simp), List.count_cons, List.count_cons]
  simp only [beq_iff_eq, EntropyEvent.seeded.injEq]
  omega

theorem fits_returned {events : List EntropyEvent} :
    Fits (byte :: stack) (.returned byte :: events) ↔ Fits stack events := by
  have hfirst : ∀ b, EntropyEvent.returned byte = .returned b → 0 < (byte :: stack).count b := by
    rintro b ⟨⟩
    simp
  rw [fits_cons, and_iff_right hfirst]
  refine forall₃_congr fun earlier b later => imp_congr_right fun _ => ?_
  rw [List.count_cons, List.count_cons, List.count_cons_of_ne (by simp)]
  simp only [beq_iff_eq, EntropyEvent.returned.injEq]
  omega

theorem not_fits_returned {events : List EntropyEvent} : ¬ Fits [] (.returned byte :: events) := by
  rw [fits_cons]
  rintro ⟨hfirst, -⟩
  have hcount := hfirst byte rfl
  simp at hcount

/-! ## Runs -/

theorem wp_entropyCalls {calls : List EntropyCall} (hpool : Holds pool stack) (hlen : stack.length < 256) :
    wp (entropyCalls calls) (fun events _ => Fits stack events) (fun _ => False) ⟨Lock_Clear, stack.length, pool, jitter⟩ ↔
      CallsBalanced stack.length calls := by
  induction calls generalizing pool stack with
  | nil =>
    unfold entropyCalls CallsBalanced
    rw [wp_pure]
    exact iff_true_intro fits_no_events
  | cons call calls ih =>
    cases call with
    | seed byte =>
      unfold entropyCalls CallsBalanced
      rw [wp_bind, wp_entropy_pool_seed, guarded_false]
      simp only [wp_bind, wp_pure, fits_seeded]
      rw [Nat.succ_lt_succ_iff]
      exact and_congr_right fun hroom => ih (holds_push hpool) (by rw [List.length_cons]; omega)
    | consume =>
      have hrefill : refill ⟨stack.length, pool, jitter⟩ = [] := if_neg (by simp)
      unfold entropyCalls
      rw [wp_bind, wp_get, wp_bind, wp_entropy_pool_consume hlen]
      simp only [wp_bind, wp_pure, hrefill, List.map_nil, List.nil_append]
      cases stack with
      | nil =>
        refine iff_of_false (fun h => ?_) (fun h => h)
        obtain ⟨events, s', -, hfits⟩ := wp_total h
        exact not_fits_returned hfits
      | cons b stack =>
        have hindex : ((b :: stack).length : Int) - 1 = stack.length := by simp
        have htop : pool (b :: stack).length = b := hpool.1
        rw [hindex, htop]
        simp only [fits_returned]
        exact ih hpool.2 (Nat.lt_of_succ_lt hlen)

/-- From boot on, the pool keeps its discipline exactly if it always has a seeded byte to return and never more than 255. -/
theorem pool_disciplined_iff {calls : List EntropyCall} : PoolDisciplined jitter calls ↔ CallsBalanced 0 calls := by
  have hruns : wp (entropyCalls calls) (fun events _ => Fits [] events) (fun _ => False) ⟨Lock_Clear, bootEntropy jitter⟩ ↔
      CallsBalanced 0 calls := wp_entropyCalls (trivial : Holds _ []) (by decide)
  rw [← hruns]
  constructor
  · rintro ⟨events, s', hrun, honce⟩
    exact (wp_of_run hrun).mpr (fits_nil_iff.mpr honce)
  · intro h
    obtain ⟨events, s', hrun, hfits⟩ := wp_total h
    exact ⟨events, s', hrun, fits_nil_iff.mp hfits⟩

/-- The first byte that `random_init` takes, when no interrupt has come before. -/
theorem first_byte_never_seeded :
    (∃ s', (entropyCalls [.consume]).run ⟨Lock_Clear, bootEntropy []⟩ = .ok ([.returned 0], s')) ∧
      ¬ PoolDisciplined [] [.consume] := by
  have hrun : ∃ s', (entropyCalls [.consume]).run ⟨Lock_Clear, bootEntropy []⟩ = .ok ([.returned 0], s') := ⟨_, rfl⟩
  refine ⟨hrun, ?_⟩
  rintro ⟨events, s', hrun', honce⟩
  obtain ⟨s'', hrun⟩ := hrun
  obtain rfl : events = [.returned 0] := congrArg Prod.fst (Except.ok.inj (hrun'.symm.trans hrun))
  have hcount := honce [] 0 [] rfl
  exact absurd hcount (by decide)

end KernelOfTruth.EntropyPool
