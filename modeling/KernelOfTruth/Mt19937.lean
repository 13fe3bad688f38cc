import KernelOfTruth.Lib.Update
import KernelOfTruth.Rules
import KernelOfTruth.Spec.Mt19937

/-!
# The generator of random numbers

`mt19937_64_seed` sets the index to the first entry, so that 312 calls return the seeded words as they are, without a
twist. The call behind them twists while it has the lock, and never returns.
-/

open KernelOfTruth.Lib KernelOfTruth.Code KernelOfTruth.Code.Mt19937 KernelOfTruth.Rules KernelOfTruth.Spec.MersenneTwister

namespace KernelOfTruth.MersenneTwister

variable {s : Mt19937} {seed : Word} {E : Halt → Prop}

/-! ## The seed -/

/-- The first `i` entries have been seeded. -/
def seededTo (s : Mt19937) (seed : Word) (i k : Nat) : Word := if k < i then seedWord seed k else s.State k

theorem seededTo_succ (i : Nat) : Function.update (seededTo s seed i) i (seedWord seed i) = seededTo s seed (i + 1) :=
  update_ite fun _ => Nat.lt_succ_iff_lt_or_eq

theorem wp_seedLoop {n i : Nat} {index : Word} {Q : Unit → Mt19937 → Prop} :
    wp (seedLoop n (i + 1)) Q E ⟨index, seededTo s seed (i + 1)⟩ ↔ Q () ⟨index, seededTo s seed (i + 1 + n)⟩ := by
  induction n generalizing i with
  | zero => exact wp_pure ..
  | succ n ih =>
    have hbefore : seededTo s seed (i + 1) (i + 1 - 1) = seedWord seed i := if_pos (Nat.lt_succ_self i)
    have hnext : F * (seedWord seed i ^^^ seedWord seed i >>> (W - 2)) + BitVec.ofNat 64 (i + 1) = seedWord seed (i + 1) := rfl
    unfold seedLoop setState
    rw [wp_bind, wp_get, wp_bind, wp_modify]
    simp only [hbefore, hnext, seededTo_succ]
    rw [ih, show i + 1 + 1 + n = i + 1 + (n + 1) by omega]

theorem wp_mt19937_64_seed {Q : Unit → Locked Mt19937 → Prop} :
    wp (mt19937_64_seed seed) Q E ⟨Lock_Clear, s⟩ ↔ Q () ⟨Lock_Clear, 0, seeded s seed⟩ := by
  have hfirst : Function.update s.State 0 seed = seededTo s seed (0 + 1) := seededTo_succ 0
  unfold mt19937_64_seed setState setIndex
  rw [wp_bind, wp_acquireLock, wp_bind, wp_onState, wp_bind, wp_modify, wp_bind, hfirst, wp_seedLoop, wp_modify, wp_releaseLock]
  rfl

/-! ## The calls -/

section Calls

variable {state : Nat → Word} {i n : Nat}

theorem toNat_index (hi : i ≤ 312) : (BitVec.ofNat 64 i).toNat = i := Nat.mod_eq_of_lt (by omega)

theorem wp_number {Q : Word → Locked Mt19937 → Prop} (hi : i < 312) :
    wp mt19937_64_get_random_number Q E ⟨Lock_Clear, BitVec.ofNat 64 i, state⟩ ↔
      Q (Mt19937.temper (state i)) ⟨Lock_Clear, BitVec.ofNat 64 (i + 1), state⟩ := by
  have hindex := toNat_index hi.le
  have hle : (BitVec.ofNat 64 i).toNat ≤ N := by rw [hindex]; exact hi.le
  have hne : (BitVec.ofNat 64 i).toNat ≠ N := by rw [hindex]; exact hi.ne
  unfold mt19937_64_get_random_number setIndex
  rw [wp_bind, wp_acquireLock, wp_bind, wp_get, wp_bind, wp_assert_decide hle, wp_bind, wp_get, wp_bind, if_neg hne, wp_pure,
    wp_bind, wp_get, wp_bind, wp_onState, wp_modify, wp_bind, wp_releaseLock, wp_pure, hindex, BitVec.ofNat_add]
  rfl

/-- At the end of the entries the lock is taken twice. -/
theorem wp_number_last {Q : Word → Locked Mt19937 → Prop} :
    wp mt19937_64_get_random_number Q E ⟨Lock_Clear, BitVec.ofNat 64 312, state⟩ ↔ E .deadlock := by
  have hlast : (BitVec.ofNat 64 312).toNat = N := by decide
  unfold mt19937_64_get_random_number mt19937_64_twist
  rw [wp_bind, wp_acquireLock, wp_bind, wp_get, wp_bind, wp_assert_decide hlast.le, wp_bind, wp_get, wp_bind, if_pos hlast,
    wp_bind, wp_acquireLock_held]

theorem wp_calls {Q : List Word → Locked Mt19937 → Prop} (hn : i + n ≤ 312) :
    wp (calls n) Q E ⟨Lock_Clear, BitVec.ofNat 64 i, state⟩ ↔
      Q ((List.range' i n).map fun k => Mt19937.temper (state k)) ⟨Lock_Clear, BitVec.ofNat 64 (i + n), state⟩ := by
  induction n generalizing i Q with
  | zero => exact wp_pure ..
  | succ n ih =>
    unfold calls
    rw [wp_bind, wp_number (by omega), wp_bind, ih (by omega), wp_pure, show i + 1 + n = i + (n + 1) by omega]
    rfl

theorem wp_calls_blocked {Q : List Word → Locked Mt19937 → Prop} (hi : i ≤ 312) (hn : 312 < i + n) :
    wp (calls n) Q E ⟨Lock_Clear, BitVec.ofNat 64 i, state⟩ ↔ E .deadlock := by
  induction n generalizing i Q with
  | zero => omega
  | succ n ih =>
    unfold calls
    rw [wp_bind]
    rcases Nat.eq_or_lt_of_le hi with rfl | hlt
    · rw [wp_number_last]
    · rw [wp_number hlt, wp_bind, ih (by omega) (by omega)]

theorem run_seededCalls (hn : n ≤ 312) : (seededCalls seed n).run ⟨Lock_Clear, s⟩ =
    .ok ((List.range' 0 n).map fun k => Mt19937.temper (seeded s seed k), ⟨Lock_Clear, BitVec.ofNat 64 (0 + n), seeded s seed⟩) := by
  rw [run_eq_ok_iff]
  unfold seededCalls
  rw [wp_bind, wp_mt19937_64_seed]
  exact (wp_calls (i := 0) (by omega)).mpr ⟨rfl, rfl⟩

theorem run_seededCalls_blocked (hn : 312 < n) : (seededCalls seed n).run ⟨Lock_Clear, s⟩ = .error .deadlock := by
  rw [run_eq_error_iff]
  unfold seededCalls
  rw [wp_bind, wp_mt19937_64_seed]
  exact (wp_calls_blocked (i := 0) (Nat.zero_le _) (by omega)).mpr rfl

/-- Only calls that do not come to the end of the entries return. -/
theorem le_of_seededCalls {numbers : List Word} {s' : Locked Mt19937}
    (hrun : (seededCalls seed n).run ⟨Lock_Clear, s⟩ = .ok (numbers, s')) : n ≤ 312 := by
  by_contra hnot
  rw [run_seededCalls_blocked (by omega)] at hrun
  cases hrun

end Calls

/-! ## What the generator returns -/

/-- Up to 312 calls return after a seed, and no more. -/
theorem never_blocks_iff {n : Nat} : NeverBlocks s seed n ↔ n ≤ 312 := by
  constructor
  · intro h
    obtain ⟨numbers, s', hrun⟩ := h n le_rfl
    exact le_of_seededCalls hrun
  · intro hn k hk
    exact ⟨_, _, run_seededCalls (hk.trans hn)⟩

/-- The static variables at boot. -/
def bootGenerator : Mt19937 := ⟨BitVec.ofNat 64 (N + 1), fun _ => 0⟩

theorem next_block_never_comes : (seededCalls 1 313).run ⟨Lock_Clear, bootGenerator⟩ = .error .deadlock ∧
    ¬ NeverBlocks bootGenerator 1 313 := by
  have hblocked : (seededCalls 1 313).run ⟨Lock_Clear, bootGenerator⟩ = .error .deadlock := run_seededCalls_blocked (by decide)
  refine ⟨hblocked, fun h => ?_⟩
  obtain ⟨numbers, s', hrun⟩ := h 313 le_rfl
  rw [hblocked] at hrun
  cases hrun

theorem number_of_run {numbers : List Word} {s' : Locked Mt19937} {n : Nat}
    (hrun : (seededCalls seed (n + 1)).run ⟨Lock_Clear, s⟩ = .ok (numbers, s')) :
    numbers[n]? = some (Mt19937.temper (seeded s seed n)) := by
  rw [run_seededCalls (le_of_seededCalls hrun)] at hrun
  cases hrun
  rw [List.getElem?_map, List.getElem?_range' (Nat.lt_succ_self n)]
  simp

theorem word_of_ge {k : Nat} (hk : 312 ≤ k) :
    word seed k = word seed (k - 156) ^^^ twist (word seed (k - 312)) (word seed (k - 311)) := by
  rw [word, if_neg (by omega)]

theorem word_of_lt {k : Nat} (hk : k < 312) : word seed k = seedWord seed k := by
  rw [word, if_pos hk]

end KernelOfTruth.MersenneTwister
