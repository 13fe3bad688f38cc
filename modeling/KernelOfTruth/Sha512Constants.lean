import KernelOfTruth.Spec.Sha512

/-!
# The constants of the hash

Each word of `Krnd` and of `sha512_initial_state` is what the root of a prime has behind the point. Powers of whole numbers
decide it, so that the tables are checked entry by entry.
-/

open KernelOfTruth.Code KernelOfTruth.Code.Sha512 KernelOfTruth.Spec.Sha512

namespace KernelOfTruth.Sha512

section Constants

/-- The first eighty primes. -/
def primes : List Nat :=
  [2, 3, 5, 7, 11, 13, 17, 19, 23, 29, 31, 37, 41, 43, 47, 53, 59, 61, 67, 71, 73, 79, 83, 89, 97, 101, 103, 107, 109, 113,
    127, 131, 137, 139, 149, 151, 157, 163, 167, 173, 179, 181, 191, 193, 197, 199, 211, 223, 227, 229, 233, 239, 241, 251,
    257, 263, 269, 271, 277, 281, 283, 293, 307, 311, 313, 317, 331, 337, 347, 349, 353, 359, 367, 373, 379, 383, 389, 397,
    401, 409]

/-- A prime is counted, and then the numbers up to the next one are not. -/
theorem count_next {p q : Nat} (hp : Nat.Prime p) (hpq : p < q) (hgap : ∀ m < q, p < m → ¬Nat.Prime m) :
    Nat.count Nat.Prime q = Nat.count Nat.Prime p + 1 := by
  induction q, hpq using Nat.le_induction with
  | base => rw [Nat.count_succ, if_pos hp]
  | succ q hpq ih =>
    rw [Nat.count_succ, if_neg (hgap q (Nat.lt_succ_self q) hpq), Nat.add_zero]
    exact ih fun m hm => hgap m (hm.trans (Nat.lt_succ_self q))

/-- Trial division by the numbers up to 20. -/
def trialDivision (p : Nat) : Prop := 2 ≤ p ∧ ∀ m < 21, 2 ≤ m → m * m ≤ p → ¬m ∣ p

instance : DecidablePred trialDivision := fun p =>
  inferInstanceAs (Decidable (2 ≤ p ∧ ∀ m < 21, 2 ≤ m → m * m ≤ p → ¬m ∣ p))

theorem prime_iff_trialDivision {p : Nat} (hp : p < 441) : Nat.Prime p ↔ trialDivision p := by
  rw [Nat.prime_def_le_sqrt]
  refine and_congr_right fun _ => ⟨fun h m _ h2 hm => h m h2 (Nat.le_sqrt.mpr hm), fun h m h2 hm => ?_⟩
  have hsq := Nat.le_sqrt.mp hm
  exact h m (by nlinarith) h2 hsq

theorem nth_prime {t : Nat} (ht : t < 80) : Nat.nth Nat.Prime t = primes.getD t 0 := by
  have hmono : ∀ t < 80, ∀ k < t, primes.getD k 0 < primes.getD t 0 := by decide +kernel
  have htrial : ∀ t < 80, primes.getD t 0 < 410 ∧ trialDivision (primes.getD t 0) := by decide +kernel
  have hall : ∀ m < 410, trialDivision m → ∃ k < 80, primes.getD k 0 = m := by decide +kernel
  have hprime (t : Nat) (ht : t < 80) : Nat.Prime (primes.getD t 0) := by
    rw [prime_iff_trialDivision (by have := (htrial t ht).1; omega)]
    exact (htrial t ht).2
  have hcount : Nat.count Nat.Prime (primes.getD t 0) = t := by
    induction t with
    | zero => decide
    | succ t ih =>
      rw [count_next (hprime t (by omega)) (hmono _ ht t t.lt_succ_self), ih (by omega)]
      intro m hm hpm hprime
      have hlt := (htrial _ ht).1
      obtain ⟨k, hk, rfl⟩ := hall m (by omega) ((prime_iff_trialDivision (by omega)).mp hprime)
      -- a prime between two neighbours would have its place between theirs
      rcases Nat.lt_trichotomy k t with h | rfl | h
      · exact hpm.not_gt (hmono t (by omega) k h)
      · exact hpm.false
      · rcases Nat.eq_or_lt_of_le (Nat.succ_le_of_lt h) with rfl | h
        · exact hm.false
        · exact hm.not_gt (hmono k hk _ h)
  rw [← Nat.nth_count (hprime t ht), hcount]

theorem fractionBits_eq {x : ℝ} (hx : 0 ≤ x) : fractionBits x = BitVec.ofNat 64 ⌊x * 2 ^ 64⌋₊ := by
  have hwhole : x * 2 ^ 64 = Int.fract x * 2 ^ 64 + ((⌊x⌋₊ * 2 ^ 64 : Nat) : ℝ) := by
    rw [Nat.cast_mul, natCast_floor_eq_intCast_floor hx]
    push_cast
    linear_combination (2 ^ 64 : ℝ) * Int.self_sub_floor x
  have hfract : 0 ≤ Int.fract x * 2 ^ 64 := mul_nonneg (Int.fract_nonneg x) (by positivity)
  apply BitVec.eq_of_toNat_eq
  rw [fractionBits, BitVec.toNat_ofNat, BitVec.toNat_ofNat, hwhole, Nat.floor_add_natCast hfract, Nat.add_mul_mod_self_right]

/-- The root of a number to 64 places after the point, from powers of whole numbers. -/
theorem floor_root {k p x : Nat} (hk : k ≠ 0) (hlow : x ^ k ≤ p * 2 ^ (64 * k)) (hhigh : p * 2 ^ (64 * k) < (x + 1) ^ k) :
    ⌊(p : ℝ) ^ (k : ℝ)⁻¹ * 2 ^ 64⌋₊ = x := by
  have hroot : 0 ≤ (p : ℝ) ^ (k : ℝ)⁻¹ * 2 ^ 64 := by positivity
  have hpow : ((p : ℝ) ^ (k : ℝ)⁻¹ * 2 ^ 64) ^ k = ((p * 2 ^ (64 * k) : Nat) : ℝ) := by
    rw [mul_pow, Real.rpow_inv_natCast_pow p.cast_nonneg hk, ← pow_mul]
    push_cast
    rfl
  rw [Nat.floor_eq_iff hroot]
  constructor
  · apply le_of_pow_le_pow_left₀ hk hroot
    rw [hpow]
    exact_mod_cast hlow
  · apply lt_of_pow_lt_pow_left₀ k (by positivity)
    rw [hpow]
    exact_mod_cast hhigh

/-- The bits of a root, when the number has them behind its whole part. -/
theorem fractionBits_root {k p whole : Nat} {bits : Word} (hk : k ≠ 0)
    (hlow : (whole * 2 ^ 64 + bits.toNat) ^ k ≤ p * 2 ^ (64 * k))
    (hhigh : p * 2 ^ (64 * k) < (whole * 2 ^ 64 + bits.toNat + 1) ^ k) :
    fractionBits ((p : ℝ) ^ (k : ℝ)⁻¹) = bits := by
  rw [fractionBits_eq (by positivity), floor_root hk hlow hhigh]
  apply BitVec.eq_of_toNat_eq
  rw [BitVec.toNat_ofNat, Nat.mul_add_mod_self_right]
  exact Nat.mod_eq_of_lt bits.isLt

theorem Krnd_eq {t : Nat} (ht : t < 80) : Krnd.getD t 0 = roundConstant t := by
  have hroots : ∀ t < 80, ∃ whole < 8, (whole * 2 ^ 64 + (Krnd.getD t 0).toNat) ^ 3 ≤ primes.getD t 0 * 2 ^ (64 * 3) ∧
      primes.getD t 0 * 2 ^ (64 * 3) < (whole * 2 ^ 64 + (Krnd.getD t 0).toNat + 1) ^ 3 := by decide +kernel
  obtain ⟨whole, -, hlow, hhigh⟩ := hroots t ht
  rw [roundConstant, nth_prime ht]
  exact (fractionBits_root (k := 3) (by decide) hlow hhigh).symm

theorem sha512_initial_state_eq : sha512_initial_state = initialHash := by
  have hroots : ∀ i : Fin 8, ∃ whole < 5,
      (whole * 2 ^ 64 + (sha512_initial_state i).toNat) ^ 2 ≤ primes.getD i 0 * 2 ^ (64 * 2) ∧
      primes.getD i 0 * 2 ^ (64 * 2) < (whole * 2 ^ 64 + (sha512_initial_state i).toNat + 1) ^ 2 := by decide +kernel
  funext i
  obtain ⟨whole, -, hlow, hhigh⟩ := hroots i
  rw [initialHash, nth_prime (by omega)]
  exact (fractionBits_root (k := 2) (by decide) hlow hhigh).symm

end Constants

end KernelOfTruth.Sha512
