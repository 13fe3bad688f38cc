import KernelOfTruth.Lib.Slices
import KernelOfTruth.Ref10.Field
import Mathlib.Tactic.IntervalCases

/-!
# Field elements as bytes
-/

open KernelOfTruth.Lib KernelOfTruth.Code KernelOfTruth.Code.Ref10 KernelOfTruth.Spec.Ref10

namespace KernelOfTruth.Ref10

/-! ## Loads -/

theorem toNat_setWidth_byte (b : Byte) : (b.setWidth 64).toNat = b.toNat := by
  have hb := b.isLt
  rw [BitVec.toNat_setWidth, Nat.mod_eq_of_lt (by omega)]

/-- One more byte above the others. -/
theorem toNat_or_byte {b : Nat → Byte} {x : BitVec 64} {n : Nat} (hx : x.toNat = littleEndian b n) (hn : n < 8) :
    (x ||| (b n).setWidth 64 <<< (8 * n)).toNat = littleEndian b (n + 1) := by
  have hlow := littleEndian_lt b n
  have hlt : (b n).toNat * 2 ^ (8 * n) < 2 ^ 64 := by
    have hall := littleEndian_lt b (n + 1)
    have hpow : 2 ^ (8 * (n + 1)) ≤ 2 ^ 64 := Nat.pow_le_pow_right (by decide) (by omega)
    rw [littleEndian_succ] at hall
    omega
  rw [BitVec.toNat_or, BitVec.toNat_shiftLeft, Nat.shiftLeft_eq, toNat_setWidth_byte, Nat.mod_eq_of_lt hlt, hx, Nat.or_comm,
    Nat.mul_comm, ← Nat.two_pow_add_eq_or_of_lt hlow, littleEndian_succ, Nat.add_comm, Nat.mul_comm]

theorem toNat_first_byte (b : Nat → Byte) : ((b 0).setWidth 64).toNat = littleEndian b 1 := by
  rw [toNat_setWidth_byte, littleEndian, Finset.sum_range_one, Nat.mul_zero, Nat.pow_zero, Nat.mul_one]

theorem toNat_load_3 (input : Nat → Byte) : (load_3 input).toNat = littleEndian input 3 :=
  toNat_or_byte (toNat_or_byte (toNat_first_byte input) (by decide)) (by decide)

theorem toNat_load_4 (input : Nat → Byte) : (load_4 input).toNat = littleEndian input 4 :=
  toNat_or_byte (toNat_or_byte (toNat_or_byte (toNat_first_byte input) (by decide)) (by decide)) (by decide)

section Loads

variable (s : Nat → Byte) {n j : Nat}

theorem toNat_load_3_at (h : j + 3 ≤ n) : (load_3 fun i => s (j + i)).toNat = slice (littleEndian s n) (8 * j) 24 := by
  rw [toNat_load_3, slice_littleEndian s h]

theorem toNat_load_4_at (h : j + 4 ≤ n) : (load_4 fun i => s (j + i)).toNat = slice (littleEndian s n) (8 * j) 32 := by
  rw [toNat_load_4, slice_littleEndian s h]

end Loads

/-- A word that is the integer of a small number. -/
theorem eq_ofInt {x : BitVec 64} {m : Nat} (h : x.toNat = m) : x = BitVec.ofInt 64 m := by
  rw [BitVec.ofInt_natCast, ← h, BitVec.ofNat_toNat, BitVec.setWidth_eq]

/-! ## `fe_frombytes` -/

theorem toNat_shiftLeft_slice {x : BitVec 64} {n o width k : Nat} (hx : x.toNat = slice n o width) (hk : width + k ≤ 64) :
    (x <<< k).toNat = slice n o width * 2 ^ k := by
  have hlt : slice n o width * 2 ^ k < 2 ^ 64 :=
    calc slice n o width * 2 ^ k < 2 ^ width * 2 ^ k := Nat.mul_lt_mul_of_pos_right (slice_lt n o width) (Nat.two_pow_pos k)
      _ = 2 ^ (width + k) := (Nat.pow_add 2 width k).symm
      _ ≤ 2 ^ 64 := Nat.pow_le_pow_right (by decide) hk
  rw [BitVec.toNat_shiftLeft, Nat.shiftLeft_eq, hx, Nat.mod_eq_of_lt hlt]

/-- The ten numbers that `fe_frombytes` loads from the bytes of `n`. -/
def loaded (n : Nat) : List Nat :=
  [slice n 0 32, slice n 32 24 * 2 ^ 6, slice n 56 24 * 2 ^ 5, slice n 80 24 * 2 ^ 3, slice n 104 24 * 2 ^ 2, slice n 128 32,
    slice n 160 24 * 2 ^ 7, slice n 184 24 * 2 ^ 5, slice n 208 24 * 2 ^ 4, slice n 232 23 * 2 ^ 2]

theorem weigh_loaded (n : Nat) :
    LimbStep.weigh radix (fun t => ((loaded n).map Nat.cast).getD t 0) = ((n % 2 ^ 255 : Nat) : Int) := by
  have h9 := mod_add_slice n 232 23
  have h8 := mod_add_slice n 208 24
  have h7 := mod_add_slice n 184 24
  have h6 := mod_add_slice n 160 24
  have h5 := mod_add_slice n 128 32
  have h4 := mod_add_slice n 104 24
  have h3 := mod_add_slice n 80 24
  have h2 := mod_add_slice n 56 24
  have h1 := mod_add_slice n 32 24
  have h0 := mod_add_slice n 0 32
  simp only [Nat.reduceAdd, Nat.pow_zero, Nat.mod_one, Nat.zero_add, Nat.one_mul] at h0 h1 h2 h3 h4 h5 h6 h7 h8 h9
  rw [h9, h8, h7, h6, h5, h4, h3, h2, h1, h0]
  simp only [LimbStep.weigh, radix, loaded, List.length_cons, List.length_nil, Finset.sum_range_succ, Finset.sum_range_zero,
    List.map_cons, List.map_nil, List.getD_cons_zero, List.getD_cons_succ]
  push_cast
  ring

theorem loaded_lt {n z : Nat} (hz : z ∈ loaded n) : z < 2 ^ 33 := by
  have hslice : ∀ o width k : Nat, width + k ≤ 33 → slice n o width * 2 ^ k < 2 ^ 33 := by
    intro o width k hk
    calc slice n o width * 2 ^ k < 2 ^ width * 2 ^ k := Nat.mul_lt_mul_of_pos_right (slice_lt n o width) (Nat.two_pow_pos k)
      _ = 2 ^ (width + k) := (Nat.pow_add 2 width k).symm
      _ ≤ 2 ^ 33 := Nat.pow_le_pow_right (by decide) hk
  have hwhole : ∀ o, slice n o 32 < 2 ^ 33 := fun o => (slice_lt n o 32).trans (by decide)
  simp only [loaded, List.mem_cons, List.not_mem_nil, or_false] at hz
  rcases hz with rfl | rfl | rfl | rfl | rfl | rfl | rfl | rfl | rfl | rfl
  all_goals first | exact hwhole _ | exact hslice _ _ _ (by decide)

theorem frombytes_limbs (s : Nat → Byte) :
    [load_4 s, load_3 (fun i => s (4 + i)) <<< 6, load_3 (fun i => s (7 + i)) <<< 5, load_3 (fun i => s (10 + i)) <<< 3,
      load_3 (fun i => s (13 + i)) <<< 2, load_4 (fun i => s (16 + i)), load_3 (fun i => s (20 + i)) <<< 7,
      load_3 (fun i => s (23 + i)) <<< 5, load_3 (fun i => s (26 + i)) <<< 4,
      (load_3 (fun i => s (29 + i)) &&& 8388607) <<< 2] =
    ((loaded (littleEndian s 32)).map Nat.cast).map (BitVec.ofInt 64) := by
  have hload : ∀ j k, j + 3 ≤ 32 → 24 + k ≤ 64 → load_3 (fun i => s (j + i)) <<< k =
      BitVec.ofInt 64 ((slice (littleEndian s 32) (8 * j) 24 * 2 ^ k : Nat) : Int) :=
    fun j k hj hk => eq_ofInt (toNat_shiftLeft_slice (toNat_load_3_at s hj) hk)
  have hfirst : load_4 s = BitVec.ofInt 64 (slice (littleEndian s 32) 0 32 : Nat) := by
    have h := toNat_load_4_at s (j := 0) (n := 32) (by decide)
    simp only [Nat.zero_add] at h
    exact eq_ofInt h
  have hlast : (load_3 (fun i => s (29 + i)) &&& 8388607).toNat = slice (littleEndian s 32) 232 23 := by
    rw [BitVec.toNat_and, toNat_load_3_at s (n := 32) (by decide), show (8388607 : BitVec 64).toNat = 2 ^ 23 - 1 from rfl,
      Nat.and_two_pow_sub_one_eq_mod]
    have h := slice_slice (littleEndian s 32) 232 (show 0 + 23 ≤ 24 by decide)
    rwa [slice, Nat.pow_zero, Nat.div_one] at h
  rw [hfirst, eq_ofInt (toNat_load_4_at s (j := 16) (n := 32) (by decide)), eq_ofInt (toNat_shiftLeft_slice hlast (by decide)),
    hload 4 6 (by decide) (by decide), hload 7 5 (by decide) (by decide), hload 10 3 (by decide) (by decide),
    hload 13 2 (by decide) (by decide), hload 20 7 (by decide) (by decide), hload 23 5 (by decide) (by decide),
    hload 26 4 (by decide) (by decide)]
  rfl

/-- The low 255 bits count, and every number of them is taken. -/
theorem fe_frombytes_spec (s : Nat → Byte) :
    feMod (fe_frombytes s) = ((littleEndian s 32 % 2 ^ 255 : Nat) : ZMod p) ∧ FeBounded reducedBound (fe_frombytes s) := by
  have hbound : ∀ z ∈ (loaded (littleEndian s 32)).map Nat.cast, |z| ≤ (2 : Int) ^ 33 := by
    intro z hz
    obtain ⟨m, hm, rfl⟩ := List.mem_map.mp hz
    have hlt := loaded_lt hm
    rw [abs_of_nonneg (Int.natCast_nonneg m)]
    exact_mod_cast hlt.le
  have hstays : LimbStep.staysWithin 64 frombytesCarries (List.replicate 10 (-2 ^ 33, 2 ^ 33)) reducedBounds := by
    decide +kernel
  obtain ⟨hvalue, hbounded⟩ := narrow_runAll hbound (by decide) hstays (by decide +kernel)
  rw [fe_frombytes, frombytes_limbs]
  refine ⟨?_, hbounded⟩
  rw [weigh_loaded] at hvalue
  rw [feMod_of_modEq hvalue, Int.cast_natCast]

/-! ## `fe_tobytes` -/

def width (i : Nat) : Nat := if i % 2 = 0 then 26 else 25

def offset (i : Nat) : Nat := (51 * i + 1) / 2

theorem offset_succ (i : Nat) : offset (i + 1) = offset i + width i := by
  unfold offset width
  split <;> omega

/-- The lowest `n` limbs. -/
def lowValue (z : Nat → Int) (n : Nat) : Int := ∑ i ∈ Finset.range n, z i * 2 ^ offset i

theorem weigh_radix (z : Nat → Int) : LimbStep.weigh radix z = lowValue z 10 := by
  refine Finset.sum_congr rfl fun i hi => ?_
  have hradix : ∀ i < 10, radix.getD i 0 = 2 ^ offset i := by decide
  rw [hradix i (Finset.mem_range.mp hi), Int.mul_comm]

/-- The estimates of the quotient, limb by limb. -/
def quotient (z : Nat → Int) (e : Int) : Nat → Int
  | 0 => e
  | n + 1 => (z n + quotient z e n) / 2 ^ width n

theorem lowValue_succ (z : Nat → Int) (n : Nat) : lowValue z (n + 1) = lowValue z n + z n * 2 ^ offset n :=
  Finset.sum_range_succ _ _

theorem quotient_eq (z : Nat → Int) (e : Int) (n : Nat) : quotient z e n = (lowValue z n + e) / 2 ^ offset n := by
  induction n with
  | zero => simp [quotient, lowValue, offset]
  | succ n ih =>
    have hpos : (2 : Int) ^ offset n ≠ 0 := by positivity
    rw [quotient, ih, Int.add_comm (z n), ← Int.add_mul_ediv_right _ _ hpos, Int.ediv_ediv_of_nonneg (by positivity), ← pow_add,
      ← offset_succ, lowValue_succ, Int.add_right_comm]

/-- `1.1*2^26,1.1*2^25,1.1*2^26,1.1*2^25,etc.` -/
def tobytesBound : Int := 36909875

theorem limb_bound {h : Fe} (hh : FeBounded tobytesBound h) {i : Nat} (hi : i < 10) :
    -(2 ^ width i + 2 ^ (width i - 3)) ≤ (h i).toInt ∧ (h i).toInt ≤ 2 ^ width i + 2 ^ (width i - 3) := by
  have hb := hh i hi
  unfold evenness tobytesBound at hb
  unfold width
  split at hb
  case isTrue heven =>
    rw [if_pos heven]
    omega
  case isFalse hodd =>
    rw [if_neg hodd]
    omega

/-- The correction at the lowest limb is the one for the top limb, and 128 too large when that is far below zero. -/
def firstQuotient (h : Fe) : Nat := ((19#32 * h 9 + 1#32 <<< 24) >>> 25).toNat

theorem firstQuotient_lt (h : Fe) : (0 : Int) ≤ firstQuotient h ∧ (firstQuotient h : Int) < 128 := by
  have hlt := (19#32 * h 9 + 1#32 <<< 24).isLt
  refine ⟨Int.natCast_nonneg _, ?_⟩
  rw [firstQuotient, BitVec.toNat_ushiftRight, Nat.shiftRight_eq_div_pow]
  omega

section Quotient

variable {h : Fe} (hh : FeBounded tobytesBound h)
include hh

theorem quotient_bound {e : Int} (he : 0 ≤ e ∧ e < 128) {n : Nat} (hn : n ≤ 10) :
    -2 ≤ quotient (fun i => (h i).toInt) e n ∧ quotient (fun i => (h i).toInt) e n < 128 ∧
      (0 < n → quotient (fun i => (h i).toInt) e n ≤ 1) := by
  induction n with
  | zero => exact ⟨by simp only [quotient]; omega, he.2, fun h => absurd h (by decide)⟩
  | succ n ih =>
    obtain ⟨hlo, hhi, -⟩ := ih (by omega)
    have hb := limb_bound hh (show n < 10 by omega)
    simp only [quotient]
    unfold width at hb ⊢
    split at hb
    case isTrue heven =>
      rw [if_pos heven]
      omega
    case isFalse hodd =>
      rw [if_neg hodd]
      omega

theorem toInt_quotient_step {n k : Nat} (hn : n < 10) (hk : k = width n) {q : BitVec 32} {e : Int} (he : 0 ≤ e ∧ e < 128)
    (hq : q.toInt = quotient (fun i => (h i).toInt) e n) :
    ((h n + q).sshiftRight k).toInt = quotient (fun i => (h i).toInt) e (n + 1) := by
  have hb := hh n hn
  have hev := evenness_bounds n
  have hqb := quotient_bound hh he (show n ≤ 10 by omega)
  have hK : evenness n * tobytesBound ≤ 2 * 36909875 := by
    unfold tobytesBound
    omega
  have hadd : (h n + q).toInt = (h n).toInt + q.toInt := by
    rw [BitVec.toInt_add, Int.bmod_eq_of_le] <;> omega
  rw [LimbStep.toInt_sshiftRight, hadd, hq, hk]
  rfl

theorem tobytesQuotient_eq : (tobytesQuotient h).toInt = quotient (fun i => (h i).toInt) (firstQuotient h) 10 := by
  have he := firstQuotient_lt h
  have hq0 : ((19#32 * h 9 + 1#32 <<< 24) >>> 25).toInt = quotient (fun i => (h i).toInt) (firstQuotient h) 0 := by
    have hlt : 2 * ((19#32 * h 9 + 1#32 <<< 24) >>> 25).toNat < 2 ^ 32 := by
      have := he.2
      unfold firstQuotient at this
      omega
    exact BitVec.toInt_eq_toNat_of_lt hlt
  have hq1 := toInt_quotient_step hh (by decide) rfl he hq0
  have hq2 := toInt_quotient_step hh (by decide) rfl he hq1
  have hq3 := toInt_quotient_step hh (by decide) rfl he hq2
  have hq4 := toInt_quotient_step hh (by decide) rfl he hq3
  have hq5 := toInt_quotient_step hh (by decide) rfl he hq4
  have hq6 := toInt_quotient_step hh (by decide) rfl he hq5
  have hq7 := toInt_quotient_step hh (by decide) rfl he hq6
  have hq8 := toInt_quotient_step hh (by decide) rfl he hq7
  have hq9 := toInt_quotient_step hh (by decide) rfl he hq8
  exact toInt_quotient_step hh (by decide) rfl he hq9

theorem tobytesQuotient_bound : -2 ≤ (tobytesQuotient h).toInt ∧ (tobytesQuotient h).toInt ≤ 1 := by
  obtain ⟨hlo, -, hhi⟩ := quotient_bound hh (firstQuotient_lt h) (le_refl 10)
  rw [tobytesQuotient_eq hh]
  exact ⟨hlo, hhi (by decide)⟩

theorem toInt_tobytesQuotient : (tobytesQuotient h).toInt = (feValue h + firstQuotient h) / 2 ^ 255 := by
  rw [tobytesQuotient_eq hh, quotient_eq, ← weigh_radix]
  rfl

end Quotient

/-! ## Bytes of limbs -/

section Bytes

variable {w : Nat}

theorem msb_of_nonneg {x : BitVec w} (hx : 0 ≤ x.toInt) : x.msb = false := by
  by_contra h
  have := BitVec.toInt_neg_of_msb_true (Bool.eq_true_of_not_eq_false h)
  omega

theorem natCast_toNat {x : BitVec w} (hx : 0 ≤ x.toInt) : (x.toNat : Int) = x.toInt :=
  (BitVec.toInt_eq_toNat_of_msb (msb_of_nonneg hx)).symm

theorem toNat_sshiftRight {x : BitVec w} (hx : 0 ≤ x.toInt) (r : Nat) : (x.sshiftRight r).toNat = x.toNat / 2 ^ r := by
  rw [BitVec.sshiftRight_eq_of_msb_false (msb_of_nonneg hx), BitVec.toNat_ushiftRight, Nat.shiftRight_eq_div_pow]

theorem toNat_byteOf {x : BitVec w} (hx : 0 ≤ x.toInt) (r : Nat) : (byteOf x r).toNat = slice x.toNat r 8 := by
  rw [byteOf, BitVec.toNat_setWidth, toNat_sshiftRight hx]
  rfl

theorem toNat_byteOfTwo (hw : 8 ≤ w) {x y : BitVec w} {r k : Nat} (hx : 0 ≤ x.toInt) (hlt : x.toNat < 2 ^ (r + k)) (hk : k ≤ 8) :
    (byteOfTwo x r y k).toNat = slice x.toNat r k + 2 ^ k * slice y.toNat 0 (8 - k) := by
  have hhigh : x.toNat / 2 ^ r < 2 ^ k := by
    rw [Nat.pow_add] at hlt
    exact Nat.div_lt_of_lt_mul hlt
  have hlow : x.toNat / 2 ^ r % 2 ^ 8 = x.toNat / 2 ^ r :=
    Nat.mod_eq_of_lt (hhigh.trans_le (Nat.pow_le_pow_right (by decide) hk))
  have hprod : (y * BitVec.ofInt w (2 ^ k)).toNat % 2 ^ 8 = 2 ^ k * (y.toNat % 2 ^ (8 - k)) := by
    have hpow : BitVec.ofInt w (2 ^ k) = BitVec.ofNat w (2 ^ k) := by
      rw [← BitVec.ofInt_natCast]
      push_cast
      rfl
    rw [hpow, BitVec.toNat_mul, BitVec.toNat_ofNat, Nat.mod_mod_of_dvd _ (Nat.pow_dvd_pow 2 hw), Nat.mul_mod,
      Nat.mod_mod_of_dvd _ (Nat.pow_dvd_pow 2 hw), ← Nat.mul_mod, Nat.mul_comm]
    conv_lhs => rw [← Nat.add_sub_of_le hk, Nat.pow_add, Nat.mul_mod_mul_left]
  rw [byteOfTwo, BitVec.toNat_setWidth, BitVec.toNat_or, toNat_sshiftRight hx, Nat.or_mod_two_pow, hlow, hprod, Nat.or_comm,
    ← Nat.two_pow_add_eq_or_of_lt hhigh, Nat.add_comm, slice, slice, Nat.mod_eq_of_lt hhigh, Nat.pow_zero, Nat.div_one]

variable {h : Nat → BitVec w} {width offset : Nat → Nat} {n : Nat} (hoffset : ∀ i, offset (i + 1) = offset i + width i)
  (hsign : ∀ i < n, 0 ≤ (h i).toInt) (hlt : ∀ i < n, (h i).toNat < 2 ^ width i)
include hoffset hsign hlt

theorem toNat_byteOf_limb {i r : Nat} (hi : i < n) (hr : r + 8 ≤ width i) :
    (byteOf (h i) r).toNat = slice (joined offset (fun i => (h i).toNat) n) (offset i + r) 8 := by
  rw [toNat_byteOf (hsign i hi), slice_joined hoffset hlt hi hr]

theorem toNat_byteOfTwo_limbs (hw : 8 ≤ w) {i r k : Nat} (hi : i + 1 < n) (hr : r + k = width i) (hk : k ≤ 8)
    (hnext : 8 - k ≤ width (i + 1)) :
    (byteOfTwo (h i) r (h (i + 1)) k).toNat = slice (joined offset (fun i => (h i).toNat) n) (offset i + r) 8 := by
  have hlow := slice_joined hoffset hlt (show i < n by omega) hr.le
  have hhigh := slice_joined hoffset hlt hi (show 0 + (8 - k) ≤ width (i + 1) by omega)
  have hsplit := slice_add (joined offset (fun i => (h i).toNat) n) (offset i + r) k (8 - k)
  rw [Nat.add_sub_of_le hk, hlow, Nat.add_assoc (offset i), hr, ← hoffset, ← Nat.add_zero (offset (i + 1)), hhigh] at hsplit
  rw [hsplit]
  exact toNat_byteOfTwo hw (hsign i (by omega)) (hr ▸ hlt i (by omega)) hk

end Bytes

/-- The top limb goes up to the end of the bytes, with one bit more than it has. -/
def storeWidth (i : Nat) : Nat := if i = 9 then 26 else width i

def storeOffset (i : Nat) : Nat := if i ≤ 9 then offset i else offset i + 1

theorem storeOffset_succ (i : Nat) : storeOffset (i + 1) = storeOffset i + storeWidth i := by
  unfold storeOffset storeWidth
  rw [offset_succ]
  rcases Nat.lt_trichotomy i 9 with h | rfl | h
  · rw [if_pos (by omega), if_pos (by omega), if_neg (by omega)]
  · rfl
  · rw [if_neg (by omega), if_neg (by omega), if_neg (by omega)]
    omega

/-- The bytes of ten limbs. -/
theorem littleEndian_feStore {h : Nat → BitVec 32} (hsign : ∀ i < 10, 0 ≤ (h i).toInt)
    (hlt : ∀ i < 10, (h i).toNat < 2 ^ width i) :
    littleEndian (feStore h) 32 = joined offset (fun i => (h i).toNat) 10 := by
  have hstore : ∀ i < 10, (h i).toNat < 2 ^ storeWidth i := fun i hi =>
    (hlt i hi).trans_le (Nat.pow_le_pow_right (by decide) (by unfold storeWidth width; split <;> split <;> omega))
  have hone := fun i r => toNat_byteOf_limb (i := i) (r := r) storeOffset_succ hsign hstore
  have htwo := fun i r k => toNat_byteOfTwo_limbs (i := i) (r := r) (k := k) storeOffset_succ hsign hstore (by decide)
  have hbytes : ∀ i < 32, (feStore h i).toNat = slice (joined storeOffset (fun i => (h i).toNat) 10) (8 * i) 8 := by
    intro i hi
    unfold feStore arrayOf
    interval_cases i
    all_goals simp (disch := decide) only [List.getD_cons_zero, List.getD_cons_succ, hone, htwo]
    all_goals rfl
  have hjoined : joined storeOffset (fun i => (h i).toNat) 10 < 2 ^ 256 := joined_lt storeOffset_succ hstore
  rw [littleEndian_of_slices hbytes, Nat.mod_eq_of_lt hjoined]
  exact Finset.sum_congr rfl fun i hi => by rw [storeOffset, if_pos (Nat.lt_succ_iff.mp (Finset.mem_range.mp hi))]

/-! ## The limbs between the carries and the bytes -/

def tobytesInput (h : Fe) : Nat → BitVec 32 :=
  arrayOf [h 0 + 19 * tobytesQuotient h, h 1, h 2, h 3, h 4, h 5, h 6, h 7, h 8, h 9]

/-- Behind the last carry there is a limb that only holds it. -/
def carryRadix : List Int := radix ++ [2 ^ 255]

def inputBounds : List (Int × Int) :=
  ((List.range 10).map fun i => (-(evenness i * tobytesBound + 38), evenness i * tobytesBound + 38)) ++ [(0, 0)]

def outputBounds : List (Int × Int) := ((List.range 10).map fun i => (0, 2 ^ width i - 1)) ++ [(-3, 3)]

section Tobytes

variable {h : Fe} (hh : FeBounded tobytesBound h)
include hh

theorem toInt_tobytesInput : (fun t => (tobytesInput h t).toInt) = fun t =>
    if t < 10 then (h t).toInt + (if t = 0 then 19 * (tobytesQuotient h).toInt else 0) else 0 := by
  have hq := tobytesQuotient_bound hh
  have hprod : (19 * tobytesQuotient h).toInt = 19 * (tobytesQuotient h).toInt := by
    rw [BitVec.toInt_mul, show (19 : BitVec 32).toInt = 19 from rfl, Int.bmod_eq_of_le] <;> omega
  have hfirst : (h 0 + 19 * tobytesQuotient h).toInt = (h 0).toInt + 19 * (tobytesQuotient h).toInt := by
    have hb := limb_bound hh (show 0 < 10 by decide)
    rw [show width 0 = 26 from rfl] at hb
    rw [BitVec.toInt_add, hprod, Int.bmod_eq_of_le] <;> omega
  funext t
  by_cases ht : t < 10
  · rw [if_pos ht]
    interval_cases t
    · rw [if_pos rfl]
      exact hfirst
    all_goals
      rw [if_neg (by decide), Int.add_zero]
      rfl
  · rw [if_neg ht, tobytesInput, arrayOf, List.getD_eq_default _ _ (by simpa using ht), BitVec.toInt_zero]

theorem within_tobytesInput : LimbStep.Within inputBounds fun t => (tobytesInput h t).toInt := by
  have hq := tobytesQuotient_bound hh
  intro t
  simp only [congrFun (toInt_tobytesInput hh) t]
  by_cases ht : t < 10
  · have hb := hh t ht
    have hget : inputBounds.getD t (0, 0) = (-(evenness t * tobytesBound + 38), evenness t * tobytesBound + 38) := by
      rw [inputBounds, List.getD_append _ _ _ _ (by simpa using ht), List.getD_eq_getElem?_getD, List.getElem?_map,
        List.getElem?_range ht]
      rfl
    rw [if_pos ht, hget]
    split <;> omega
  · rw [if_neg ht]
    have hget : inputBounds.getD t (0, 0) = (0, 0) := by
      by_cases h10 : t = 10
      · rw [h10]
        rfl
      · exact List.getD_eq_default _ _ (by rw [inputBounds, List.length_append, List.length_map, List.length_range]; simp; omega)
    rw [hget]
    exact ⟨le_refl 0, le_refl 0⟩

theorem tobytes_exact : LimbStep.Exact outputBounds (LimbStep.runAll tobytesCarries (tobytesInput h))
    (LimbStep.exactAll tobytesCarries fun t => (tobytesInput h t).toInt) :=
  LimbStep.runAll_within (by decide) (by decide +kernel) (within_tobytesInput hh)

theorem tobytes_limb {i : Nat} (hi : i < 10) : 0 ≤ (LimbStep.runAll tobytesCarries (tobytesInput h) i).toInt ∧
    (LimbStep.runAll tobytesCarries (tobytesInput h) i).toInt < 2 ^ width i := by
  have hw := (tobytes_exact hh).within i
  rw [← (tobytes_exact hh).toInt] at hw
  have hget : outputBounds.getD i (0, 0) = (0, 2 ^ width i - 1) := by
    rw [outputBounds, List.getD_append _ _ _ _ (by simpa using hi), List.getD_eq_getElem?_getD, List.getElem?_map,
      List.getElem?_range hi]
    rfl
  rw [hget] at hw
  exact ⟨hw.1, Int.lt_of_le_sub_one hw.2⟩

/-- The carries take a multiple of `2^255` off. -/
theorem weigh_tobytes : (lowValue (fun i => (LimbStep.runAll tobytesCarries (tobytesInput h) i).toInt) 10 +
    2 ^ 255 * (LimbStep.runAll tobytesCarries (tobytesInput h) 10).toInt) =
      feValue h + 19 * (tobytesQuotient h).toInt := by
  have hkeep := LimbStep.weigh_exactAll (M := 0) tobytesCarries (W := carryRadix) (show _ = some carryRadix by decide +kernel)
    fun t => (tobytesInput h t).toInt
  have hinput : LimbStep.weigh radix (fun t => (tobytesInput h t).toInt) = feValue h + 19 * (tobytesQuotient h).toInt := by
    have hlow : ∀ t < radix.length, (tobytesInput h t).toInt =
        (h t).toInt + (if t = 0 then 19 * (tobytesQuotient h).toInt else 0) :=
      fun t ht => (congrFun (toInt_tobytesInput hh) t).trans (if_pos ht)
    have hfirst : LimbStep.weigh radix (fun t => if t = 0 then 19 * (tobytesQuotient h).toInt else 0) =
        19 * (tobytesQuotient h).toInt := by
      rw [LimbStep.weigh, Finset.sum_eq_single 0]
      · rw [if_pos rfl]
        exact Int.one_mul _
      · intro t _ ht
        rw [if_neg ht, Int.mul_zero]
      · intro ht
        exact absurd (Finset.mem_range.mpr (by decide)) ht
    rw [LimbStep.weigh_congr hlow, LimbStep.weigh_add, hfirst]
    rfl
  have hnone : (tobytesInput h 10).toInt = 0 := (congrFun (toInt_tobytesInput hh) 10).trans (if_neg (by decide))
  rw [Int.modEq_zero_iff, ← (tobytes_exact hh).toInt, carryRadix, LimbStep.weigh_concat, LimbStep.weigh_concat, hinput,
    show radix.length = 10 from rfl, hnone, Int.mul_zero, Int.add_zero, weigh_radix] at hkeep
  exact hkeep.symm

/-- The bytes are those of the sum, without what is above `2^255`. -/
theorem littleEndian_fe_tobytes :
    (littleEndian (fe_tobytes h) 32 : Int) = (feValue h + 19 * ((feValue h + firstQuotient h) / 2 ^ 255)) % 2 ^ 255 := by
  have hsign : ∀ i < 10, 0 ≤ (LimbStep.runAll tobytesCarries (tobytesInput h) i).toInt := fun i hi => (tobytes_limb hh hi).1
  have hlt : ∀ i < 10, (LimbStep.runAll tobytesCarries (tobytesInput h) i).toNat < 2 ^ width i := by
    intro i hi
    have hb := (tobytes_limb hh hi).2
    rw [← natCast_toNat (hsign i hi)] at hb
    exact_mod_cast hb
  have hvalue := weigh_tobytes hh
  have hjoined : (joined offset (fun i => (LimbStep.runAll tobytesCarries (tobytesInput h) i).toNat) 10 : Int) =
      lowValue (fun i => (LimbStep.runAll tobytesCarries (tobytesInput h) i).toInt) 10 := by
    rw [joined, lowValue, Nat.cast_sum]
    refine Finset.sum_congr rfl fun i hi => ?_
    rw [← natCast_toNat (hsign i (Finset.mem_range.mp hi))]
    push_cast
    rfl
  have hlow : joined offset (fun i => (LimbStep.runAll tobytesCarries (tobytesInput h) i).toNat) 10 < 2 ^ 255 :=
    joined_lt offset_succ hlt
  rw [show fe_tobytes h = feStore (LimbStep.runAll tobytesCarries (tobytesInput h)) from rfl, littleEndian_feStore hsign hlt,
    ← toInt_tobytesQuotient hh, ← hvalue, Int.add_mul_emod_self_left, ← hjoined]
  exact (Int.emod_eq_of_lt (Int.natCast_nonneg _) (by exact_mod_cast hlow)).symm

end Tobytes

/-! ## Reduction modulo `p` -/

theorem lowValue_bound {h : Fe} {k : Int} (hk : 0 ≤ k) (hh : FeBounded k h) :
    |lowValue (fun i => (h i).toInt) 9| ≤ k * (2 ^ 205 + 2 ^ 180) := by
  have hterm : ∀ i ∈ Finset.range 9, |(h i).toInt * 2 ^ offset i| ≤ k * (evenness i * 2 ^ offset i) := by
    intro i hi
    have hb := abs_le.mpr (hh i (by have := Finset.mem_range.mp hi; omega))
    rw [abs_mul, abs_of_nonneg (by positivity : (0 : Int) ≤ 2 ^ offset i)]
    calc |(h i).toInt| * 2 ^ offset i ≤ evenness i * k * 2 ^ offset i := mul_le_mul_of_nonneg_right hb (by positivity)
      _ = k * (evenness i * 2 ^ offset i) := by ring
  calc |lowValue (fun i => (h i).toInt) 9| ≤ ∑ i ∈ Finset.range 9, |(h i).toInt * 2 ^ offset i| :=
        Finset.abs_sum_le_sum_abs _ _
    _ ≤ ∑ i ∈ Finset.range 9, k * (evenness i * 2 ^ offset i) := Finset.sum_le_sum hterm
    _ = k * ∑ i ∈ Finset.range 9, evenness i * 2 ^ offset i := (Finset.mul_sum _ _ _).symm
    _ ≤ k * (2 ^ 205 + 2 ^ 180) := mul_le_mul_of_nonneg_left (by decide) hk

theorem feValue_top (h : Fe) : feValue h = lowValue (fun i => (h i).toInt) 9 + (h 9).toInt * 2 ^ 230 := by
  rw [feValue, weigh_radix, lowValue_succ]
  rfl

/-- The estimate is right when the top limb is not far below zero. -/
theorem firstQuotient_eq {h : Fe} (hlo : 0 ≤ 19 * (h 9).toInt + 2 ^ 24) (hhi : (h 9).toInt ≤ 2 ^ 26) :
    (firstQuotient h : Int) = (19 * (h 9).toInt + 2 ^ 24) / 2 ^ 25 := by
  have htoInt : (19#32 * h 9 + 1#32 <<< 24).toInt = 19 * (h 9).toInt + 2 ^ 24 := by
    rw [BitVec.toInt_add, BitVec.toInt_mul, show (19#32).toInt = 19 from rfl,
      show (1#32 <<< 24).toInt = 2 ^ 24 from rfl, Int.bmod_add_bmod, Int.bmod_eq_of_le] <;> omega
  rw [firstQuotient, BitVec.toNat_ushiftRight, Nat.shiftRight_eq_div_pow, ← htoInt,
    ← natCast_toNat (by rw [htoInt]; exact hlo)]
  rfl

/-- The bytes of a product are those of the number below `p`. -/
theorem fe_tobytes_spec {h : Fe} (hh : FeBounded reducedBound h) :
    (littleEndian (fe_tobytes h) 32 : Int) = feValue h % p := by
  have hlow := abs_le.mp (lowValue_bound (by decide) hh)
  have htop := hh 9 (by decide)
  have he := firstQuotient_lt h
  have hfirst := @firstQuotient_eq h
  rw [show evenness 9 = 1 from rfl] at htop
  rw [littleEndian_fe_tobytes (bounded_mono hh (by decide)), feValue_top]
  unfold reducedBound at hlow htop
  generalize lowValue (fun i => (h i).toInt) 9 = low at *
  generalize (h 9).toInt = top at *
  generalize (firstQuotient h : Int) = e at *
  have hp : (p : Int) = 2 ^ 255 - 19 := by decide
  rw [hp]
  by_cases hneg : low + top * 2 ^ 230 < 0
  · have hq : (low + top * 2 ^ 230 + e) / 2 ^ 255 = -1 := by omega
    rw [hq, ← Int.add_emod_right (low + top * 2 ^ 230), ← Int.add_emod_right (low + top * 2 ^ 230 + 19 * -1),
      Int.emod_eq_of_lt (by omega) (by omega), Int.emod_eq_of_lt (by omega) (by omega)]
    omega
  · have hq : (low + top * 2 ^ 230 + e) / 2 ^ 255 = 0 := by omega
    rw [hq, Int.emod_eq_of_lt (by omega) (by omega), Int.emod_eq_of_lt (by omega) (by omega)]
    omega

/-- Zero is found also in the sum or the difference of two products. -/
theorem fe_tobytes_eq_zero_iff {h : Fe} (hh : FeBounded tobytesBound h) :
    littleEndian (fe_tobytes h) 32 = 0 ↔ (p : Int) ∣ feValue h := by
  have hlow := abs_le.mp (lowValue_bound (by decide) hh)
  have htop := hh 9 (by decide)
  have he := firstQuotient_lt h
  have hfirst := @firstQuotient_eq h
  have hbytes := littleEndian_fe_tobytes hh
  rw [show evenness 9 = 1 from rfl] at htop
  rw [feValue_top] at hbytes ⊢
  unfold tobytesBound at hlow htop
  generalize lowValue (fun i => (h i).toInt) 9 = low at *
  generalize (h 9).toInt = top at *
  generalize (firstQuotient h : Int) = e at *
  generalize littleEndian (fe_tobytes h) 32 = n at *
  have hp : (p : Int) = 2 ^ 255 - 19 := by decide
  rw [hp]
  constructor
  · intro hn
    rw [hn] at hbytes
    refine ⟨(low + top * 2 ^ 230 + e) / 2 ^ 255, ?_⟩
    omega
  · rintro ⟨m, hm⟩
    obtain rfl | rfl | rfl : m = -1 ∨ m = 0 ∨ m = 1 := by omega
    · rw [show (low + top * 2 ^ 230 + e) / 2 ^ 255 = -1 by omega] at hbytes
      omega
    · rw [show (low + top * 2 ^ 230 + e) / 2 ^ 255 = 0 by omega] at hbytes
      omega
    · rw [show (low + top * 2 ^ 230 + e) / 2 ^ 255 = 1 by omega] at hbytes
      omega

end KernelOfTruth.Ref10
