import Mathlib.Algebra.BigOperators.Group.Finset.Basic
import Mathlib.Algebra.BigOperators.Ring.Finset
import Mathlib.Order.Monotone.Basic
import Mathlib.Tactic.Ring

/-!
# Bits of a number

A number is cut into slices of bits, with its bytes and the limbs of other widths as two ways to do it.
-/

namespace KernelOfTruth.Lib

/-- The `width` bits of `n` from the bit `offset` on. -/
def slice (n offset width : Nat) : Nat := n / 2 ^ offset % 2 ^ width

theorem slice_lt (n offset width : Nat) : slice n offset width < 2 ^ width := Nat.mod_lt _ (Nat.two_pow_pos _)

theorem slice_of_lt {n width : Nat} (h : n < 2 ^ width) : slice n 0 width = n := by
  rw [slice, Nat.pow_zero, Nat.div_one, Nat.mod_eq_of_lt h]

theorem slice_slice (n o : Nat) {width r v : Nat} (h : r + v ≤ width) : slice (slice n o width) r v = slice n (o + r) v := by
  obtain ⟨rest, rfl⟩ := Nat.exists_eq_add_of_le h
  unfold slice
  rw [show r + v + rest = r + (v + rest) by omega, Nat.pow_add 2 r, Nat.mod_mul_right_div_self,
    Nat.mod_mod_of_dvd _ (Nat.pow_dvd_pow 2 (Nat.le_add_right v rest)), Nat.div_div_eq_div_mul, ← Nat.pow_add]

theorem mod_add_slice (n offset width : Nat) :
    n % 2 ^ (offset + width) = n % 2 ^ offset + 2 ^ offset * slice n offset width := by
  rw [Nat.pow_add, Nat.mod_mul]
  rfl

/-- Two slices side by side. -/
theorem slice_add (n offset width width' : Nat) :
    slice n offset (width + width') = slice n offset width + 2 ^ width * slice n (offset + width) width' := by
  unfold slice
  rw [Nat.pow_add 2 width, Nat.mod_mul, Nat.div_div_eq_div_mul, ← Nat.pow_add]

theorem slice_add_mul (a b : Nat) {offset : Nat} (ha : a < 2 ^ offset) (r width : Nat) :
    slice (a + 2 ^ offset * b) (offset + r) width = slice b r width := by
  unfold slice
  rw [Nat.pow_add, ← Nat.div_div_eq_div_mul, Nat.add_mul_div_left _ _ (Nat.two_pow_pos _), Nat.div_eq_of_lt ha, Nat.zero_add]

theorem slice_add_mul_of_le (a b : Nat) {offset r width : Nat} (h : r + width ≤ offset) :
    slice (a + 2 ^ offset * b) r width = slice a r width := by
  have hlow : ∀ n, slice n r width = slice (slice n 0 offset) r width := by
    intro n
    rw [slice_slice n 0 h, Nat.zero_add]
  rw [hlow, hlow a]
  congr 1
  unfold slice
  rw [Nat.pow_zero, Nat.div_one, Nat.div_one, Nat.add_mul_mod_self_left]

/-! ## Bytes -/

/-- The number with these bytes, the lowest one first. -/
def littleEndian (b : Nat → BitVec 8) (n : Nat) : Nat := ∑ i ∈ Finset.range n, (b i).toNat * 2 ^ (8 * i)

theorem littleEndian_succ (b : Nat → BitVec 8) (n : Nat) :
    littleEndian b (n + 1) = littleEndian b n + (b n).toNat * 2 ^ (8 * n) :=
  Finset.sum_range_succ _ _

theorem littleEndian_lt (b : Nat → BitVec 8) (n : Nat) : littleEndian b n < 2 ^ (8 * n) := by
  induction n with
  | zero => exact Nat.one_pos
  | succ n ih =>
    have hb := (b n).isLt
    have hle : (b n).toNat * 2 ^ (8 * n) ≤ 255 * 2 ^ (8 * n) := Nat.mul_le_mul_right _ (by omega)
    rw [littleEndian_succ, Nat.mul_succ, Nat.pow_add]
    omega

theorem littleEndian_add (b : Nat → BitVec 8) (m n : Nat) :
    littleEndian b (m + n) = littleEndian b m + 2 ^ (8 * m) * littleEndian (fun i => b (m + i)) n := by
  unfold littleEndian
  rw [Finset.sum_range_add, Finset.mul_sum]
  congr 1
  refine Finset.sum_congr rfl fun i _ => ?_
  rw [Nat.mul_add, Nat.pow_add]
  ring

/-- Bytes in the middle. -/
theorem slice_littleEndian (b : Nat → BitVec 8) {n j k : Nat} (h : j + k ≤ n) :
    slice (littleEndian b n) (8 * j) (8 * k) = littleEndian (fun i => b (j + i)) k := by
  obtain ⟨rest, rfl⟩ := Nat.exists_eq_add_of_le h
  have hcut := slice_add_mul (littleEndian b j) (littleEndian (fun i => b (j + i)) (k + rest)) (littleEndian_lt b j) 0 (8 * k)
  rw [Nat.add_assoc, littleEndian_add]
  rw [Nat.add_zero] at hcut
  rw [hcut, littleEndian_add, slice_add_mul_of_le _ _ (by omega), slice_of_lt (littleEndian_lt _ _)]

theorem littleEndian_of_slices {b : Nat → BitVec 8} {m n : Nat} (h : ∀ i < n, (b i).toNat = slice m (8 * i) 8) :
    littleEndian b n = m % 2 ^ (8 * n) := by
  induction n with
  | zero => rw [Nat.mul_zero, Nat.pow_zero, Nat.mod_one]; rfl
  | succ n ih =>
    rw [littleEndian_succ, ih fun i hi => h i (by omega), h n (by omega), Nat.mul_succ, mod_add_slice, Nat.mul_comm (slice _ _ _)]

theorem littleEndian_inj {b c : Nat → BitVec 8} {n : Nat} (h : littleEndian b n = littleEndian c n) {i : Nat} (hi : i < n) :
    b i = c i := by
  have hb := slice_littleEndian b (show i + 1 ≤ n by omega)
  have hc := slice_littleEndian c (show i + 1 ≤ n by omega)
  rw [h, hc] at hb
  unfold littleEndian at hb
  simp only [Finset.sum_range_one, Nat.mul_zero, Nat.pow_zero, Nat.mul_one, Nat.add_zero] at hb
  exact BitVec.eq_of_toNat_eq hb.symm

/-! ## Limbs -/

section Joined

-- limb number `i` has `width i` bits, from the bit `offset i` on
variable {width offset : Nat → Nat} {x : Nat → Nat} {n : Nat}

def joined (offset x : Nat → Nat) (n : Nat) : Nat := ∑ i ∈ Finset.range n, x i * 2 ^ offset i

theorem joined_succ (offset x : Nat → Nat) (n : Nat) : joined offset x (n + 1) = joined offset x n + 2 ^ offset n * x n := by
  rw [Nat.mul_comm]
  exact Finset.sum_range_succ _ _

variable (hoffset : ∀ i, offset (i + 1) = offset i + width i) (hx : ∀ i < n, x i < 2 ^ width i)
include hoffset hx

theorem joined_lt : joined offset x n < 2 ^ offset n := by
  induction n with
  | zero => exact Nat.two_pow_pos _
  | succ n ih =>
    have hlow := ih fun i hi => hx i (by omega)
    have htop : 2 ^ offset n * (x n + 1) ≤ 2 ^ offset n * 2 ^ width n := Nat.mul_le_mul_left _ (hx n (by omega))
    rw [joined_succ, hoffset, Nat.pow_add]
    rw [Nat.mul_succ] at htop
    omega

/-- A slice of one limb. -/
theorem slice_joined {i r v : Nat} (hi : i < n) (hv : r + v ≤ width i) :
    slice (joined offset x n) (offset i + r) v = slice (x i) r v := by
  induction n with
  | zero => omega
  | succ n ih =>
    have hlow : joined offset x n < 2 ^ offset n := joined_lt hoffset fun i hi => hx i (by omega)
    rw [joined_succ]
    rcases Nat.lt_succ_iff_lt_or_eq.mp hi with hin | rfl
    · have hmono : offset i + width i ≤ offset n := by
        rw [← hoffset]
        exact monotone_nat_of_le_succ (fun k => by rw [hoffset]; omega) hin
      rw [slice_add_mul_of_le _ _ (by omega)]
      exact ih (fun i hi => hx i (by omega)) hin
    · exact slice_add_mul _ _ hlow _ _

end Joined

end KernelOfTruth.Lib
