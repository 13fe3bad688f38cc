import KernelOfTruth.Code.Mmu
import Mathlib.Tactic.IntervalCases
import Mathlib.Tactic.Ring

/-! # Masks and alignment, as arithmetic -/

open KernelOfTruth.Code

namespace KernelOfTruth.Bits

theorem and_mask_toNat (a : Word) : (a &&& 0xfff).toNat = a.toNat % 4096 := by
  rw [BitVec.toNat_and]
  exact Nat.and_two_pow_sub_one_eq_mod a.toNat 12

theorem and_low_eq_zero (a : Word) : a &&& 0xfff = 0 ↔ a.toNat % 4096 = 0 := by
  rw [← and_mask_toNat a]
  exact ⟨fun h => by rw [h]; rfl, fun h => BitVec.eq_of_toNat_eq (by rw [h]; rfl)⟩

theorem is_aligned_iff (a : Word) : is_aligned a Page_Small = true ↔ a.toNat % 4096 = 0 := by
  unfold is_aligned
  rw [show Page_Small - 1 = (0xfff : Word) by decide, beq_iff_eq]
  exact and_low_eq_zero a

theorem and_high_eq_zero (a : Word) : a &&& 0xffff000000000000 = 0 ↔ a.toNat < 2 ^ 48 := by
  have hmask : a &&& (0xffff000000000000 : Word) = a >>> 48 <<< 48 := by
    ext i hi
    interval_cases i <;> simp
  have hnat : (a >>> 48 <<< 48).toNat = a.toNat / 2 ^ 48 * 2 ^ 48 := by
    rw [BitVec.toNat_shiftLeft, BitVec.toNat_ushiftRight, Nat.shiftRight_eq_div_pow, Nat.shiftLeft_eq]
    have := a.isLt
    omega
  rw [hmask]
  constructor
  · intro h
    rw [h] at hnat
    simp at hnat
    omega
  · intro h
    apply BitVec.eq_of_toNat_eq
    rw [hnat, Nat.div_eq_of_lt h]
    rfl

/-- The bits of an address that an entry can hold. -/
theorem page_entry_toNat (e : Word) : (page_entry_to_phys e).toNat = e.toNat % 2 ^ 52 / 2 ^ 12 * 2 ^ 12 := by
  have hmask : page_entry_to_phys e = e <<< 12 >>> 24 <<< 12 := by
    unfold page_entry_to_phys Phys_Addr_Mask
    ext i hi
    interval_cases i <;> simp
  rw [hmask, BitVec.toNat_shiftLeft, BitVec.toNat_ushiftRight, BitVec.toNat_shiftLeft,
    Nat.shiftRight_eq_div_pow, Nat.shiftLeft_eq, Nat.shiftLeft_eq]
  have := e.isLt
  omega

theorem page_entry_aligned {f : Word} (hal : f.toNat % 4096 = 0) (hlt : f.toNat < 2 ^ 52) :
    page_entry_to_phys f = f := by
  apply BitVec.eq_of_toNat_eq
  rw [page_entry_toNat]
  omega

end KernelOfTruth.Bits
