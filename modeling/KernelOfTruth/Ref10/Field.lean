import KernelOfTruth.Spec.Ref10
import Mathlib.Algebra.BigOperators.ModEq

/-!
# Field elements in ten limbs
-/

open KernelOfTruth.Lib KernelOfTruth.Code.Ref10 KernelOfTruth.Spec.Ref10

namespace KernelOfTruth.Ref10

/-! ## Products of limbs -/

/-- The factor with which a product of two limbs goes to a limb of the result. -/
def factor (i j : Nat) : Int := (if i % 2 = 1 ∧ j % 2 = 1 then 2 else 1) * (if 10 ≤ i + j then 19 else 1)

def column (F G : Nat → Int) (k : Nat) : Int :=
  ∑ i ∈ Finset.range 10, factor i ((k + 10 - i) % 10) * (F i * G ((k + 10 - i) % 10))

theorem radix_mul {i j : Nat} (hi : i < 10) (hj : j < 10) :
    radix.getD i 0 * radix.getD j 0 ≡ factor i j * radix.getD ((i + j) % 10) 0 [ZMOD p] := by
  have h : ∀ i < 10, ∀ j < 10, (p : Int) ∣ factor i j * radix.getD ((i + j) % 10) 0 - radix.getD i 0 * radix.getD j 0 := by
    decide +kernel
  exact Int.modEq_iff_dvd.mpr (h i hi j hj)

theorem sum_shift {i : Nat} (hi : i < 10) (f : Nat → Nat → Int) :
    ∑ k ∈ Finset.range 10, f k ((k + 10 - i) % 10) = ∑ j ∈ Finset.range 10, f ((i + j) % 10) j := by
  refine Finset.sum_nbij' (fun k => (k + 10 - i) % 10) (fun j => (i + j) % 10) ?_ ?_ ?_ ?_ ?_
  all_goals
    intro k hk
    rw [Finset.mem_range] at hk
  · exact Finset.mem_range.mpr (Nat.mod_lt _ (by decide))
  · exact Finset.mem_range.mpr (Nat.mod_lt _ (by decide))
  · omega
  · omega
  · rw [show (i + (k + 10 - i) % 10) % 10 = k by omega]

def columns (F G : Nat → Int) : List Int := (List.range 10).map (column F G)

theorem weigh_columns (F G : Nat → Int) :
    LimbStep.weigh radix (fun k => (columns F G).getD k 0) ≡ LimbStep.weigh radix F * LimbStep.weigh radix G [ZMOD p] := by
  have hcolumns : ∀ k < 10, (columns F G).getD k 0 = column F G k := by
    intro k hk
    rw [columns, List.getD_eq_getElem?_getD, List.getElem?_map, List.getElem?_range hk]
    rfl
  rw [LimbStep.weigh_congr (W := radix) hcolumns]
  unfold LimbStep.weigh
  rw [show radix.length = 10 from rfl, Finset.sum_mul_sum]
  simp only [column, Finset.mul_sum]
  rw [Finset.sum_comm]
  refine Int.ModEq.sum fun i hi => ?_
  rw [Finset.mem_range] at hi
  rw [sum_shift hi fun k j => radix.getD k 0 * (factor i j * (F i * G j))]
  refine Int.ModEq.sum fun j hj => ?_
  have h := (radix_mul hi (Finset.mem_range.mp hj)).mul_right (F i * G j)
  rw [show radix.getD ((i + j) % 10) 0 * (factor i j * (F i * G j)) =
    factor i j * radix.getD ((i + j) % 10) 0 * (F i * G j) by ring,
    show radix.getD i 0 * F i * (radix.getD j 0 * G j) = radix.getD i 0 * radix.getD j 0 * (F i * G j) by ring]
  exact h.symm

theorem toInt_const_mul {c x : BitVec 32} {b : Int} (hx : -b ≤ x.toInt ∧ x.toInt ≤ b) (hc : 0 ≤ c.toInt)
    (hb : c.toInt * b < 2 ^ 31) : (c * x).toInt = c.toInt * x.toInt := by
  have hlo := Int.mul_le_mul_of_nonneg_left hx.1 hc
  have hhi := Int.mul_le_mul_of_nonneg_left hx.2 hc
  rw [Int.mul_neg] at hlo
  rw [BitVec.toInt_mul, Int.bmod_eq_of_le] <;> omega

theorem mul64_eq (x y : BitVec 32) : mul64 x y = BitVec.ofInt 64 (x.toInt * y.toInt) := by
  rw [BitVec.ofInt_mul]
  rfl

theorem abs_mul_le {a b A B : Int} (ha : -A ≤ a ∧ a ≤ A) (hb : -B ≤ b ∧ b ≤ B) : |a * b| ≤ A * B := by
  rw [abs_mul]
  exact mul_le_mul (abs_le.mpr ha) (abs_le.mpr hb) (abs_nonneg b) ((abs_nonneg a).trans (abs_le.mpr ha))

theorem column_bound {F G : Nat → Int} {b : Int} (hF : ∀ i < 10, -(evenness i * b) ≤ F i ∧ F i ≤ evenness i * b)
    (hG : ∀ i < 10, -(evenness i * b) ≤ G i ∧ G i ≤ evenness i * b) (k : Nat) :
    |column F G k| ≤ 760 * (b * b) := by
  have hcoeff : ∀ i < 10, ∀ j < 10, 0 ≤ factor i j ∧ factor i j * (evenness i * evenness j) ≤ 76 := by decide
  have hterm : ∀ i ∈ Finset.range 10,
      |factor i ((k + 10 - i) % 10) * (F i * G ((k + 10 - i) % 10))| ≤ 76 * (b * b) := by
    intro i hi
    have hi := Finset.mem_range.mp hi
    have hj : (k + 10 - i) % 10 < 10 := Nat.mod_lt _ (by decide)
    obtain ⟨hpos, hle⟩ := hcoeff i hi _ hj
    rw [abs_mul, abs_of_nonneg hpos]
    calc factor i ((k + 10 - i) % 10) * |F i * G ((k + 10 - i) % 10)|
        ≤ factor i ((k + 10 - i) % 10) * (evenness i * b * (evenness ((k + 10 - i) % 10) * b)) :=
          mul_le_mul_of_nonneg_left (abs_mul_le (hF i hi) (hG _ hj)) hpos
      _ = factor i ((k + 10 - i) % 10) * (evenness i * evenness ((k + 10 - i) % 10)) * (b * b) := by ring
      _ ≤ 76 * (b * b) := mul_le_mul_of_nonneg_right hle (mul_self_nonneg b)
  calc |column F G k| ≤ ∑ i ∈ Finset.range 10, |factor i ((k + 10 - i) % 10) * (F i * G ((k + 10 - i) % 10))| :=
        Finset.abs_sum_le_sum_abs _ _
    _ ≤ ∑ _i ∈ Finset.range 10, 76 * (b * b) := Finset.sum_le_sum hterm
    _ = 760 * (b * b) := by rw [Finset.sum_const, Finset.card_range, nsmul_eq_mul]; ring

theorem columns_bound {F G : Nat → Int} {b : Int} (hF : ∀ i < 10, -(evenness i * b) ≤ F i ∧ F i ≤ evenness i * b)
    (hG : ∀ i < 10, -(evenness i * b) ≤ G i ∧ G i ≤ evenness i * b) {z : Int} (hz : z ∈ columns F G) :
    |z| ≤ 760 * (b * b) := by
  obtain ⟨k, -, rfl⟩ := List.mem_map.mp hz
  exact column_bound hF hG k

section Limbs

variable {f g : Fe} (hf : FeBounded mulBound f) (hg : FeBounded mulBound g)
include hf

theorem toInt_double {i : Nat} (hi : i < 10) : (2 * f i).toInt = 2 * (f i).toInt := by
  refine toInt_const_mul (hf i hi) (by decide) ?_
  unfold evenness mulBound
  split <;> decide

theorem toInt_mul_19 {i : Nat} (hi : i < 10) : (19 * f i).toInt = 19 * (f i).toInt := by
  refine toInt_const_mul (hf i hi) (by decide) ?_
  unfold evenness mulBound
  split <;> decide

theorem toInt_mul_38 {i : Nat} (hi : i < 10) (hodd : i % 2 = 1) : (38 * f i).toInt = 38 * (f i).toInt := by
  refine toInt_const_mul (hf i hi) (by decide) ?_
  rw [evenness, if_neg (by omega)]
  decide

theorem sqLimbs_eq : sqLimbs f = (columns (fun i => (f i).toInt) fun i => (f i).toInt).map (BitVec.ofInt 64) := by
  simp (disch := decide) only [sqLimbs, mul64_eq, toInt_double hf, toInt_mul_19 hf, toInt_mul_38 hf, ← BitVec.ofInt_add]
  simp only [columns, List.range, List.range.loop, List.map_cons, List.map_nil, List.cons.injEq, and_true]
  refine ⟨?_, ?_, ?_, ?_, ?_, ?_, ?_, ?_, ?_, ?_⟩
  all_goals
    refine congrArg (BitVec.ofInt 64) ?_
    simp only [column, factor, Finset.sum_range_succ, Finset.sum_range_zero]
    norm_num
    ring

include hg

theorem mulLimbs_eq : mulLimbs f g = (columns (fun i => (f i).toInt) fun i => (g i).toInt).map (BitVec.ofInt 64) := by
  simp (disch := decide) only [mulLimbs, mul64_eq, toInt_double hf, toInt_mul_19 hg, ← BitVec.ofInt_add]
  simp only [columns, List.range, List.range.loop, List.map_cons, List.map_nil, List.cons.injEq, and_true]
  refine ⟨?_, ?_, ?_, ?_, ?_, ?_, ?_, ?_, ?_, ?_⟩
  all_goals
    refine congrArg (BitVec.ofInt 64) ?_
    simp only [column, factor, Finset.sum_range_succ, Finset.sum_range_zero]
    norm_num <;> ring

end Limbs

/-! ## Carries -/

theorem toInt_setWidth_32 {x : BitVec 64} (h : -2 ^ 31 ≤ x.toInt ∧ x.toInt < 2 ^ 31) : (x.setWidth 32).toInt = x.toInt := by
  have hmod : (x.setWidth 32).toInt = x.toInt.bmod (2 ^ 32) := by
    rw [BitVec.toInt_setWidth, BitVec.toInt_eq_toNat_bmod, Int.bmod_bmod_of_dvd (by decide)]
  rw [hmod, Int.bmod_eq_of_le] <;> omega

/-- The columns of a square, twice. -/
def columnBound : Int := 2 * (760 * (mulBound * mulBound))

def reducedBounds : List (Int × Int) := (List.range 10).map fun i => (-(evenness i * reducedBound), evenness i * reducedBound)

theorem getD_reducedBounds {i : Nat} (hi : i < 10) :
    reducedBounds.getD i (0, 0) = (-(evenness i * reducedBound), evenness i * reducedBound) := by
  rw [List.getD_eq_getElem?_getD, reducedBounds, List.getElem?_map, List.getElem?_range hi]
  rfl

theorem feValue_eq {f : Fe} {z : Nat → Int} (h : ∀ i < 10, (f i).toInt = z i) : feValue f = LimbStep.weigh radix z :=
  LimbStep.weigh_congr h

theorem narrow_spec {h : Nat → BitVec 64} {z : Nat → Int} (hz : LimbStep.Exact reducedBounds h z) :
    feValue (narrow h) = LimbStep.weigh radix z ∧ FeBounded reducedBound (narrow h) := by
  have htoInt : ∀ i < 10, (narrow h i).toInt = z i := by
    intro i hi
    have hw := hz.within i
    rw [getD_reducedBounds hi, ← hz.toInt] at hw
    rw [← hz.toInt]
    refine toInt_setWidth_32 ?_
    have he : evenness i ≤ 2 := by unfold evenness; split <;> decide
    have hr : reducedBound = 16944988 := rfl
    simp only at hw
    constructor <;> nlinarith
  constructor
  · exact feValue_eq htoInt
  · intro i hi
    rw [htoInt i hi]
    have hw := hz.within i
    rwa [getD_reducedBounds hi] at hw

theorem toInt_arrayOf {l : List Int} {b : Int} (hl : ∀ z ∈ l, |z| ≤ b) (hb : b < 2 ^ 63) :
    (fun t => (arrayOf (l.map (BitVec.ofInt 64)) t).toInt) = fun t => l.getD t 0 := by
  funext t
  unfold arrayOf
  by_cases ht : t < l.length
  · have hle := abs_le.mp (hl l[t] (List.getElem_mem ht))
    rw [List.getD_eq_getElem _ _ (by rwa [List.length_map]), List.getElem_map, List.getD_eq_getElem _ _ ht]
    exact BitVec.toInt_ofInt_eq_self (by decide) (by omega) (by omega)
  · rw [List.getD_eq_default _ _ (by rw [List.length_map]; omega), List.getD_eq_default _ _ (by omega), BitVec.toInt_zero]

theorem within_replicate {l : List Int} {b : Int} (hl : ∀ z ∈ l, |z| ≤ b) :
    LimbStep.Within (List.replicate l.length (-b, b)) fun t => l.getD t 0 := by
  intro t
  by_cases ht : t < l.length
  · rw [List.getD_eq_getElem _ _ (by rwa [List.length_replicate]), List.getElem_replicate]
    simp only [List.getD_eq_getElem _ _ ht]
    exact abs_le.mp (hl l[t] (List.getElem_mem ht))
  · rw [List.getD_eq_default _ _ (by rw [List.length_replicate]; omega)]
    simp only [List.getD_eq_default l _ (Nat.le_of_not_lt ht)]
    exact ⟨le_refl 0, le_refl 0⟩

/-- Carries behind which ten entries are left that fit into the words of an element. -/
theorem narrow_runAll {steps : List LimbStep} {l : List Int} {b : Int} (hl : ∀ z ∈ l, |z| ≤ b) (hb : b < 2 ^ 63)
    (hstays : LimbStep.staysWithin 64 steps (List.replicate l.length (-b, b)) reducedBounds)
    (hweights : LimbStep.pullAll p steps radix = some radix) :
    feValue (narrow (LimbStep.runAll steps (arrayOf (l.map (BitVec.ofInt 64))))) ≡
        LimbStep.weigh radix (fun t => l.getD t 0) [ZMOD p] ∧
      FeBounded reducedBound (narrow (LimbStep.runAll steps (arrayOf (l.map (BitVec.ofInt 64))))) := by
  have hentries := toInt_arrayOf hl hb
  have hrun := LimbStep.runAll_within (by decide) hstays (hentries ▸ within_replicate hl)
  obtain ⟨hvalue, hbounded⟩ := narrow_spec hrun
  rw [hvalue, hentries]
  exact ⟨(LimbStep.weigh_exactAll steps hweights _).symm, hbounded⟩

theorem reduceLimbs_spec {l : List Int} (hlen : l.length = 10) (hl : ∀ z ∈ l, |z| ≤ columnBound) :
    feValue (reduceLimbs (l.map (BitVec.ofInt 64))) ≡ LimbStep.weigh radix (fun t => l.getD t 0) [ZMOD p] ∧
      FeBounded reducedBound (reduceLimbs (l.map (BitVec.ofInt 64))) := by
  refine narrow_runAll hl (by decide) ?_ (by decide +kernel)
  rw [hlen]
  decide +kernel

theorem feMod_of_modEq {f : Fe} {z : Int} (h : feValue f ≡ z [ZMOD p]) : feMod f = (z : ZMod p) :=
  (ZMod.intCast_eq_intCast_iff _ _ _).mpr h

theorem fe_mul_spec {f g : Fe} (hf : FeBounded mulBound f) (hg : FeBounded mulBound g) :
    feMod (fe_mul f g) = feMod f * feMod g ∧ FeBounded reducedBound (fe_mul f g) := by
  obtain ⟨hvalue, hbounded⟩ := reduceLimbs_spec rfl fun z hz => (columns_bound hf hg hz).trans (by decide)
  rw [fe_mul, mulLimbs_eq hf hg]
  refine ⟨?_, hbounded⟩
  rw [feMod_of_modEq (hvalue.trans (weigh_columns _ _)), Int.cast_mul]
  rfl

theorem fe_sq_spec {f : Fe} (hf : FeBounded mulBound f) :
    feMod (fe_sq f) = feMod f * feMod f ∧ FeBounded reducedBound (fe_sq f) := by
  obtain ⟨hvalue, hbounded⟩ := reduceLimbs_spec rfl fun z hz => (columns_bound hf hf hz).trans (by decide)
  rw [fe_sq, sqLimbs_eq hf]
  refine ⟨?_, hbounded⟩
  rw [feMod_of_modEq (hvalue.trans (weigh_columns _ _)), Int.cast_mul]
  rfl

theorem getD_map_double (l : List Int) (t : Nat) : (l.map (2 * ·)).getD t 0 = 2 * l.getD t 0 := by
  rw [List.getD_eq_getElem?_getD, List.getD_eq_getElem?_getD, List.getElem?_map]
  cases l[t]? <;> rfl

theorem fe_sq2_spec {f : Fe} (hf : FeBounded mulBound f) :
    feMod (fe_sq2 f) = 2 * (feMod f * feMod f) ∧ FeBounded reducedBound (fe_sq2 f) := by
  have hlimbs : (sqLimbs f).map (fun h => h + h) =
      ((columns (fun i => (f i).toInt) fun i => (f i).toInt).map (2 * ·)).map (BitVec.ofInt 64) := by
    rw [sqLimbs_eq hf, List.map_map, List.map_map]
    refine List.map_congr_left fun z _ => ?_
    simp only [Function.comp_apply, Int.two_mul, BitVec.ofInt_add]
  obtain ⟨hvalue, hbounded⟩ := reduceLimbs_spec (l := (columns (fun i => (f i).toInt) fun i => (f i).toInt).map (2 * ·)) rfl (by
    intro z hz
    obtain ⟨y, hy, rfl⟩ := List.mem_map.mp hz
    rw [abs_mul]
    exact mul_le_mul_of_nonneg_left (columns_bound hf hf hy) (by decide))
  rw [fe_sq2, hlimbs]
  refine ⟨?_, hbounded⟩
  simp only [getD_map_double] at hvalue
  rw [LimbStep.weigh_const_mul] at hvalue
  rw [feMod_of_modEq (hvalue.trans ((weigh_columns _ _).mul_left 2)), Int.cast_mul, Int.cast_mul, Int.cast_two]
  rfl

/-! ## Sums -/

theorem evenness_bounds (i : Nat) : 1 ≤ evenness i ∧ evenness i ≤ 2 := by
  unfold evenness
  split <;> decide

theorem bounded_mono {k l : Int} {f : Fe} (h : FeBounded k f) (hle : k ≤ l) : FeBounded l f := by
  intro i hi
  have hk := h i hi
  have he := Int.mul_le_mul_of_nonneg_left hle (Int.le_trans (by decide) (evenness_bounds i).1)
  omega

section Sums

variable {k l : Int} {f g : Fe}

theorem fe_add_spec (hf : FeBounded k f) (hg : FeBounded l g) (hkl : k + l < 2 ^ 30) :
    feMod (fe_add f g) = feMod f + feMod g ∧ FeBounded (k + l) (fe_add f g) := by
  have hbounds : ∀ i < 10, -(evenness i * (k + l)) ≤ (f i).toInt + (g i).toInt ∧
      (f i).toInt + (g i).toInt ≤ evenness i * (k + l) := by
    intro i hi
    have hk := hf i hi
    have hl := hg i hi
    rw [Int.mul_add]
    omega
  have htoInt : ∀ i < 10, (fe_add f g i).toInt = (f i).toInt + (g i).toInt := by
    intro i hi
    have hb := hbounds i hi
    have he := evenness_bounds i
    have hlt : evenness i * (k + l) < 2 ^ 31 := by nlinarith
    rw [fe_add, BitVec.toInt_add, Int.bmod_eq_of_le] <;> omega
  constructor
  · rw [feMod, feValue_eq htoInt, LimbStep.weigh_add, Int.cast_add]
    rfl
  · intro i hi
    rw [htoInt i hi]
    exact hbounds i hi

theorem fe_neg_spec (hf : FeBounded k f) (hk : k < 2 ^ 30) : feMod (fe_neg f) = -feMod f ∧ FeBounded k (fe_neg f) := by
  have htoInt : ∀ i < 10, (fe_neg f i).toInt = -(f i).toInt := by
    intro i hi
    have hb := hf i hi
    have he := evenness_bounds i
    have hlt : evenness i * k < 2 ^ 31 := by nlinarith
    rw [fe_neg, BitVec.toInt_neg, Int.bmod_eq_of_le] <;> omega
  constructor
  · rw [feMod, feValue_eq htoInt, LimbStep.weigh_neg, Int.cast_neg]
    rfl
  · intro i hi
    have hb := hf i hi
    rw [htoInt i hi]
    omega

theorem fe_sub_spec (hf : FeBounded k f) (hg : FeBounded l g) (hl : l < 2 ^ 30) (hkl : k + l < 2 ^ 30) :
    feMod (fe_sub f g) = feMod f - feMod g ∧ FeBounded (k + l) (fe_sub f g) := by
  obtain ⟨hneg, hgneg⟩ := fe_neg_spec hg hl
  obtain ⟨hadd, hbounded⟩ := fe_add_spec hf hgneg hkl
  have heq : fe_sub f g = fe_add f (fe_neg g) := funext fun i => BitVec.sub_eq_add_neg _ _
  rw [heq, hadd, hneg, sub_eq_add_neg]
  exact ⟨rfl, hbounded⟩

end Sums

/-! ## Powers -/

/-- `f` is the power of `z` with the exponent `n`. -/
structure IsPower (z : Fe) (n : Nat) (f : Fe) : Prop where
  eq_pow : feMod f = feMod z ^ n
  bounded : FeBounded mulBound f

namespace IsPower

variable {z f g : Fe} {m n : Nat}

theorem self (hz : FeBounded mulBound z) : IsPower z 1 z := ⟨(pow_one _).symm, hz⟩

theorem mul (hf : IsPower z m f) (hg : IsPower z n g) : IsPower z (m + n) (fe_mul f g) := by
  obtain ⟨hmod, hbounded⟩ := fe_mul_spec hf.bounded hg.bounded
  exact ⟨by rw [hmod, hf.eq_pow, hg.eq_pow, pow_add], bounded_mono hbounded (by decide)⟩

theorem sq (hf : IsPower z n f) : IsPower z (n * 2) (fe_sq f) := by
  obtain ⟨hmod, hbounded⟩ := fe_sq_spec hf.bounded
  exact ⟨by rw [hmod, hf.eq_pow, pow_mul, pow_two], bounded_mono hbounded (by decide)⟩

theorem sqLoop (hf : IsPower z n f) (k : Nat) : IsPower z (n * 2 ^ k) (sqLoop k f) := by
  induction k generalizing n f with
  | zero => rwa [Nat.pow_zero, Nat.mul_one]
  | succ k ih =>
    rw [Nat.pow_succ', ← Nat.mul_assoc]
    exact ih hf.sq

end IsPower

theorem fe_invert_spec {z : Fe} (hz : FeBounded mulBound z) :
    feMod (fe_invert z) = feMod z ^ (p - 2) ∧ FeBounded reducedBound (fe_invert z) := by
  have z1 := IsPower.self hz
  have t0 := z1.sq
  have t1 := z1.mul t0.sq.sq
  have t0 := t0.mul t1
  have t1 := t1.mul t0.sq
  have t1 := (t1.sq.sqLoop 4).mul t1
  have t2 := (t1.sq.sqLoop 9).mul t1
  have t2 := (t2.sq.sqLoop 19).mul t2
  have t1 := (t2.sq.sqLoop 9).mul t1
  have t2 := (t1.sq.sqLoop 49).mul t1
  have t2 := (t2.sq.sqLoop 99).mul t2
  have t1 := (t2.sq.sqLoop 49).mul t1
  have t1 := t1.sq.sqLoop 4
  obtain ⟨-, hbounded⟩ := fe_mul_spec t1.bounded t0.bounded
  exact ⟨(t1.mul t0).eq_pow.trans (congrArg (feMod z ^ ·) (by decide)), hbounded⟩

theorem fe_pow22523_spec {z : Fe} (hz : FeBounded mulBound z) :
    feMod (fe_pow22523 z) = feMod z ^ ((p - 5) / 8) ∧ FeBounded reducedBound (fe_pow22523 z) := by
  have z1 := IsPower.self hz
  have t0 := z1.sq
  have t1 := z1.mul t0.sq.sq
  have t0 := t0.mul t1
  have t0 := t1.mul t0.sq
  have t0 := (t0.sq.sqLoop 4).mul t0
  have t1 := (t0.sq.sqLoop 9).mul t0
  have t1 := (t1.sq.sqLoop 19).mul t1
  have t0 := (t1.sq.sqLoop 9).mul t0
  have t1 := (t0.sq.sqLoop 49).mul t0
  have t1 := (t1.sq.sqLoop 99).mul t1
  have t0 := (t1.sq.sqLoop 49).mul t0
  have t0 := t0.sq.sq
  obtain ⟨-, hbounded⟩ := fe_mul_spec t0.bounded z1.bounded
  exact ⟨(t0.mul z1).eq_pow.trans (congrArg (feMod z ^ ·) (by decide)), hbounded⟩

end KernelOfTruth.Ref10
