import Mathlib.Algebra.BigOperators.Group.Finset.Basic
import Mathlib.Algebra.BigOperators.Ring.Finset
import Mathlib.Algebra.Order.Ring.Int
import Mathlib.Data.Int.ModEq
import Mathlib.Data.List.GetD
import Mathlib.Tactic.LinearCombination
import Mathlib.Tactic.Linarith
import Mathlib.Tactic.Ring

/-!
# Numbers in limbs

Straight-line code that moves carries between the signed words of an array. Two runs over the code take the place of
the proofs about it: one follows the interval of each word from the start on and finds that nothing overflows, and the
other follows the weight of each word from the end back and finds which sum of the words the code keeps.
-/

namespace KernelOfTruth.Lib

/-- A statement of the code on the array `s`. -/
inductive LimbStep
  /-- `c = (s[i] + (1 << (k - 1))) >> k; s[j] += c * m; s[i] -= c * (1 << k);` -/
  | round (i j k : Nat) (m : Int)
  /-- `c = s[i] >> k; s[j] += c; s[i] -= c * (1 << k);` -/
  | floor (i j k : Nat)
  /-- `s[j] += s[i] * m;` -/
  | addmul (i j : Nat) (m : Int)
  /-- `s[i] = 0;` -/
  | clear (i : Nat)

namespace LimbStep

/-! ## Words -/

def moveCarry {w : Nat} (s : Nat → BitVec w) (i j k : Nat) (c m : BitVec w) : Nat → BitVec w :=
  let s := Function.update s j (s j + c * m)
  Function.update s i (s i - c * BitVec.ofInt w (2 ^ k))

def run {w : Nat} (s : Nat → BitVec w) : LimbStep → Nat → BitVec w
  | round i j k m => moveCarry s i j k ((s i + BitVec.ofInt w (2 ^ (k - 1))).sshiftRight k) (BitVec.ofInt w m)
  | floor i j k => moveCarry s i j k ((s i).sshiftRight k) (BitVec.ofInt w 1)
  | addmul i j m => Function.update s j (s j + s i * BitVec.ofInt w m)
  | clear i => Function.update s i 0#w

def runAll {w : Nat} (steps : List LimbStep) (s : Nat → BitVec w) : Nat → BitVec w := steps.foldl run s

/-! ## Integers -/

def moveExact (z : Nat → Int) (i j k : Nat) (c m : Int) : Nat → Int :=
  Function.update (Function.update z j (z j + c * m)) i (z i - c * 2 ^ k)

/-- What the statement does to integers. -/
def exact (z : Nat → Int) : LimbStep → Nat → Int
  | round i j k m => moveExact z i j k ((z i + 2 ^ (k - 1)) / 2 ^ k) m
  | floor i j k => moveExact z i j k (z i / 2 ^ k) 1
  | addmul i j m => Function.update z j (z j + z i * m)
  | clear i => Function.update z i 0

def exactAll (steps : List LimbStep) (z : Nat → Int) : Nat → Int := steps.foldl exact z

/-! ## Intervals -/

def Within (B : List (Int × Int)) (z : Nat → Int) : Prop :=
  ∀ t, (B.getD t (0, 0)).1 ≤ z t ∧ z t ≤ (B.getD t (0, 0)).2

def fits (w : Nat) (b : Int × Int) : Bool := decide (-2 ^ (w - 1) ≤ b.1 ∧ b.2 < 2 ^ (w - 1))

def scale (m : Int) (b : Int × Int) : Int × Int := if 0 ≤ m then (b.1 * m, b.2 * m) else (b.2 * m, b.1 * m)

def moveBounds (w : Nat) (B : List (Int × Int)) (i j : Nat) (rest sum : Int × Int) : Option (List (Int × Int)) :=
  if i ≠ j ∧ i < B.length ∧ j < B.length ∧ fits w rest ∧ fits w sum then some ((B.set j sum).set i rest) else none

/-- The intervals after the statement, when no word overflows. -/
def bounds (w : Nat) (B : List (Int × Int)) : LimbStep → Option (List (Int × Int))
  | round i j k m =>
    let a := B.getD i (0, 0) + (2 ^ (k - 1), 2 ^ (k - 1))
    if 0 < k ∧ fits w a then
      moveBounds w B i j (-2 ^ (k - 1), 2 ^ (k - 1) - 1) (B.getD j (0, 0) + scale m (a.1 / 2 ^ k, a.2 / 2 ^ k))
    else none
  | floor i j k =>
    let a := B.getD i (0, 0)
    moveBounds w B i j (0, 2 ^ k - 1) (B.getD j (0, 0) + (a.1 / 2 ^ k, a.2 / 2 ^ k))
  | addmul i j m =>
    let b := B.getD j (0, 0) + scale m (B.getD i (0, 0))
    if j < B.length ∧ fits w b then some (B.set j b) else none
  | clear i => if i < B.length then some (B.set i (0, 0)) else none

def boundsAll (w : Nat) (steps : List LimbStep) (B : List (Int × Int)) : Option (List (Int × Int)) :=
  steps.foldlM (bounds w) B

theorem getD_set {α : Type} (l : List α) (i t : Nat) (a d : α) (hi : i < l.length) :
    (l.set i a).getD t d = if t = i then a else l.getD t d := by
  rw [List.getD_eq_getElem?_getD, List.getD_eq_getElem?_getD, List.getElem?_set]
  by_cases h : t = i
  · rw [if_pos h.symm, if_pos h, if_pos (h ▸ hi)]
    rfl
  · rw [if_neg (Ne.symm h), if_neg h]

theorem Within.set {B : List (Int × Int)} {z : Nat → Int} (h : Within B z) {i : Nat} (hi : i < B.length) {b : Int × Int}
    {v : Int} (hv : b.1 ≤ v ∧ v ≤ b.2) : Within (B.set i b) (Function.update z i v) := by
  intro t
  rw [getD_set _ _ _ _ _ hi]
  by_cases ht : t = i
  · rw [if_pos ht, ht, Function.update_self]
    exact hv
  · rw [if_neg ht, Function.update_of_ne ht]
    exact h t

theorem within_scale {b : Int × Int} {v : Int} (hv : b.1 ≤ v ∧ v ≤ b.2) (m : Int) :
    (scale m b).1 ≤ v * m ∧ v * m ≤ (scale m b).2 := by
  unfold scale
  by_cases hm : 0 ≤ m
  · rw [if_pos hm]
    exact ⟨Int.mul_le_mul_of_nonneg_right hv.1 hm, Int.mul_le_mul_of_nonneg_right hv.2 hm⟩
  · rw [if_neg hm]
    exact ⟨Int.mul_le_mul_of_nonpos_right hv.2 (by omega), Int.mul_le_mul_of_nonpos_right hv.1 (by omega)⟩

theorem within_add {a b : Int × Int} {u v : Int} (hu : a.1 ≤ u ∧ u ≤ a.2) (hv : b.1 ≤ v ∧ v ≤ b.2) :
    (a + b).1 ≤ u + v ∧ u + v ≤ (a + b).2 :=
  ⟨add_le_add hu.1 hv.1, add_le_add hu.2 hv.2⟩

theorem within_div {a : Int × Int} {u : Int} (hu : a.1 ≤ u ∧ u ≤ a.2) (k : Nat) :
    a.1 / 2 ^ k ≤ u / 2 ^ k ∧ u / 2 ^ k ≤ a.2 / 2 ^ k :=
  ⟨Int.ediv_le_ediv (by positivity) hu.1, Int.ediv_le_ediv (by positivity) hu.2⟩

/-! ## A word without overflow is its integer -/

theorem toInt_ofInt_of_fits {w : Nat} (hw : 0 < w) {b : Int × Int} (hb : fits w b) {v : Int} (hv : b.1 ≤ v ∧ v ≤ b.2) :
    (BitVec.ofInt w v).toInt = v := by
  have h := of_decide_eq_true hb
  exact BitVec.toInt_ofInt_eq_self hw (h.1.trans hv.1) (hv.2.trans_lt h.2)

theorem toInt_sshiftRight {w : Nat} (x : BitVec w) (k : Nat) : (x.sshiftRight k).toInt = x.toInt / 2 ^ k := by
  rw [BitVec.toInt_sshiftRight, Int.shiftRight_eq_div_pow]
  norm_cast

theorem add_ofInt {w : Nat} (x : BitVec w) (m : Int) : x + BitVec.ofInt w m = BitVec.ofInt w (x.toInt + m) := by
  rw [BitVec.ofInt_add, BitVec.ofInt_toInt]

theorem add_mul_ofInt {w : Nat} (x c : BitVec w) (m : Int) :
    x + c * BitVec.ofInt w m = BitVec.ofInt w (x.toInt + c.toInt * m) := by
  rw [BitVec.ofInt_add, BitVec.ofInt_mul, BitVec.ofInt_toInt, BitVec.ofInt_toInt]

theorem sub_mul_ofInt {w : Nat} (x c : BitVec w) (m : Int) :
    x - c * BitVec.ofInt w m = BitVec.ofInt w (x.toInt - c.toInt * m) := by
  rw [Int.sub_eq_add_neg, BitVec.ofInt_add, BitVec.ofInt_neg, BitVec.ofInt_mul, BitVec.ofInt_toInt, BitVec.ofInt_toInt,
    BitVec.sub_eq_add_neg]

theorem toInt_comp_update {w : Nat} (s : Nat → BitVec w) (i : Nat) (x : BitVec w) :
    (fun t => (Function.update s i x t).toInt) = Function.update (fun t => (s t).toInt) i x.toInt := by
  funext t
  by_cases ht : t = i
  · rw [ht, Function.update_self, Function.update_self]
  · rw [Function.update_of_ne ht, Function.update_of_ne ht]

variable {w : Nat} {B B' : List (Int × Int)} {s : Nat → BitVec w}

/-- What a run over the intervals finds. -/
structure Exact (B' : List (Int × Int)) (s' : Nat → BitVec w) (z' : Nat → Int) : Prop where
  toInt : (fun t => (s' t).toInt) = z'
  within : Within B' z'

theorem moveCarry_exact (hw : 0 < w) {i j k : Nat} {c : BitVec w} {m : Int} {rest sum : Int × Int}
    (h : moveBounds w B i j rest sum = some B') (hs : Within B fun t => (s t).toInt)
    (hrest : rest.1 ≤ (s i).toInt - c.toInt * 2 ^ k ∧ (s i).toInt - c.toInt * 2 ^ k ≤ rest.2)
    (hsum : sum.1 ≤ (s j).toInt + c.toInt * m ∧ (s j).toInt + c.toInt * m ≤ sum.2) :
    Exact B' (moveCarry s i j k c (BitVec.ofInt w m)) (moveExact (fun t => (s t).toInt) i j k c.toInt m) := by
  unfold moveBounds at h
  split at h
  case isFalse => cases h
  case isTrue hguard =>
    obtain ⟨hij, hi, hj, hfrest, hfsum⟩ := hguard
    obtain rfl := Option.some.inj h
    have hji := hs.set hj hsum
    refine ⟨?_, hji.set (by rwa [List.length_set]) hrest⟩
    unfold moveCarry moveExact
    simp only
    rw [toInt_comp_update, toInt_comp_update, Function.update_of_ne hij, add_mul_ofInt, sub_mul_ofInt,
      toInt_ofInt_of_fits hw hfsum hsum, toInt_ofInt_of_fits hw hfrest hrest]

theorem round_rest (z : Int) {k : Nat} (hk : 0 < k) :
    -2 ^ (k - 1) ≤ z - (z + 2 ^ (k - 1)) / 2 ^ k * 2 ^ k ∧ z - (z + 2 ^ (k - 1)) / 2 ^ k * 2 ^ k ≤ 2 ^ (k - 1) - 1 := by
  have hpow : (2 : Int) ^ k = 2 * 2 ^ (k - 1) := by
    obtain ⟨n, rfl⟩ := Nat.exists_eq_add_of_lt hk
    rw [Nat.zero_add, Nat.add_sub_cancel, pow_succ, mul_comm]
  have hpos : (0 : Int) < 2 ^ k := by positivity
  have hdiv := Int.emod_add_mul_ediv (z + 2 ^ (k - 1)) (2 ^ k)
  have hlo := Int.emod_nonneg (z + 2 ^ (k - 1)) hpos.ne'
  have hhi := Int.emod_lt_of_pos (z + 2 ^ (k - 1)) hpos
  rw [Int.mul_comm (2 ^ k)] at hdiv
  constructor <;> linarith

theorem floor_rest (z : Int) (k : Nat) : 0 ≤ z - z / 2 ^ k * 2 ^ k ∧ z - z / 2 ^ k * 2 ^ k ≤ 2 ^ k - 1 := by
  have hpos : (0 : Int) < 2 ^ k := by positivity
  have hdiv := Int.emod_add_mul_ediv z (2 ^ k)
  have hlo := Int.emod_nonneg z hpos.ne'
  have hhi := Int.emod_lt_of_pos z hpos
  rw [Int.mul_comm (2 ^ k)] at hdiv
  constructor <;> linarith

theorem run_exact (hw : 0 < w) (step : LimbStep) (h : step.bounds w B = some B') (hs : Within B fun t => (s t).toInt) :
    Exact B' (step.run s) (step.exact fun t => (s t).toInt) := by
  cases step with
  | round i j k m =>
    simp only [bounds] at h
    split at h
    case isFalse => cases h
    case isTrue hguard =>
      obtain ⟨hk, hfit⟩ := hguard
      have hadd := within_add (hs i) (b := (2 ^ (k - 1), 2 ^ (k - 1))) ⟨le_refl _, le_refl _⟩
      have hc : ((s i + BitVec.ofInt w (2 ^ (k - 1))).sshiftRight k).toInt = ((s i).toInt + 2 ^ (k - 1)) / 2 ^ k := by
        rw [toInt_sshiftRight, add_ofInt, toInt_ofInt_of_fits hw hfit hadd]
      unfold run exact
      simp only
      rw [← hc]
      refine moveCarry_exact hw h hs ?_ ?_
      · rw [hc]
        exact round_rest _ hk
      · rw [hc]
        exact within_add (hs j) (within_scale (within_div hadd k) m)
  | floor i j k =>
    have hc := toInt_sshiftRight (s i) k
    unfold run exact
    simp only
    rw [← hc]
    refine moveCarry_exact hw h hs ?_ ?_
    · rw [hc]
      exact floor_rest _ k
    · rw [hc, Int.mul_one]
      exact within_add (hs j) (within_div (hs i) k)
  | addmul i j m =>
    simp only [bounds] at h
    split at h
    case isFalse => cases h
    case isTrue hguard =>
      obtain rfl := Option.some.inj h
      have hsum := within_add (hs j) (within_scale (hs i) m)
      refine ⟨?_, hs.set hguard.1 hsum⟩
      unfold run exact
      simp only
      rw [toInt_comp_update, add_mul_ofInt, toInt_ofInt_of_fits hw hguard.2 hsum]
  | clear i =>
    simp only [bounds] at h
    split at h
    case isFalse => cases h
    case isTrue hi =>
      obtain rfl := Option.some.inj h
      refine ⟨?_, hs.set hi ⟨le_refl 0, le_refl 0⟩⟩
      unfold run exact
      simp only
      rw [toInt_comp_update, BitVec.toInt_zero]

/-- Code whose intervals fit into the words does to them what it does to integers. -/
theorem runAll_exact (hw : 0 < w) (steps : List LimbStep) (h : boundsAll w steps B = some B')
    (hs : Within B fun t => (s t).toInt) :
    Exact B' (runAll steps s) (exactAll steps fun t => (s t).toInt) := by
  induction steps generalizing B s with
  | nil =>
    obtain rfl := Option.some.inj h
    exact ⟨rfl, hs⟩
  | cons step steps ih =>
    obtain ⟨B₁, hB₁, hrest⟩ := Option.bind_eq_some_iff.mp h
    obtain ⟨htoInt, hwithin⟩ := run_exact hw step hB₁ hs
    have hall := ih hrest (s := step.run s) (htoInt ▸ hwithin)
    rwa [htoInt] at hall

/-- The intervals after the code lie in those of `C`. -/
def staysWithin (w : Nat) (steps : List LimbStep) (B C : List (Int × Int)) : Bool :=
  match boundsAll w steps B with
  | none => false
  | some B' => (List.range (max B'.length C.length)).all fun t =>
    decide ((C.getD t (0, 0)).1 ≤ (B'.getD t (0, 0)).1 ∧ (B'.getD t (0, 0)).2 ≤ (C.getD t (0, 0)).2)

theorem runAll_within (hw : 0 < w) {steps : List LimbStep} {C : List (Int × Int)} (h : staysWithin w steps B C)
    (hs : Within B fun t => (s t).toInt) : Exact C (runAll steps s) (exactAll steps fun t => (s t).toInt) := by
  unfold staysWithin at h
  split at h
  case h_1 => cases h
  case h_2 B' hB' =>
    obtain ⟨htoInt, hwithin⟩ := runAll_exact hw steps hB' hs
    refine ⟨htoInt, fun t => ?_⟩
    by_cases ht : t < max B'.length C.length
    · have hle := of_decide_eq_true (List.all_eq_true.mp h t (List.mem_range.mpr ht))
      exact ⟨hle.1.trans (hwithin t).1, (hwithin t).2.trans hle.2⟩
    · have hB := hwithin t
      rw [List.getD_eq_default _ _ (by omega)] at hB ⊢
      exact hB

/-! ## Weights -/

def weigh (W : List Int) (z : Nat → Int) : Int := ∑ t ∈ Finset.range W.length, W.getD t 0 * z t

theorem weigh_congr {W : List Int} {z z' : Nat → Int} (h : ∀ t < W.length, z t = z' t) : weigh W z = weigh W z' :=
  Finset.sum_congr rfl fun t ht => by rw [h t (Finset.mem_range.mp ht)]

theorem weigh_add (W : List Int) (z z' : Nat → Int) :
    weigh W (fun i => z i + z' i) = weigh W z + weigh W z' := by
  unfold weigh
  rw [← Finset.sum_add_distrib]
  exact Finset.sum_congr rfl fun i _ => Int.mul_add _ _ _

theorem weigh_neg (W : List Int) (z : Nat → Int) : weigh W (fun i => -z i) = -weigh W z := by
  unfold weigh
  rw [← Finset.sum_neg_distrib]
  exact Finset.sum_congr rfl fun i _ => Int.mul_neg _ _

theorem weigh_const_mul (W : List Int) (m : Int) (z : Nat → Int) :
    weigh W (fun i => m * z i) = m * weigh W z := by
  unfold weigh
  rw [Finset.mul_sum]
  exact Finset.sum_congr rfl fun i _ => by ring

theorem weigh_concat (W : List Int) (x : Int) (z : Nat → Int) : weigh (W ++ [x]) z = weigh W z + x * z W.length := by
  unfold weigh
  rw [List.length_append, List.length_singleton, Finset.sum_range_succ]
  congr 1
  · exact Finset.sum_congr rfl fun t ht => by rw [List.getD_append _ _ _ _ (Finset.mem_range.mp ht)]
  · rw [List.getD_append_right _ _ _ _ (le_refl _), Nat.sub_self, List.getD_cons_zero]

/-- The weights before the statement with which it keeps the sum modulo `M`, for the weights `W` behind it. -/
def pull (M : Int) (step : LimbStep) (W : List Int) : Option (List Int) :=
  match step with
  | round i j k m => if i ≠ j ∧ i < W.length ∧ j < W.length ∧ M ∣ m * W.getD j 0 - 2 ^ k * W.getD i 0 then some W else none
  | floor i j k => if i ≠ j ∧ i < W.length ∧ j < W.length ∧ M ∣ W.getD j 0 - 2 ^ k * W.getD i 0 then some W else none
  | addmul i j m => if i ≠ j ∧ i < W.length ∧ j < W.length then some (W.set i (W.getD i 0 + m * W.getD j 0)) else none
  | clear i => if i < W.length then some (W.set i 0) else none

def pullAll (M : Int) (steps : List LimbStep) (W : List Int) : Option (List Int) := steps.foldrM (pull M) W

theorem weigh_update {W : List Int} {i : Nat} (hi : i < W.length) (z : Nat → Int) (v : Int) :
    weigh W (Function.update z i v) = weigh W z + W.getD i 0 * (v - z i) := by
  unfold weigh
  have hmem := Finset.mem_range.mpr hi
  rw [← Finset.add_sum_erase _ _ hmem, ← Finset.add_sum_erase (Finset.range W.length) (fun t => W.getD t 0 * z t) hmem,
    Function.update_self]
  rw [Finset.sum_congr rfl fun t ht => by rw [Function.update_of_ne (Finset.ne_of_mem_erase ht)]]
  ring

theorem weigh_set {W : List Int} {i : Nat} (hi : i < W.length) (z : Nat → Int) (v : Int) :
    weigh (W.set i v) z = weigh W z + (v - W.getD i 0) * z i := by
  unfold weigh
  have hmem := Finset.mem_range.mpr hi
  rw [List.length_set, ← Finset.add_sum_erase _ _ hmem,
    ← Finset.add_sum_erase (Finset.range W.length) (fun t => W.getD t 0 * z t) hmem, getD_set _ _ _ _ _ hi, if_pos rfl]
  rw [Finset.sum_congr rfl fun t ht => by rw [getD_set _ _ _ _ _ hi, if_neg (Finset.ne_of_mem_erase ht)]]
  ring

theorem weigh_moveExact {M : Int} {W : List Int} {i j k : Nat} {m : Int} (hij : i ≠ j) (hi : i < W.length)
    (hj : j < W.length) (hM : M ∣ m * W.getD j 0 - 2 ^ k * W.getD i 0) (z : Nat → Int) (c : Int) :
    weigh W z ≡ weigh W (moveExact z i j k c m) [ZMOD M] := by
  unfold moveExact
  rw [weigh_update hi, weigh_update hj, Function.update_of_ne hij]
  refine Int.modEq_iff_dvd.mpr ?_
  obtain ⟨q, hq⟩ := hM
  refine ⟨c * q, ?_⟩
  linear_combination c * hq

theorem weigh_exact {M : Int} (step : LimbStep) {W W' : List Int} (h : step.pull M W = some W') (z : Nat → Int) :
    weigh W' z ≡ weigh W (step.exact z) [ZMOD M] := by
  cases step with
  | round i j k m =>
    simp only [pull] at h
    split at h
    case isFalse => cases h
    case isTrue hguard =>
      obtain rfl := Option.some.inj h
      exact weigh_moveExact hguard.1 hguard.2.1 hguard.2.2.1 hguard.2.2.2 z _
  | floor i j k =>
    simp only [pull] at h
    split at h
    case isFalse => cases h
    case isTrue hguard =>
      obtain rfl := Option.some.inj h
      exact weigh_moveExact hguard.1 hguard.2.1 hguard.2.2.1 (by rw [Int.one_mul]; exact hguard.2.2.2) z _
  | addmul i j m =>
    simp only [pull] at h
    split at h
    case isFalse => cases h
    case isTrue hguard =>
      obtain rfl := Option.some.inj h
      unfold exact
      rw [weigh_set hguard.2.1, weigh_update hguard.2.2]
      exact congrArg (· % M) (by ring)
  | clear i =>
    simp only [pull] at h
    split at h
    case isFalse => cases h
    case isTrue hi =>
      obtain rfl := Option.some.inj h
      unfold exact
      rw [weigh_set hi, weigh_update hi]
      exact congrArg (· % M) (by ring)

/-- The sum behind the code is the one before it, with the weights that the run back has found. -/
theorem weigh_exactAll {M : Int} (steps : List LimbStep) {W W' : List Int} (h : pullAll M steps W = some W')
    (z : Nat → Int) : weigh W' z ≡ weigh W (exactAll steps z) [ZMOD M] := by
  induction steps generalizing W' z with
  | nil =>
    obtain rfl := Option.some.inj h
    exact Int.ModEq.refl _
  | cons step steps ih =>
    unfold pullAll at h
    rw [List.foldrM_cons] at h
    obtain ⟨W₁, hW₁, hstep⟩ := Option.bind_eq_some_iff.mp h
    exact (weigh_exact step hstep z).trans (ih hW₁ _)

end LimbStep

end KernelOfTruth.Lib
