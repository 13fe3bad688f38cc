import KernelOfTruth.Spec.Comparison
import KernelOfTruth.Strings
import Mathlib.Data.List.Lex
import Mathlib.Data.Nat.Find
import Mathlib.Tactic.IntervalCases

/-!
# The signs of `memcmp` and `strncmp`

Both compare characters with a sign, and `memcmp` returns the opposite sign.
-/

open KernelOfTruth.Lib KernelOfTruth.Code KernelOfTruth.Spec KernelOfTruth.Strings

namespace KernelOfTruth.Comparison

variable {f g : Nat → Byte} {n i k : Nat}

/-! ## The result at the first difference -/

theorem reversed_eq {a b : Byte} (hne : a ≠ b) :
    (if a.toInt > b.toInt then -1 else 1 : Int) = -(a.toInt - b.toInt).sign := by
  have hint : a.toInt ≠ b.toInt := fun h => hne (BitVec.eq_of_toInt_eq h)
  split
  · rw [Int.sign_eq_one_of_pos (by omega)]
  · rw [Int.sign_eq_neg_one_of_neg (by omega)]
    rfl

theorem memcmpValue_first (hik : i ≤ k) (hkn : k < i + n) (hsame : ∀ j, i ≤ j → j < k → f j = g j) (hne : f k ≠ g k) :
    memcmpValue f g n i = -((f k).toInt - (g k).toInt).sign := by
  induction n generalizing i with
  | zero => omega
  | succ n ih =>
    unfold memcmpValue
    rcases Nat.eq_or_lt_of_le hik with rfl | hlt
    · have hint : (f i).toInt ≠ (g i).toInt := fun h => hne (BitVec.eq_of_toInt_eq h)
      rw [← reversed_eq hne]
      split
      · rfl
      · rw [if_pos (by omega)]
    · rw [hsame i le_rfl hlt, if_neg (lt_irrefl _), if_neg (lt_irrefl _)]
      exact ih hlt (by omega) fun j hj hjk => hsame j (by omega) hjk

theorem strncmpValue_first (hik : i ≤ k) (hkn : k < i + n) (hsame : ∀ j, i ≤ j → j < k → f j = g j ∧ f j ≠ 0)
    (hne : f k ≠ g k) : strncmpValue f g n i = (f k).toInt - (g k).toInt := by
  induction n generalizing i with
  | zero => omega
  | succ n ih =>
    unfold strncmpValue
    simp only [ne_eq, toInt_sub_eq_zero]
    rcases Nat.eq_or_lt_of_le hik with rfl | hlt
    · rw [if_pos hne]
    · obtain ⟨heq, hnul⟩ := hsame i le_rfl hlt
      rw [← heq, if_neg (not_not.mpr rfl), if_neg (not_or.mpr ⟨hnul, hnul⟩)]
      exact ih hlt (by omega) fun j hj hjk => hsame j (by omega) hjk

/-! ## Characters with and without a sign -/

theorem sign_eq_iff {x y : Int} : x.sign = y.sign ↔ (0 < x ↔ 0 < y) ∧ (x < 0 ↔ y < 0) := by
  rcases lt_trichotomy x 0 with hx | rfl | hx <;> rcases lt_trichotomy y 0 with hy | rfl | hy <;>
    simp [Int.sign_eq_one_of_pos, Int.sign_eq_neg_one_of_neg, *] <;> omega

theorem neg_sign_eq_iff {x y : Int} (hx : x ≠ 0) (hy : y ≠ 0) : -x.sign = y.sign ↔ x.sign ≠ y.sign := by
  rcases lt_or_gt_of_ne hx with hx | hx <;> rcases lt_or_gt_of_ne hy with hy | hy <;>
    simp [Int.sign_eq_one_of_pos, Int.sign_eq_neg_one_of_neg, hx, hy]

theorem toInt_byte (a : Byte) : a.toInt = if a.msb then (a.toNat : Int) - 256 else a.toNat := by
  rw [BitVec.toInt_eq_msb_cond]
  rfl

theorem toNat_byte (a : Byte) : a.msb = true ↔ 128 ≤ a.toNat := by
  rw [BitVec.msb_eq_decide, decide_eq_true_iff]

/-- The difference of two characters has the sign of the bytes when both are below 128 or both are not. -/
theorem difference_sign {a b : Byte} (hne : a ≠ b) :
    (a.toInt - b.toInt).sign = byteOrder a b ↔ a.msb = b.msb := by
  have hnat : a.toNat ≠ b.toNat := fun h => hne (BitVec.eq_of_toNat_eq h)
  have ha := toNat_byte a
  have hb := toNat_byte b
  have halt := a.isLt
  have hblt := b.isLt
  unfold byteOrder
  rw [sign_eq_iff, toInt_byte, toInt_byte]
  cases hma : a.msb <;> cases hmb : b.msb <;> simp_all <;> omega

/-- The opposite sign is right in the other cases. -/
theorem reversed_sign {a b : Byte} (hne : a ≠ b) :
    (-(a.toInt - b.toInt).sign).sign = byteOrder a b ↔ a.msb ≠ b.msb := by
  have hint : a.toInt ≠ b.toInt := fun h => hne (BitVec.eq_of_toInt_eq h)
  have hnat : a.toNat ≠ b.toNat := fun h => hne (BitVec.eq_of_toNat_eq h)
  rw [Int.sign_neg, Int.sign_sign, ne_eq, ← difference_sign hne]
  exact neg_sign_eq_iff (by omega) (by omega)

/-! ## The contracts, pair by pair -/

theorem comparesBytes_iff : ComparesBytes f g n (memcmpValue f g n 0) ↔
    ∀ i, FirstDifference f g n i → (f i).msb ≠ (g i).msb := by
  have hfirst : ∀ i, FirstDifference f g n i → memcmpValue f g n 0 = -((f i).toInt - (g i).toInt).sign :=
    fun i ⟨hi, hsame, hne⟩ => memcmpValue_first (Nat.zero_le i) (by omega) (fun j _ hj => hsame j hj) hne
  constructor
  · intro h i hi
    have hsign := h.sign i hi
    rwa [hfirst i hi, reversed_sign hi.2.2] at hsign
  · intro h
    refine ⟨memcmpValue_zero, fun i hi => ?_⟩
    rw [hfirst i hi, reversed_sign hi.2.2]
    exact h i hi

theorem comparesTexts_iff : ComparesTexts f g n (strncmpValue f g n 0) ↔
    ∀ i, FirstTextDifference f g n i → (f i).msb = (g i).msb := by
  have hfirst : ∀ i, FirstTextDifference f g n i → strncmpValue f g n 0 = (f i).toInt - (g i).toInt :=
    fun i ⟨hi, hcomes, hne⟩ => strncmpValue_first (Nat.zero_le i) (by omega) (fun j _ hj => hcomes j hj) hne
  constructor
  · intro h i hi
    have hsign := h.sign i hi
    rwa [hfirst i hi, difference_sign hi.2.2] at hsign
  · intro h
    refine ⟨strncmpValue_zero, fun i hi => ?_⟩
    rw [hfirst i hi, difference_sign hi.2.2]
    exact h i hi

theorem exists_first (h : ¬ ∀ i < n, f i = g i) : ∃ i, FirstDifference f g n i := by
  have hexists : ∃ i, i < n ∧ f i ≠ g i := by
    by_contra hnone
    exact h fun i hi => by_contra fun hne => hnone ⟨i, hi, hne⟩
  refine ⟨Nat.find hexists, (Nat.find_spec hexists).1, fun j hj => ?_, (Nat.find_spec hexists).2⟩
  have hlt := (Nat.find_spec hexists).1
  by_contra hne
  exact Nat.find_min hexists hj ⟨by omega, hne⟩

/-- On strings the two results have opposite signs, so they agree on equal strings only. -/
theorem consistent_iff (hf : NulFree f n) :
    (memcmpValue f g n 0).sign = (strncmpValue f g n 0).sign ↔ ∀ i < n, f i = g i := by
  constructor
  · intro hsign
    by_contra hdiffer
    obtain ⟨i, hi, hsame, hne⟩ := exists_first hdiffer
    have hint : (f i).toInt - (g i).toInt ≠ 0 := fun h => hne (toInt_sub_eq_zero.mp h)
    rw [memcmpValue_first (Nat.zero_le i) (by omega) (fun j _ hj => hsame j hj) hne,
      strncmpValue_first (Nat.zero_le i) (by omega) (fun j _ hj => ⟨hsame j hj, hf j (by omega)⟩) hne,
      Int.sign_neg, Int.sign_sign] at hsign
    have hzero : ((f i).toInt - (g i).toInt).sign = 0 := by omega
    exact hint (Int.sign_eq_zero_iff_zero.mp hzero)
  · intro hsame
    rw [memcmpValue_zero.mpr hsame, strncmpValue_zero.mpr fun i hi _ => hsame i hi]

/-! ## Strings in order -/

theorem memcmpValue_shift (f g : Nat → Byte) (n i : Nat) :
    memcmpValue f g n (i + 1) = memcmpValue (fun j => f (j + 1)) (fun j => g (j + 1)) n i := by
  induction n generalizing i with
  | zero => rfl
  | succ n ih =>
    unfold memcmpValue
    rw [ih]

theorem strncmpValue_shift (f g : Nat → Byte) (n i : Nat) :
    strncmpValue f g n (i + 1) = strncmpValue (fun j => f (j + 1)) (fun j => g (j + 1)) n i := by
  induction n generalizing i with
  | zero => rfl
  | succ n ih =>
    unfold strncmpValue
    rw [ih]

/-- The characters of a string, with their signs. -/
def chars (s : List Byte) : List Int := s.map BitVec.toInt

theorem chars_injective : Function.Injective chars :=
  List.map_injective_iff.mpr fun _ _ h => BitVec.eq_of_toInt_eq h

theorem memcmpValue_pos {x y : List Byte} (h : x.length = y.length) :
    0 < memcmpValue (fun i => x.getD i 0) (fun i => y.getD i 0) x.length 0 ↔ chars x < chars y := by
  induction x generalizing y with
  | nil =>
    obtain rfl : y = [] := List.length_eq_zero_iff.mp h.symm
    simp [memcmpValue, chars]
  | cons a x ih =>
    cases y with
    | nil => simp at h
    | cons b y =>
      have hrest := ih (Nat.succ.inj h)
      unfold memcmpValue
      simp only [List.length_cons, List.getD_cons_zero, memcmpValue_shift, List.getD_cons_succ, chars, List.map_cons]
      simp only [chars] at hrest
      rw [List.cons_lt_cons_iff, ← hrest]
      split
      · omega
      · split
        · omega
        · have heq : a.toInt = b.toInt := by omega
          simp [heq]

theorem strncmpValue_pos {x y : List Byte} (h : x.length = y.length) (hx : 0 ∉ x) :
    0 < strncmpValue (fun i => x.getD i 0) (fun i => y.getD i 0) x.length 0 ↔ chars y < chars x := by
  induction x generalizing y with
  | nil =>
    obtain rfl : y = [] := List.length_eq_zero_iff.mp h.symm
    simp [strncmpValue, chars]
  | cons a x ih =>
    cases y with
    | nil => simp at h
    | cons b y =>
      have hrest := ih (Nat.succ.inj h) (List.not_mem_of_not_mem_cons hx)
      have hnul : a ≠ 0 := fun ha => hx (by simp [ha])
      unfold strncmpValue
      simp only [List.length_cons, List.getD_cons_zero, strncmpValue_shift, List.getD_cons_succ, chars, List.map_cons]
      simp only [chars] at hrest
      rw [List.cons_lt_cons_iff, ← hrest]
      by_cases heq : a = b
      · subst heq
        rw [if_neg (by omega), if_neg (not_or.mpr ⟨hnul, hnul⟩)]
        simp
      · have hint : a.toInt ≠ b.toInt := fun h => heq (BitVec.eq_of_toInt_eq h)
        rw [if_pos (by omega)]
        omega

/-! ## Orders -/

variable {m : Memory}

theorem memcmp_constant (x y : List Byte) (n : Nat) : (memcmp (constant x) (constant y) n).run m =
    .ok (memcmpValue (fun i => x.getD i 0) (fun i => y.getD i 0) n 0, m) := by
  rw [run_eq_ok_iff, wp_memcmp (reads_constant x) (reads_constant y) fun _ _ => ⟨trivial, trivial⟩]
  exact ⟨rfl, rfl⟩

theorem strncmp_constant (x y : List Byte) (n : Nat) : (strncmp (constant x) (constant y) n).run m =
    .ok (strncmpValue (fun i => x.getD i 0) (fun i => y.getD i 0) n 0, m) := by
  rw [run_eq_ok_iff, wp_strncmp (reads_constant x) (reads_constant y), guarded_of fun _ _ _ => ⟨trivial, trivial⟩]
  exact ⟨rfl, rfl⟩

theorem stringOrder_memcmp (x y : NulFreeString n) : stringOrder memcmp m n x y ↔ chars y.val ≤ chars x.val := by
  unfold stringOrder
  rw [← not_lt, ← memcmpValue_pos (x.property.1.trans y.property.1.symm), x.property.1, memcmp_constant]
  simp

theorem stringOrder_strncmp (x y : NulFreeString n) : stringOrder strncmp m n x y ↔ chars x.val ≤ chars y.val := by
  unfold stringOrder
  rw [← not_lt, ← strncmpValue_pos (x.property.1.trans y.property.1.symm) x.property.2, x.property.1,
    strncmp_constant]
  simp

theorem chars_val_injective : Function.Injective fun x : NulFreeString n => chars x.val :=
  fun _ _ h => Subtype.ext (chars_injective h)

theorem memcmp_linear : IsLinearOrder (NulFreeString n) (stringOrder memcmp m n) := by
  have horder : stringOrder memcmp m n = Function.onFun (· ≥ ·) fun x : NulFreeString n => chars x.val := by
    funext x y
    exact propext (stringOrder_memcmp x y)
  rw [horder]
  exact chars_val_injective.isLinearOrder_onFun (r := (· ≥ ·))

theorem strncmp_linear : IsLinearOrder (NulFreeString n) (stringOrder strncmp m n) := by
  have horder : stringOrder strncmp m n = Function.onFun (· ≤ ·) fun x : NulFreeString n => chars x.val := by
    funext x y
    exact propext (stringOrder_strncmp x y)
  rw [horder]
  exact chars_val_injective.isLinearOrder_onFun (r := (· ≤ ·))

/-! ## The contract -/

section Contract

variable {a b s t : Word}

theorem memcmp_run (ha : Mapped m a n) (hb : Mapped m b n) :
    (memcmp (pointer a) (pointer b) n).run m = .ok (memcmpValue (charAt m a) (charAt m b) n 0, m) := by
  rw [run_eq_ok_iff, wp_memcmp (reads_pointer a) (reads_pointer b) fun i hi => ⟨ha i hi, hb i hi⟩]
  exact ⟨rfl, rfl⟩

theorem strncmp_run (h : ∀ i < k, ComesTo (charAt m s) (charAt m t) i →
      (m (s + BitVec.ofNat 64 i)).isSome ∧ (m (t + BitVec.ofNat 64 i)).isSome) :
    (strncmp (pointer s) (pointer t) k).run m = .ok (strncmpValue (charAt m s) (charAt m t) k 0, m) := by
  rw [run_eq_ok_iff, wp_strncmp (reads_pointer s) (reads_pointer t), guarded_of h]
  exact ⟨rfl, rfl⟩

/-- `memcmp` is right where exactly one of the first different bytes is below 128, `strncmp` is right where both or none
are, and they agree on equal strings only. The text of `strncmp` need not be mapped behind its end. -/
theorem comparison_contract_iff (ha : Mapped m a n) (hb : Mapped m b n)
    (hst : ∀ i < k, ComesTo (charAt m s) (charAt m t) i →
      (m (s + BitVec.ofNat 64 i)).isSome ∧ (m (t + BitVec.ofNat 64 i)).isSome) :
    ComparisonContract m a b n s t k ↔
      (∀ i, FirstDifference (charAt m a) (charAt m b) n i → (charAt m a i).msb ≠ (charAt m b i).msb) ∧
      (∀ i, FirstTextDifference (charAt m s) (charAt m t) k i → (charAt m s i).msb = (charAt m t i).msb) ∧
      (NulFree (charAt m a) n → NulFree (charAt m b) n → ∀ i < n, charAt m a i = charAt m b i) := by
  have hmemcmp := memcmp_run ha hb
  have hstrncmp := strncmp_run hst
  have hboth := strncmp_run (k := n) fun i hi _ => ⟨ha i hi, hb i hi⟩
  rw [← comparesBytes_iff, ← comparesTexts_iff]
  constructor
  · intro h
    obtain ⟨r₁, hr₁, hbytes⟩ := h.memcmp
    obtain ⟨r₂, hr₂, htexts⟩ := h.strncmp
    cases hmemcmp.symm.trans hr₁
    cases hstrncmp.symm.trans hr₂
    refine ⟨hbytes, htexts, fun hna hnb => ?_⟩
    obtain ⟨r₃, r₄, hr₃, hr₄, hsign⟩ := h.consistent hna hnb
    cases hmemcmp.symm.trans hr₃
    cases hboth.symm.trans hr₄
    exact (consistent_iff hna).mp hsign
  · rintro ⟨hbytes, htexts, hagree⟩
    refine ⟨⟨_, hmemcmp, hbytes⟩, ⟨_, hstrncmp, htexts⟩, memcmp_linear, strncmp_linear, fun hna hnb => ?_⟩
    exact ⟨_, _, hmemcmp, hboth, (consistent_iff hna).mpr (hagree hna hnb)⟩

end Contract

/-- Two ranges that differ behind a NUL, in 0x80 and 0x01, and the texts "a" and "b". -/
theorem contract_kept_behind_nul :
    ComparisonContract (imageAt 0x1000 [0, 0x80, 0, 0x01, 0x61, 0x62]) 0x1000 0x1002 2 0x1004 0x1005 1 := by
  refine (comparison_contract_iff (by unfold Mapped; decide) (by unfold Mapped; decide) ?_).mpr ⟨?_, ?_, ?_⟩
  · intro i hi _
    interval_cases i
    decide
  · rintro i ⟨hi, -, hne⟩
    interval_cases i
    · exact absurd rfl hne
    · decide
  · rintro i ⟨hi, -, -⟩
    interval_cases i
    decide
  · intro hnul
    exact absurd rfl (hnul 0 (by decide))

/-- "a" comes behind "b" for `memcmp`, and 0x80 before 0x01 for `strncmp`. -/
theorem signs_wrong :
    ((memcmp (pointer 0x1000) (pointer 0x1001) 1).run (imageAt 0x1000 [0x61, 0x62, 0x80, 0x01])).map Prod.fst = .ok 1 ∧
    ((strncmp (pointer 0x1002) (pointer 0x1003) 1).run (imageAt 0x1000 [0x61, 0x62, 0x80, 0x01])).map Prod.fst =
      .ok (-129) ∧
    ¬ ComparisonContract (imageAt 0x1000 [0x61, 0x62, 0x80, 0x01]) 0x1000 0x1001 1 0x1002 0x1003 1 := by
  have hmemcmp : ((memcmp (pointer 0x1000) (pointer 0x1001) 1).run
      (imageAt 0x1000 [0x61, 0x62, 0x80, 0x01])).map Prod.fst = .ok 1 := by decide +kernel
  refine ⟨hmemcmp, by decide +kernel, fun h => ?_⟩
  obtain ⟨result, hrun, hbytes⟩ := h.memcmp
  rw [hrun] at hmemcmp
  obtain rfl : result = 1 := by simpa [Except.map] using hmemcmp
  have hsign := hbytes.sign 0 ⟨by decide, fun j hj => absurd hj (Nat.not_lt_zero j), by decide⟩
  exact absurd hsign (by decide)

end KernelOfTruth.Comparison
