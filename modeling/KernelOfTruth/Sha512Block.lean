import KernelOfTruth.Lib.Update
import KernelOfTruth.Sha512Constants

/-!
# One block of the hash

The code keeps the working variables in place and lets their names move, and extends the schedule sixteen words at a time.
-/

open KernelOfTruth.Lib KernelOfTruth.Code KernelOfTruth.Code.Sha512 KernelOfTruth.Spec.Sha512

namespace KernelOfTruth.Sha512

/-! ## Words and bytes -/

section Bytes

variable {p q : Nat → Byte} {m n k v : Nat} {b : Byte} {bytes : List Byte} {w : Word}

@[simp] theorem bytesFrom_length : (bytesFrom p n).length = n := by rw [bytesFrom, List.length_map, List.length_range]

theorem bytesFrom_add (m n : Nat) : bytesFrom p (m + n) = bytesFrom p m ++ bytesFrom (fun i => p (m + i)) n := by
  rw [bytesFrom, List.range_add, List.map_append, List.map_map]
  rfl

theorem bytesFrom_congr (h : ∀ i < n, p i = q i) : bytesFrom p n = bytesFrom q n :=
  List.map_congr_left fun i hi => h i (List.mem_range.mp hi)

theorem bigEndianValue_foldl : bytes.foldl (fun v b => 256 * v + b.toNat) v = 256 ^ bytes.length * v + bigEndianValue bytes := by
  unfold bigEndianValue
  induction bytes generalizing v with
  | nil => simp
  | cons b bytes ih =>
    rw [List.foldl_cons, List.foldl_cons, ih, ih (v := 256 * 0 + b.toNat), List.length_cons, pow_succ]
    ring

theorem bigEndianValue_cons : bigEndianValue (b :: bytes) = 256 ^ bytes.length * b.toNat + bigEndianValue bytes := by
  rw [bigEndianValue, List.foldl_cons, bigEndianValue_foldl, Nat.mul_zero, Nat.zero_add]

theorem bigEndianValue_lt : bigEndianValue bytes < 256 ^ bytes.length := by
  induction bytes with
  | nil => decide
  | cons b bytes ih =>
    have hb : b.toNat + 1 ≤ 256 := b.isLt
    calc bigEndianValue (b :: bytes) < 256 ^ bytes.length * b.toNat + 256 ^ bytes.length := by
          rw [bigEndianValue_cons]
          exact Nat.add_lt_add_left ih _
      _ = 256 ^ bytes.length * (b.toNat + 1) := (Nat.mul_succ ..).symm
      _ ≤ 256 ^ bytes.length * 256 := Nat.mul_le_mul_left _ hb

/-- One more byte in front of those that a word holds. -/
theorem or_shiftLeft (b : Byte) (bytes : List Byte) (hlength : bytes.length < 8) (hw : w.toNat = bigEndianValue bytes) :
    (w ||| b.setWidth 64 <<< (8 * bytes.length)).toNat = bigEndianValue (b :: bytes) := by
  have hfits : bigEndianValue (b :: bytes) < 2 ^ 64 := bigEndianValue_lt.trans_le <| calc
    256 ^ (b :: bytes).length ≤ 256 ^ 8 := Nat.pow_le_pow_right (by decide) hlength
    _ = 2 ^ 64 := by norm_num
  have hpow : 2 ^ (8 * bytes.length) = 256 ^ bytes.length := pow_mul 2 8 bytes.length
  have hlow : w.toNat < 2 ^ (8 * bytes.length) := by
    rw [hw, hpow]
    exact bigEndianValue_lt
  have hshift : (b.setWidth 64 <<< (8 * bytes.length)).toNat = 2 ^ (8 * bytes.length) * b.toNat := by
    rw [bigEndianValue_cons, ← hpow] at hfits
    rw [BitVec.toNat_shiftLeft, BitVec.toNat_setWidth_of_le (by decide), Nat.shiftLeft_eq, Nat.mul_comm]
    exact Nat.mod_eq_of_lt (by omega)
  rw [BitVec.toNat_or, hshift, Nat.or_comm, ← Nat.two_pow_add_eq_or_of_lt hlow, bigEndianValue_cons, hpow, hw]

theorem load64_be_toNat : (load64_be p).toNat = bigEndianValue (bytesFrom p 8) := by
  have h7 : ((p 7).setWidth 64 : Word).toNat = bigEndianValue [p 7] := by
    rw [BitVec.toNat_setWidth_of_le (by decide)]
    exact (Nat.zero_add _).symm
  have h6 := or_shiftLeft (p 6) [p 7] (by simp) h7
  have h5 := or_shiftLeft (p 5) [p 6, p 7] (by simp) h6
  have h4 := or_shiftLeft (p 4) [p 5, p 6, p 7] (by simp) h5
  have h3 := or_shiftLeft (p 3) [p 4, p 5, p 6, p 7] (by simp) h4
  have h2 := or_shiftLeft (p 2) [p 3, p 4, p 5, p 6, p 7] (by simp) h3
  have h1 := or_shiftLeft (p 1) [p 2, p 3, p 4, p 5, p 6, p 7] (by simp) h2
  exact or_shiftLeft (p 0) [p 1, p 2, p 3, p 4, p 5, p 6, p 7] (by simp) h1

theorem blockWord_bytesFrom {t : Nat} (ht : t < 16) : blockWord (bytesFrom p 128) t = load64_be fun k => p (t * 8 + k) := by
  have hsplit : bytesFrom p 128 = bytesFrom p (8 * t) ++ (bytesFrom (fun k => p (8 * t + k)) 8 ++
      bytesFrom (fun k => p (8 * t + (8 + k))) (120 - 8 * t)) := by
    rw [← bytesFrom_add (p := fun k => p (8 * t + k)), ← bytesFrom_add]
    congr 1
    omega
  apply BitVec.eq_of_toNat_eq
  rw [load64_be_toNat, blockWord, hsplit, List.drop_left' bytesFrom_length, List.take_left' bytesFrom_length, BitVec.toNat_ofNat,
    Nat.mul_comm]
  exact Nat.mod_eq_of_lt (bigEndianValue_lt.trans_le (by rw [bytesFrom_length]; norm_num))

theorem be64dec_vect_lt {W : Nat → Word} {t : Nat} (ht : t < 16) : be64dec_vect W p 128 t = blockWord (bytesFrom p 128) t := by
  have hfill := congrFun (foldl_update_range (f := fun i => load64_be fun k => p (i * 8 + k)) (g := W) (o := 0) 16) t
  simp only [Nat.zero_add] at hfill
  rw [blockWord_bytesFrom ht]
  exact hfill.trans (if_pos ⟨t.zero_le, ht⟩)

theorem bigEndian_length : (bigEndian n v).length = n := by rw [bigEndian, List.length_map, List.length_range]

theorem bigEndian_add (m n v : Nat) : bigEndian (m + n) v = bigEndian m (v / 256 ^ n) ++ bigEndian n v := by
  unfold bigEndian
  rw [List.range_add, List.map_append, List.map_map]
  congr 1
  · apply List.map_congr_left
    intro i hi
    have hi := List.mem_range.mp hi
    rw [Nat.div_div_eq_div_mul, ← pow_add, show n + (m - 1 - i) = m + n - 1 - i by omega]
  · apply List.map_congr_left
    intro i _
    rw [Function.comp_apply, show m + n - 1 - (m + i) = n - 1 - i by omega]

theorem bigEndian_succ : bigEndian (n + 1) v = bigEndian n (v / 256) ++ [BitVec.ofNat 8 v] := by
  rw [bigEndian_add, pow_one]
  simp [bigEndian]

/-- The higher bytes of the number are cut off. -/
theorem bigEndian_mod : bigEndian n (v % 256 ^ n) = bigEndian n v := by
  apply List.map_congr_left
  intro i hi
  have hi := List.mem_range.mp hi
  apply BitVec.eq_of_toNat_eq
  have hpow : 256 ^ n = 256 ^ (n - 1 - i) * 256 ^ (1 + i) := by rw [← pow_add]; congr 1; omega
  rw [BitVec.toNat_ofNat, BitVec.toNat_ofNat, hpow, Nat.mod_mul_right_div_self, pow_add, pow_one]
  exact Nat.mod_mul_right_mod ..

end Bytes

section Store

variable {dst : Nat → Byte} {o n k : Nat} {w : Word} {src : Nat → Word}

theorem storeLoop_of_not (h : ¬(o ≤ k ∧ k < o + n)) : storeLoop o n w dst k = dst k := by
  induction n generalizing w dst with
  | zero => rfl
  | succ n ih => rw [storeLoop, ih (by omega), Function.update_of_ne (by omega)]

theorem storeLoop_bytes : bytesFrom (fun i => storeLoop o n w dst (o + i)) n = bigEndian n w.toNat := by
  induction n generalizing w dst with
  | zero => rfl
  | succ n ih =>
    have hlast : storeLoop o (n + 1) w dst (o + n) = BitVec.ofNat 8 w.toNat := by
      rw [storeLoop, storeLoop_of_not (by omega), Function.update_self]
      exact BitVec.eq_of_toNat_eq (by rw [BitVec.toNat_setWidth, BitVec.toNat_ofNat])
    have hshift : (w >>> 8).toNat = w.toNat / 256 := by
      rw [BitVec.toNat_ushiftRight, Nat.shiftRight_eq_div_pow]
    rw [bytesFrom_add, bigEndian_succ, ← hshift]
    exact congrArg₂ (· ++ ·) ih (congrArg (fun b => [b]) hlast)

/-- The words before `n` are stored. -/
def encoded (dst : Nat → Byte) (o : Nat) (src : Nat → Word) (n : Nat) : Nat → Byte :=
  (List.range n).foldl (fun dst i => store64_be dst (o + i * 8) (src i)) dst

theorem encoded_succ : encoded dst o src (n + 1) = store64_be (encoded dst o src n) (o + n * 8) (src n) := by
  rw [encoded, List.range_succ, List.foldl_append]
  rfl

theorem encoded_of_not (h : ¬(o ≤ k ∧ k < o + n * 8)) : encoded dst o src n k = dst k := by
  induction n with
  | zero => rfl
  | succ n ih => rw [encoded_succ, store64_be, storeLoop_of_not (by omega), ih (by omega)]

theorem encoded_bytes (dst : Nat → Byte) (o : Nat) (src : Nat → Word) (n : Nat) :
    bytesFrom (fun i => encoded dst o src n (o + i)) (n * 8) = (List.range n).flatMap fun i => bigEndian 8 (src i).toNat := by
  induction n with
  | zero => rfl
  | succ n ih =>
    have hbefore (i : Nat) (hi : i < n * 8) : encoded dst o src (n + 1) (o + i) = encoded dst o src n (o + i) := by
      rw [encoded_succ, store64_be, storeLoop_of_not (by omega)]
    have hword : bytesFrom (fun i => encoded dst o src (n + 1) (o + (n * 8 + i))) 8 = bigEndian 8 (src n).toNat := by
      simp only [encoded_succ, ← Nat.add_assoc]
      exact storeLoop_bytes
    rw [Nat.succ_mul, bytesFrom_add, bytesFrom_congr hbefore, ih, hword, List.range_succ, List.flatMap_append]
    rfl

end Store

/-! ## One block -/

section Block

variable {x y z : Word} {S hash : Fin 8 → Word} {W : Nat → Word} {block : List Byte} {i j t : Nat}

theorem rotr64_eq (h : n < 64) : rotr64 x n = x.rotateRight n := by
  rw [rotr64, BitVec.rotateRight_def, Nat.mod_eq_of_lt h]

theorem Ch_eq : Ch x y z = choose x y z := by
  apply BitVec.eq_of_getLsbD_eq
  intro i hi
  simp only [Ch, choose, BitVec.getLsbD_xor, BitVec.getLsbD_and, BitVec.getLsbD_not, hi]
  cases x.getLsbD i <;> cases y.getLsbD i <;> cases z.getLsbD i <;> rfl

theorem Maj_eq : Maj x y z = majority x y z := by
  apply BitVec.eq_of_getLsbD_eq
  intro i hi
  simp only [Maj, majority, BitVec.getLsbD_xor, BitVec.getLsbD_and, BitVec.getLsbD_or]
  cases x.getLsbD i <;> cases y.getLsbD i <;> cases z.getLsbD i <;> rfl

theorem S0_eq : S0 x = bigSigma0 x := by
  rw [S0, rotr64_eq (by decide), rotr64_eq (by decide), rotr64_eq (by decide)]
  rfl

theorem S1_eq : S1 x = bigSigma1 x := by
  rw [S1, rotr64_eq (by decide), rotr64_eq (by decide), rotr64_eq (by decide)]
  rfl

theorem s0_eq : s0 x = smallSigma0 x := by
  rw [s0, rotr64_eq (by decide), rotr64_eq (by decide)]
  rfl

theorem s1_eq : s1 x = smallSigma1 x := by
  rw [s1, rotr64_eq (by decide), rotr64_eq (by decide)]
  rfl

/-- The working variables, as the macro of round `i` names the places of `S`. -/
def view (S : Fin 8 → Word) (i : Nat) : Working :=
  ⟨S (place (80 - i)), S (place (81 - i)), S (place (82 - i)), S (place (83 - i)),
    S (place (84 - i)), S (place (85 - i)), S (place (86 - i)), S (place (87 - i))⟩

section Round

variable {a b c d e f g h : Fin 8} {k : Word}

theorem RND_h (hdh : d ≠ h) (hah : a ≠ h) (hbh : b ≠ h) (hch : c ≠ h) (had : a ≠ d) (hbd : b ≠ d) (hcd : c ≠ d) :
    RND S a b c d e f g h k h = S h + (S1 (S e) + Ch (S e) (S f) (S g) + k) + (S0 (S a) + Maj (S a) (S b) (S c)) := by
  simp only [RND, Function.update_self, Function.update_of_ne hdh.symm, Function.update_of_ne hah, Function.update_of_ne hbh,
    Function.update_of_ne hch, Function.update_of_ne had, Function.update_of_ne hbd, Function.update_of_ne hcd]

theorem RND_d (hdh : d ≠ h) : RND S a b c d e f g h k d = S d + (S h + (S1 (S e) + Ch (S e) (S f) (S g) + k)) := by
  simp only [RND, Function.update_self, Function.update_of_ne hdh]

theorem RND_of_ne {r : Fin 8} (hrd : r ≠ d) (hrh : r ≠ h) : RND S a b c d e f g h k r = S r := by
  simp only [RND, Function.update_of_ne hrd, Function.update_of_ne hrh]

end Round

theorem place_ne {m n : Nat} (hi : i < 16) (hm : 80 ≤ m) (hmn : m < n) (hn : n < 88) :
    place (m - i) ≠ place (n - i) := by
  intro h
  have hval : (m - i) % 8 = (n - i) % 8 := congrArg Fin.val h
  omega

theorem view_RNDr (hi : i < 16) : view (RNDr S W i j) (i + 1) = (view S i).round (Krnd.getD (i + j) 0) (W (i + j)) := by
  have hadd (h s c w k : Word) : h + (s + c + (w + k)) = h + s + c + k + w := by ac_rfl
  have hwrap : place (79 - i) = place (87 - i) := Fin.ext (show (79 - i) % 8 = (87 - i) % 8 by omega)
  have hdh := place_ne hi (m := 83) (n := 87) (by decide) (by decide) (by decide)
  have hkeep (m : Nat) (hm : 80 ≤ m) (hmn : m < 87) (hne : m ≠ 83) :
      RNDr S W i j (place (m - i)) = S (place (m - i)) := by
    apply RND_of_ne
    · rcases lt_or_gt_of_ne hne with h | h
      · exact place_ne hi hm h (by decide)
      · exact (place_ne hi (by decide) h (by omega)).symm
    · exact place_ne hi hm hmn (by decide)
  have hd : RNDr S W i j (place (83 - i)) = S (place (83 - i)) + (S (place (87 - i)) +
      bigSigma1 (S (place (84 - i))) + choose (S (place (84 - i))) (S (place (85 - i))) (S (place (86 - i))) +
      Krnd.getD (i + j) 0 + W (i + j)) := by
    rw [RNDr, RND_d hdh, hadd, S1_eq, Ch_eq]
  have hh : RNDr S W i j (place (87 - i)) = S (place (87 - i)) +
      bigSigma1 (S (place (84 - i))) + choose (S (place (84 - i))) (S (place (85 - i))) (S (place (86 - i))) +
      Krnd.getD (i + j) 0 + W (i + j) + (bigSigma0 (S (place (80 - i))) +
      majority (S (place (80 - i))) (S (place (81 - i))) (S (place (82 - i)))) := by
    rw [RNDr, RND_h hdh, hadd, S1_eq, Ch_eq, S0_eq, Maj_eq]
    all_goals exact place_ne hi (by decide) (by decide) (by decide)
  simp only [view, Working.round, Nat.reduceSubDiff, hwrap, hd, hh]
  rw [hkeep 80 (by decide) (by decide) (by decide), hkeep 81 (by decide) (by decide) (by decide),
    hkeep 82 (by decide) (by decide) (by decide), hkeep 84 (by decide) (by decide) (by decide),
    hkeep 85 (by decide) (by decide) (by decide), hkeep 86 (by decide) (by decide) (by decide)]

/-- Sixteen rounds, in which the places come back to where they were. -/
theorem view_rounds {ii : Nat} (hstart : view S 0 = working hash block ii) (hW : ∀ t < ii + 16, W t = schedule block t)
    (hii : ii + 16 ≤ 80) : view ((List.range 16).foldl (fun S j => RNDr S W j ii) S) 0 = working hash block (ii + 16) := by
  have hround (n : Nat) (hn : n ≤ 16) :
      view ((List.range n).foldl (fun S j => RNDr S W j ii) S) n = working hash block (ii + n) := by
    induction n with
    | zero => exact hstart
    | succ n ih =>
      rw [List.range_succ, List.foldl_append, List.foldl_cons, List.foldl_nil, view_RNDr (by omega), ih (by omega),
        hW _ (by omega), Krnd_eq (by omega), Nat.add_comm n ii]
      rfl
  exact hround 16 le_rfl

theorem schedule_ge (t : Nat) : schedule block (t + 16) =
    smallSigma1 (schedule block (t + 14)) + schedule block (t + 9) + smallSigma0 (schedule block (t + 1)) + schedule block t := by
  rw [schedule, if_neg (by omega)]
  rfl

theorem schedule_rounds {ii : Nat} (hW : ∀ t < ii + 16, W t = schedule block t) :
    ∀ t < ii + 32, (List.range 16).foldl (fun W j => MSCH W j ii) W t = schedule block t := by
  have hround (n : Nat) (hn : n ≤ 16) :
      ∀ t < ii + 16 + n, (List.range n).foldl (fun W j => MSCH W j ii) W t = schedule block t := by
    induction n with
    | zero => exact hW
    | succ n ih =>
      intro t ht
      have ih := ih (by omega)
      rw [List.range_succ, List.foldl_append, List.foldl_cons, List.foldl_nil, MSCH]
      by_cases hlast : t = ii + n + 16
      · rw [hlast, Function.update_self, s1_eq, s0_eq, ih _ (by omega), ih _ (by omega), ih _ (by omega), ih _ (by omega),
          schedule_ge]
      · rw [Function.update_of_ne hlast, ih t (by omega)]
  exact hround 16 le_rfl

theorem view_transformLoop {n ii : Nat} (hn : ii + 16 * n = 80) (hstart : view S 0 = working hash block ii)
    (hW : ∀ t < ii + 16, W t = schedule block t) : view (transformLoop n ii S W).1 0 = working hash block 80 := by
  induction n generalizing ii S W with
  | zero => rw [transformLoop, hstart, show ii = 80 by omega]
  | succ n ih =>
    have hrounds := view_rounds hstart hW (by omega)
    rw [transformLoop]
    by_cases hlast : ii = 64
    · rw [if_pos hlast, hrounds, hlast]
    · rw [if_neg hlast]
      exact ih (by omega) hrounds (schedule_rounds hW)

theorem SHA512_Transform_fst {p : Nat → Byte} : (SHA512_Transform hash p W).1 = compress hash (bytesFrom p 128) := by
  have hview : view (transformLoop 5 0 hash (be64dec_vect W p 128)).1 0 = working hash (bytesFrom p 128) 80 :=
    view_transformLoop rfl rfl fun t ht => by rw [be64dec_vect_lt ht, schedule, if_pos ht]
  have hplaces : (transformLoop 5 0 hash (be64dec_vect W p 128)).1 = ![(working hash (bytesFrom p 128) 80).a,
      (working hash (bytesFrom p 128) 80).b, (working hash (bytesFrom p 128) 80).c, (working hash (bytesFrom p 128) 80).d,
      (working hash (bytesFrom p 128) 80).e, (working hash (bytesFrom p 128) 80).f, (working hash (bytesFrom p 128) 80).g,
      (working hash (bytesFrom p 128) 80).h] := by
    rw [← hview]
    funext i
    fin_cases i <;> rfl
  funext i
  show hash i + (transformLoop 5 0 hash (be64dec_vect W p 128)).1 i = _
  rw [hplaces, compress]

end Block

end KernelOfTruth.Sha512
