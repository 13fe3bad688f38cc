import KernelOfTruth.Lib.Scan
import KernelOfTruth.Lib.Update
import KernelOfTruth.Rules
import KernelOfTruth.Spec.Strings

/-!
# Loads, stores and comparisons of texts

Each function has one rule that is exact: it says which bytes the function needs, and what it returns when all of
them are mapped.
-/

open KernelOfTruth.Lib KernelOfTruth.Code KernelOfTruth.Spec

namespace KernelOfTruth.Strings

variable {m : Memory} {E : Halt → Prop}

/-! ## Loads -/

theorem wp_loadByte {a : Word} {Q : Byte → Memory → Prop} :
    wp (Memory.loadByte a) Q E m ↔ Guarded (m a).isSome (Q (byteAt m a) m) (E .page_fault) := by
  unfold Memory.loadByte byteAt
  rw [wp_bind, wp_get]
  cases m a with
  | none => simp [Guarded]
  | some b => simp [Guarded]

theorem mapped_zero {a : Word} : Mapped m a 0 := fun _ h => absurd h (Nat.not_lt_zero _)

theorem next_address (a : Word) (i : Nat) : a + 1 + BitVec.ofNat 64 i = a + BitVec.ofNat 64 (i + 1) := by
  rw [BitVec.ofNat_add, BitVec.add_assoc, BitVec.add_comm 1]
  rfl

theorem mapped_succ {a : Word} {n : Nat} : Mapped m a (n + 1) ↔ (m a).isSome ∧ Mapped m (a + 1) n := by
  unfold Mapped
  constructor
  · intro h
    refine ⟨by simpa using h 0 (Nat.succ_pos n), fun i hi => ?_⟩
    rw [next_address]
    exact h (i + 1) (by omega)
  · rintro ⟨hfirst, hrest⟩ i hi
    cases i with
    | zero => simpa using hfirst
    | succ i =>
      rw [← next_address]
      exact hrest i (by omega)

theorem mapped_part {a : Word} {n k l : Nat} (h : Mapped m a l) (hfit : k + n ≤ l) : Mapped m (a + BitVec.ofNat 64 k) n := by
  intro i hi
  rw [BitVec.add_assoc, ← BitVec.ofNat_add]
  exact h (k + i) (by omega)

theorem wp_load {n : Nat} {a : Word} {Q : Word → Memory → Prop} :
    wp (Memory.load n a) Q E m ↔ Guarded (Mapped m a n) (Q (wordAt m n a) m) (E .page_fault) := by
  induction n generalizing a Q with
  | zero => simp [Memory.load, guarded_of mapped_zero, wordAt]
  | succ n ih =>
    unfold Memory.load wordAt
    simp only [wp_bind, wp_loadByte, ih, wp_pure, guarded_guarded, ← mapped_succ]

theorem bytesAt_succ (m : Memory) (n : Nat) (a : Word) : bytesAt m (n + 1) a = byteAt m a :: bytesAt m n (a + 1) := by
  unfold bytesAt
  rw [List.range_succ_eq_map, List.map_cons, List.map_map]
  congr 1
  · simp [charAt]
  · refine List.map_congr_left fun i _ => ?_
    unfold charAt
    rw [next_address]
    rfl

theorem wp_loadBytes {n : Nat} {a : Word} {Q : List Byte → Memory → Prop} :
    wp (Memory.loadBytes n a) Q E m ↔ Guarded (Mapped m a n) (Q (bytesAt m n a) m) (E .page_fault) := by
  induction n generalizing a Q with
  | zero => simp [Memory.loadBytes, guarded_of mapped_zero, bytesAt]
  | succ n ih =>
    unfold Memory.loadBytes
    simp only [wp_bind, wp_loadByte, ih, wp_pure, guarded_guarded, ← mapped_succ, bytesAt_succ]

/-! ## Stores -/

theorem offset_sub (a x : Word) : a + x - a = x := by rw [BitVec.add_comm, BitVec.add_sub_cancel]

theorem offset_toNat {a : Word} {i : Nat} (hi : i < 2 ^ 64) : (a + BitVec.ofNat 64 i - a).toNat = i := by
  rw [offset_sub, BitVec.toNat_ofNat, Nat.mod_eq_of_lt hi]

theorem covers_iff {a x : Word} {n : Nat} (hn : n ≤ 2 ^ 64) : Covers a n x ↔ ∃ i < n, x = a + BitVec.ofNat 64 i := by
  unfold Covers
  constructor
  · intro h
    exact ⟨_, h, by rw [BitVec.ofNat_toNat, BitVec.setWidth_eq, BitVec.add_comm, BitVec.sub_add_cancel]⟩
  · rintro ⟨i, hi, rfl⟩
    rw [offset_toNat (by omega)]
    exact hi

theorem covers_mono {a x : Word} {n k : Nat} (h : Covers a n x) (hle : n ≤ k) : Covers a k x := Nat.lt_of_lt_of_le h hle

/-- The part `k` bytes into a range, of a length that fits, is in the range. -/
theorem covers_part {a x : Word} {k n l : Nat} (hfit : k + n ≤ l) (hl : l ≤ 2 ^ 64) (h : Covers (a + BitVec.ofNat 64 k) n x) :
    Covers a l x := by
  obtain ⟨i, hi, rfl⟩ := (covers_iff (by omega)).mp h
  refine (covers_iff hl).mpr ⟨k + i, by omega, ?_⟩
  rw [BitVec.ofNat_add, BitVec.add_assoc]

theorem mapped_congr {m' : Memory} {a : Word} {n : Nat} (hn : n ≤ 2 ^ 64) (h : ∀ x, Covers a n x → m' x = m x) :
    Mapped m' a n ↔ Mapped m a n := by
  unfold Mapped
  refine forall₂_congr fun i hi => ?_
  rw [h _ ((covers_iff hn).mpr ⟨i, hi, rfl⟩)]

theorem not_covers_next {x : Word} {n : Nat} (hn : n < 2 ^ 64) : ¬ Covers (x + 1) n x := by
  unfold Covers
  have hlast : (x - (x + 1)).toNat = 2 ^ 64 - 1 := by bv_omega
  omega

theorem stored_zero (m : Memory) (a v : Word) : stored m 0 a v = m := by
  funext x
  exact if_neg (Nat.not_lt_zero _)

theorem stored_succ {a v : Word} {n : Nat} (hn : n < 2 ^ 64) :
    stored (Function.update m a (some (v.setWidth 8))) n (a + 1) (v >>> 8) = stored m (n + 1) a v := by
  funext x
  unfold stored
  by_cases hx : x = a
  · subst hx
    have hfar : ¬ (x - (x + 1)).toNat < n := not_covers_next hn
    rw [if_neg hfar, Function.update_self, if_pos (by simp)]
    simp
  · have hnext : (x - (a + 1)).toNat = (x - a).toNat - 1 := by bv_omega
    have hpos : 0 < (x - a).toNat := by bv_omega
    rw [hnext, Function.update_of_ne hx]
    by_cases hlt : (x - a).toNat < n + 1
    · rw [if_pos (by omega), if_pos hlt]
      congr 2
      rw [← BitVec.shiftRight_add]
      congr 1
      omega
    · rw [if_neg (by omega), if_neg hlt]

theorem mapped_update {a : Word} {b : Byte} {n : Nat} (hn : n < 2 ^ 64) :
    Mapped (Function.update m a (some b)) (a + 1) n ↔ Mapped m (a + 1) n := by
  refine mapped_congr hn.le fun x hx => Function.update_of_ne ?_ _ _
  rintro rfl
  exact not_covers_next hn hx

theorem wp_storeByte {a : Word} {b : Byte} {Q : Unit → Memory → Prop} :
    wp (Memory.storeByte a b) Q E m ↔
      Guarded (m a).isSome (Q () (Function.update m a (some b))) (E .page_fault) := by
  unfold Memory.storeByte
  rw [wp_bind, wp_get]
  cases m a with
  | none => simp [Guarded]
  | some _ => simp [Guarded]

theorem wp_store {n : Nat} {a v : Word} {Q : Unit → Memory → Prop} (hn : n < 2 ^ 64) :
    wp (Memory.store n a v) Q E m ↔ Guarded (Mapped m a n) (Q () (stored m n a v)) (E .page_fault) := by
  induction n generalizing m a v with
  | zero =>
    rw [guarded_of mapped_zero, stored_zero]
    exact wp_pure ..
  | succ n ih =>
    unfold Memory.store
    rw [mapped_succ, wp_bind, wp_storeByte]
    by_cases ha : (m a).isSome
    · rw [guarded_of ha, ih (by omega), mapped_update (by omega), stored_succ (by omega)]
      simp [ha]
    · simp [Guarded, ha]

theorem stored_of_not_covers {a v x : Word} {n : Nat} (h : ¬ Covers a n x) : stored m n a v x = m x := if_neg h

theorem isSome_stored {a v x : Word} {n : Nat} (h : (m x).isSome) : (stored m n a v x).isSome := by
  unfold stored
  split
  · rfl
  · exact h

theorem mapped_stored {a b v : Word} {n k : Nat} (h : Mapped m a n) : Mapped (stored m k b v) a n :=
  fun i hi => isSome_stored (h i hi)

theorem wordAt_congr {m' : Memory} {a : Word} {n : Nat} (hn : n ≤ 2 ^ 64) (h : ∀ x, Covers a n x → m' x = m x) :
    wordAt m' n a = wordAt m n a := by
  induction n generalizing a with
  | zero => rfl
  | succ n ih =>
    unfold wordAt byteAt
    rw [h a ((covers_iff hn).mpr ⟨0, by omega, by simp⟩), ih (by omega) fun x hx => h x ?_]
    obtain ⟨i, hi, rfl⟩ := (covers_iff (by omega)).mp hx
    exact (covers_iff hn).mpr ⟨i + 1, by omega, next_address a i⟩

/-- The same bytes in two places are the same integer. -/
theorem wordAt_moved {m' : Memory} {a b : Word} {n : Nat}
    (h : ∀ i < n, m' (a + BitVec.ofNat 64 i) = m (b + BitVec.ofNat 64 i)) : wordAt m' n a = wordAt m n b := by
  induction n generalizing a b with
  | zero => rfl
  | succ n ih =>
    have hfirst : m' a = m b := by simpa using h 0 (Nat.succ_pos n)
    have hrest : wordAt m' n (a + 1) = wordAt m n (b + 1) := ih fun i hi => by
      rw [next_address, next_address]
      exact h (i + 1) (by omega)
    unfold wordAt byteAt
    rw [hfirst, hrest]

theorem wordAt_zero {a : Word} {n : Nat} (hn : n ≤ 2 ^ 64) (h : ∀ x, Covers a n x → m x = some 0) : wordAt m n a = 0 := by
  induction n generalizing a with
  | zero => rfl
  | succ n ih =>
    have hfirst : m a = some 0 := h a ((covers_iff hn).mpr ⟨0, by omega, by simp⟩)
    have hrest : wordAt m n (a + 1) = 0 := by
      refine ih (by omega) fun x hx => h x ?_
      obtain ⟨i, hi, rfl⟩ := (covers_iff (by omega)).mp hx
      exact (covers_iff hn).mpr ⟨i + 1, by omega, next_address a i⟩
    unfold wordAt byteAt
    rw [hfirst, hrest]
    rfl

/-- Bit number `k` of an integer in memory. -/
theorem getLsbD_wordAt {a : Word} {n k : Nat} (hn : n ≤ 8) : (wordAt m n a).getLsbD k =
    (decide (k < 8 * n) && (charAt m a (k / 8)).getLsbD (k % 8)) := by
  induction n generalizing a k with
  | zero => simp [wordAt]
  | succ n ih =>
    unfold wordAt
    rw [BitVec.getLsbD_or, BitVec.getLsbD_setWidth, BitVec.getLsbD_shiftLeft]
    by_cases hk : k < 8
    · have hdiv : k / 8 = 0 := by omega
      have hmod : k % 8 = k := by omega
      have h64 : k < 64 := by omega
      have hn8 : k < 8 * (n + 1) := by omega
      simp [hk, hdiv, hmod, h64, hn8, charAt]
    · rw [ih (by omega)]
      have hhigh : (byteAt m a).getLsbD k = false := BitVec.getLsbD_of_ge _ _ (by omega)
      have hdiv : (k - 8) / 8 = k / 8 - 1 := by omega
      have hmod : (k - 8) % 8 = k % 8 := by omega
      have hchar : charAt m (a + 1) (k / 8 - 1) = charAt m a (k / 8) := by
        unfold charAt
        rw [next_address, show k / 8 - 1 + 1 = k / 8 by omega]
      rw [hhigh, hdiv, hmod, hchar]
      by_cases hlt : k < 8 * (n + 1)
      · have h1 : k - 8 < 8 * n := by omega
        have h2 : k < 64 := by omega
        simp [hk, hlt, h1, h2]
      · have h1 : ¬ k - 8 < 8 * n := by omega
        simp [hlt, h1]

theorem wordAt_stored (m : Memory) (a v : Word) : wordAt (stored m 8 a v) 8 a = v := by
  apply BitVec.eq_of_getLsbD_eq
  intro k hk
  have hbyte : charAt (stored m 8 a v) a (k / 8) = (v >>> (8 * (k / 8))).setWidth 8 := by
    unfold charAt byteAt stored
    rw [offset_toNat (by omega), if_pos (by omega)]
    rfl
  rw [getLsbD_wordAt le_rfl, hbyte, BitVec.getLsbD_setWidth, BitVec.getLsbD_ushiftRight]
  have h1 : k < 8 * 8 := by omega
  have h2 : k % 8 < 8 := by omega
  have h3 : 8 * (k / 8) + k % 8 = k := by omega
  simp [h1, h2, h3]

/-! ## Slots of an array -/

theorem pointerSlot_eq (array : Word) (i : Nat) : pointerSlot array i = array + BitVec.ofNat 64 (8 * i) := by
  rw [pointerSlot, BitVec.ofNat_mul]
  rfl

section Slots

variable {array : Word} {n i j : Nat}

theorem slot_covers (hi : i < n) (hn : 8 * n ≤ 2 ^ 64) {x : Word} (hx : Covers (pointerSlot array i) 8 x) :
    Covers array (8 * n) x := by
  rw [pointerSlot_eq] at hx
  exact covers_part (by omega) hn hx

theorem slot_mapped {m : Memory} (hi : i < n) (h : Mapped m array (8 * n)) : Mapped m (pointerSlot array i) 8 := by
  rw [pointerSlot_eq]
  exact mapped_part h (by omega)

theorem slots_apart (hi : i < n) (hj : j < n) (hn : 8 * n ≤ 2 ^ 64) (hne : i ≠ j) {x : Word}
    (hx : Covers (pointerSlot array i) 8 x) : ¬ Covers (pointerSlot array j) 8 x := by
  rw [pointerSlot_eq] at hx ⊢
  unfold Covers at hx ⊢
  have hxlt := x.isLt
  have halt := array.isLt
  rw [BitVec.toNat_sub, BitVec.toNat_add, BitVec.toNat_ofNat] at hx ⊢
  omega

end Slots

/-! ## Many stores -/

section Stores

variable {target value : Nat → Word}

theorem storedAll_of_not_covers {n : Nat} {x : Word} (h : ∀ i < n, ¬ Covers (target i) 8 x) :
    storedAll m target value n x = m x := by
  induction n with
  | zero => rfl
  | succ n ih =>
    unfold storedAll
    rw [stored_of_not_covers (h n (Nat.lt_succ_self n)), ih fun i hi => h i (by omega)]

/-- Stores to places apart from each other are all there at the end. -/
theorem wordAt_storedAll {n i : Nat} (hi : i < n)
    (hapart : ∀ j < n, j ≠ i → ∀ x, Covers (target i) 8 x → ¬ Covers (target j) 8 x) :
    wordAt (storedAll m target value n) 8 (target i) = value i := by
  induction n with
  | zero => omega
  | succ n ih =>
    unfold storedAll
    rcases Nat.eq_or_lt_of_le (Nat.le_of_lt_succ hi) with rfl | hlt
    · exact wordAt_stored ..
    · rw [wordAt_congr (by decide) fun x hx => stored_of_not_covers (hapart n (Nat.lt_succ_self n) (by omega) x hx)]
      exact ih hlt fun j hj => hapart j (by omega)

end Stores

theorem filled_zero (mem : Word → Option Byte) (a : Word) (b : Byte) : filled mem a 0 b = mem := by
  funext x
  simp [filled]

theorem filled_succ {mem : Word → Option Byte} {a : Word} {n : Nat} {b : Byte} :
    filled (Function.update mem a (some b)) (a + 1) n b = filled mem a (n + 1) b := by
  have hplaces : ∀ x, (x - a).toNat < n + 1 ↔ (x - (a + 1)).toNat < n ∨ x = a := by
    intro x
    bv_omega
  exact ite_update hplaces

theorem mapped_filled {a : Word} {n : Nat} {b : Byte} {c : Word} {k : Nat} (h : Mapped m c k) :
    Mapped (filled m a n b) c k := by
  intro i hi
  unfold filled
  split
  · rfl
  · exact h i hi

theorem filled_of_not_covers {a x : Word} {n : Nat} {b : Byte} (h : ¬ Covers a n x) : filled m a n b x = m x := if_neg h

theorem wp_memset {n : Nat} {a : Word} {b : Byte} {Q : Unit → Memory → Prop} (hn : n < 2 ^ 64) :
    wp (Memory.memset n a b) Q E m ↔ Guarded (Mapped m a n) (Q () (filled m a n b)) (E .page_fault) := by
  induction n generalizing m a with
  | zero =>
    rw [guarded_of mapped_zero, filled_zero]
    exact wp_pure ..
  | succ n ih =>
    unfold Memory.memset
    rw [mapped_succ, wp_bind, wp_storeByte]
    by_cases ha : (m a).isSome
    · rw [guarded_of ha, ih (by omega), mapped_update (by omega), filled_succ]
      simp [ha]
    · simp [Guarded, ha]

/-! ## Texts -/

/-- Character number `i` of the text is `f i`, and reading it needs `ok i`. -/
def Reads (m : Memory) (s : Nat → Kernel Memory Byte) (ok : Nat → Prop) (f : Nat → Byte) : Prop :=
  ∀ i Q E, wp (s i) Q E m ↔ Guarded (ok i) (Q (f i) m) (E .page_fault)

theorem reads_constant (s : List Byte) : Reads m (constant s) (fun _ => True) (fun i => s.getD i 0) := by
  intro i Q E
  rw [guarded_of trivial]
  exact wp_pure ..

theorem reads_pointer (p : Word) : Reads m (pointer p) (fun i => (m (p + BitVec.ofNat 64 i)).isSome) (charAt m p) :=
  fun _ _ _ => wp_loadByte

variable {s1 s2 : Nat → Kernel Memory Byte} {ok1 ok2 : Nat → Prop} {f g : Nat → Byte}

def strncmpValue (f g : Nat → Byte) : Nat → Nat → Int
  | 0, _ => 0
  | n + 1, i =>
    if (f i).toInt - (g i).toInt ≠ 0 then (f i).toInt - (g i).toInt
    else if f i = 0 ∨ g i = 0 then 0
    else strncmpValue f g n (i + 1)

theorem toInt_sub_eq_zero {a b : Byte} : a.toInt - b.toInt = 0 ↔ a = b :=
  ⟨fun h => BitVec.eq_of_toInt_eq (by omega), fun h => by rw [h]; omega⟩

/-- The characters that the loop of `strncmp` comes to are readable. -/
def LoopReads (ok1 ok2 : Nat → Prop) (f g : Nat → Byte) (n i : Nat) : Prop :=
  ∀ k, i ≤ k → k < i + n → (∀ j, i ≤ j → j < k → f j = g j ∧ f j ≠ 0) → ok1 k ∧ ok2 k

theorem loopReads_succ {n i : Nat} : LoopReads ok1 ok2 f g (n + 1) i ↔
    (ok1 i ∧ ok2 i) ∧ (f i = g i → f i ≠ 0 → LoopReads ok1 ok2 f g n (i + 1)) := by
  unfold LoopReads
  rw [forall_while_succ, and_imp]

theorem wp_strncmpLoop {n i : Nat} {Q : Int → Memory → Prop} (h1 : Reads m s1 ok1 f) (h2 : Reads m s2 ok2 g) :
    wp (strncmpLoop s1 s2 n i) Q E m ↔
      Guarded (LoopReads ok1 ok2 f g n i) (Q (strncmpValue f g n i) m) (E .page_fault) := by
  induction n generalizing i with
  | zero =>
    have hnone : LoopReads ok1 ok2 f g 0 i := fun k hk hkn => by omega
    rw [guarded_of hnone]
    exact wp_pure ..
  | succ n ih =>
    unfold strncmpLoop strncmpValue
    simp only [wp_bind, h1 i, h2 i, guarded_guarded, wp_ite, wp_pure, ih, loopReads_succ, toInt_sub_eq_zero, ne_eq]
    by_cases heq : f i = g i
    · by_cases hzero : f i = 0#8
      · simp [← heq, hzero]
      · simp [← heq, hzero, guarded_guarded]
    · simp [heq]

theorem strncmpLoop_constant {σ : Type} (a b : List Byte) (n i : Nat) :
    (strncmpLoop (constant a) (constant b) n i : Kernel σ Int) =
      pure (strncmpValue (fun k => a.getD k 0) (fun k => b.getD k 0) n i) := by
  induction n generalizing i with
  | zero => rfl
  | succ n ih =>
    have hchar : ∀ t : List Byte, (constant t i : Kernel σ Byte) = pure (t.getD i 0) := fun _ => rfl
    unfold strncmpLoop strncmpValue
    simp only [hchar, pure_bind, ih]
    split
    · rfl
    · split <;> rfl

theorem strncmpValue_eq_zero {n i : Nat} : strncmpValue f g n i = 0 ↔
    ∀ k, i ≤ k → k < i + n → (∀ j, i ≤ j → j < k → f j ≠ 0) → f k = g k := by
  induction n generalizing i with
  | zero => exact iff_of_true rfl fun k hk hkn => by omega
  | succ n ih =>
    unfold strncmpValue
    rw [forall_while_succ, ← ih]
    simp only [ne_eq, toInt_sub_eq_zero]
    by_cases heq : f i = g i
    · by_cases hzero : f i = 0
      · simp [← heq, hzero]
      · simp only [← heq, not_true_eq_false, if_false, hzero, or_self, not_false_eq_true, true_implies, true_and]
    · rw [if_pos heq]
      exact iff_of_false (fun h => heq (toInt_sub_eq_zero.mp h)) fun h => heq h.1

theorem strncmpValue_zero {n : Nat} : strncmpValue f g n 0 = 0 ↔ SameText f g n := by
  rw [strncmpValue_eq_zero]
  unfold SameText
  simp only [Nat.zero_le, true_implies, Nat.zero_add]

theorem loopReads_zero {n : Nat} : LoopReads ok1 ok2 f g n 0 ↔ ∀ k < n, ComesTo f g k → ok1 k ∧ ok2 k := by
  unfold LoopReads ComesTo
  simp only [Nat.zero_le, true_implies, Nat.zero_add]

/-- A comparison whose result is only tested for 0. -/
theorem wp_strncmp {n : Nat} {Q : Int → Memory → Prop} (h1 : Reads m s1 ok1 f) (h2 : Reads m s2 ok2 g) :
    wp (strncmp s1 s2 n) Q E m ↔ Guarded (∀ k < n, ComesTo f g k → ok1 k ∧ ok2 k)
      (Q (strncmpValue f g n 0) m) (E .page_fault) := by
  unfold strncmp
  rw [wp_strncmpLoop h1 h2, loopReads_zero]

def memcmpValue (f g : Nat → Byte) : Nat → Nat → Int
  | 0, _ => 0
  | n + 1, i =>
    if (f i).toInt > (g i).toInt then -1
    else if (f i).toInt < (g i).toInt then 1
    else memcmpValue f g n (i + 1)

theorem wp_memcmpLoop {n i : Nat} {Q : Int → Memory → Prop} (h1 : Reads m s1 ok1 f) (h2 : Reads m s2 ok2 g)
    (hok : ∀ k, i ≤ k → k < i + n → ok1 k ∧ ok2 k) :
    wp (memcmpLoop s1 s2 n i) Q E m ↔ Q (memcmpValue f g n i) m := by
  induction n generalizing i with
  | zero => exact wp_pure ..
  | succ n ih =>
    obtain ⟨hok1, hok2⟩ := hok i le_rfl (by omega)
    unfold memcmpLoop memcmpValue
    simp only [wp_bind, h1 i, h2 i, guarded_of hok1, guarded_of hok2, wp_ite, wp_pure]
    split
    · rfl
    · split
      · rfl
      · exact ih fun k hk hkn => hok k (by omega) (by omega)

theorem memcmpValue_eq_zero {n i : Nat} : memcmpValue f g n i = 0 ↔ ∀ k, i ≤ k → k < i + n → f k = g k := by
  induction n generalizing i with
  | zero => exact iff_of_true rfl fun k hk hkn => by omega
  | succ n ih =>
    unfold memcmpValue
    rw [forall_from_succ, ← ih]
    by_cases heq : f i = g i
    · rw [heq, if_neg (lt_irrefl _), if_neg (lt_irrefl _), and_iff_right rfl]
    · have hint : (f i).toInt ≠ (g i).toInt := fun h => heq (BitVec.eq_of_toInt_eq h)
      refine iff_of_false ?_ fun h => heq h.1
      split
      · decide
      · rw [if_pos (by omega)]
        decide

theorem wp_memcmp {n : Nat} {Q : Int → Memory → Prop} (h1 : Reads m s1 ok1 f) (h2 : Reads m s2 ok2 g)
    (hok : ∀ k < n, ok1 k ∧ ok2 k) : wp (memcmp s1 s2 n) Q E m ↔ Q (memcmpValue f g n 0) m :=
  wp_memcmpLoop h1 h2 fun k _ hk => hok k (by omega)

theorem memcmpValue_zero {n : Nat} : memcmpValue f g n 0 = 0 ↔ ∀ k < n, f k = g k := by
  rw [memcmpValue_eq_zero]
  simp only [Nat.zero_le, true_implies, Nat.zero_add]

/-! ## Bytes of an image -/

section Image

variable (start : Word) {image : List Byte}

theorem imageAt_offset {i : Nat} (hi : i < 2 ^ 64) : imageAt start image (start + BitVec.ofNat 64 i) = image[i]? := by
  unfold imageAt
  rw [offset_toNat hi]

theorem mapped_image {k n : Nat} (hfit : k + n ≤ image.length) (hlen : image.length ≤ 2 ^ 64) :
    Mapped (imageAt start image) (start + BitVec.ofNat 64 k) n := by
  intro i hi
  rw [BitVec.add_assoc, ← BitVec.ofNat_add, imageAt_offset start (by omega), List.getElem?_eq_getElem (by omega)]
  rfl

theorem charAt_image {k i : Nat} (hlen : image.length ≤ 2 ^ 64) (hi : k + i < image.length) :
    charAt (imageAt start image) (start + BitVec.ofNat 64 k) i = image[k + i] := by
  unfold charAt byteAt
  rw [BitVec.add_assoc, ← BitVec.ofNat_add, imageAt_offset start (by omega), List.getElem?_eq_getElem hi]
  rfl

theorem bytesAt_image {k n : Nat} (hfit : k + n ≤ image.length) (hlen : image.length ≤ 2 ^ 64) :
    bytesAt (imageAt start image) n (start + BitVec.ofNat 64 k) = (image.drop k).take n := by
  apply List.ext_getElem
  · simp only [bytesAt, List.length_map, List.length_range, List.length_take, List.length_drop]
    omega
  · intro i hi _
    simp only [bytesAt, List.length_map, List.length_range] at hi
    simp only [bytesAt, List.getElem_map, List.getElem_range, List.getElem_take, List.getElem_drop]
    exact charAt_image start hlen (by omega)

end Image

end KernelOfTruth.Strings
