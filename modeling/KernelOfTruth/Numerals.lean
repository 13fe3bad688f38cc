import KernelOfTruth.Format
import KernelOfTruth.Spec.Numerals

/-!
# The numbers that `vfprintf` prints

The number of digits depends only on the base and on the size of the integer. It is enough for the bases 2, 8 and 16,
and not for the base 10.
-/

open KernelOfTruth.Lib KernelOfTruth.Code KernelOfTruth.Code.Format KernelOfTruth.Spec KernelOfTruth.Format

namespace KernelOfTruth.Numerals

variable {m : Modifier} {c : Byte} {conv : Conversion} {base count size : Nat} {v : Int} {args : List Arg}

/-! ## Digits read back -/

theorem digitValue_digits : ∀ d < 16, digitValue (digits d) = some d := by decide

theorem digits_ne_minus : ∀ d < 16, digits d ≠ chr '-' := by decide

theorem foldlM_digitsText (hbase : 0 < base ∧ base ≤ 16) (n : Word) :
    (digitsText base count n).foldlM (readDigit base) 0 = some (n.toNat % base ^ count) := by
  induction count generalizing n with
  | zero => simp [digitsText, Nat.mod_one]
  | succ count ih =>
    have hdigit := Nat.mod_lt n.toNat hbase.1
    have hb : (BitVec.ofNat 64 base).toNat = base := by
      rw [BitVec.toNat_ofNat]
      omega
    rw [digitsText, List.foldlM_append, ih, BitVec.toNat_udiv, hb]
    simp only [Option.bind_eq_bind, Option.bind_some, List.foldlM_cons, List.foldlM_nil, readDigit, BitVec.toNat_umod, hb,
      digitValue_digits _ (Nat.lt_of_lt_of_le hdigit hbase.2), if_pos hdigit, Option.pure_def, Option.some.injEq]
    rw [Nat.pow_succ', Nat.mod_mul, Nat.mul_comm, Nat.add_comm]

theorem digitsText_ne_nil (hcount : 0 < count) (n : Word) : digitsText base count n ≠ [] := by
  intro hnil
  have hlength := digitsText_length base count n
  rw [hnil, List.length_nil] at hlength
  omega

theorem readNat_digitsText (hbase : 0 < base ∧ base ≤ 16) (hcount : 0 < count) (n : Word) :
    readNat base (digitsText base count n) = some (n.toNat % base ^ count) := by
  rw [readNat, if_neg (digitsText_ne_nil hcount n), foldlM_digitsText hbase]

theorem head_digitsText (hbase : 0 < base ∧ base ≤ 16) (n : Word) : (digitsText base count n).head? ≠ some (chr '-') := by
  induction count generalizing n with
  | zero => simp [digitsText]
  | succ count ih =>
    rw [digitsText, List.head?_append]
    cases hhead : (digitsText base count (n / BitVec.ofNat 64 base)).head? with
    | some c =>
      rw [Option.some_or, ← hhead]
      exact ih _
    | none =>
      have hb : (BitVec.ofNat 64 base).toNat = base := by
        rw [BitVec.toNat_ofNat]
        omega
      have hlt : (n % BitVec.ofNat 64 base).toNat < 16 := by
        rw [BitVec.toNat_umod, hb]
        exact Nat.lt_of_lt_of_le (Nat.mod_lt _ hbase.1) hbase.2
      rw [Option.none_or, List.head?_singleton]
      exact fun h => digits_ne_minus _ hlt (Option.some_inj.mp h)

theorem readInt_digitsText (hbase : 0 < base ∧ base ≤ 16) (hcount : 0 < count) (n : Word) :
    readInt base (digitsText base count n) = some ((n.toNat % base ^ count : Nat) : Int) := by
  rw [readInt, if_neg (head_digitsText hbase n), readNat_digitsText hbase hcount, Option.map_some]

theorem readInt_minus (hbase : 0 < base ∧ base ≤ 16) (hcount : 0 < count) (n : Word) :
    readInt base (chr '-' :: digitsText base count n) = some (-((n.toNat % base ^ count : Nat) : Int)) := by
  rw [readInt, List.head?_cons, if_pos rfl, List.tail_cons, readNat_digitsText hbase hcount, Option.map_some]

/-! ## The text of a directive -/

/-- The size that `modifiers` finds. Without a modifier it is set later. -/
def sizeCode (m : Modifier) : Nat := if m = .none then 0 else m.size

/-- The number that `print_number` gets. -/
def numberOf (size : Nat) (v : Int) : Word := if size = 8 then BitVec.ofInt 64 v else (BitVec.ofInt 32 v).signExtend 64

def IsModifier (c : Byte) : Prop := c = chr 'l' ∨ c = chr 'h' ∨ c = chr 'z'

theorem not_isModifier (h : conversion c = some conv) : ¬ IsModifier c := by
  rintro (rfl | rfl | rfl) <;> cases h

theorem modifierOf_chars (hc : ¬ IsModifier c) (after : List Byte) :
    ∃ last, modifierOf (m.chars ++ c :: after) = (sizeCode m, last, c :: after) := by
  simp only [IsModifier, not_or] at hc
  obtain ⟨hl, hh, hz⟩ := hc
  cases m with
  | none => exact ⟨chr '%', by simp only [Modifier.chars, List.nil_append, modifierOf, if_neg hl, if_neg hh, if_neg hz]; rfl⟩
  | hh => exact ⟨chr 'h', rfl⟩
  | h =>
    refine ⟨chr 'h', ?_⟩
    show doubled (chr 'h') 2 1 (c :: after) = _
    rw [doubled, if_neg hh]
    rfl
  | l =>
    refine ⟨chr 'l', ?_⟩
    show doubled (chr 'l') 8 8 (c :: after) = _
    rw [doubled, if_neg hl]
    rfl
  | ll => exact ⟨chr 'l', rfl⟩
  | z => exact ⟨chr 'z', rfl⟩

theorem formatText_before {before format text : List Byte} (hbefore : chr '%' ∉ before)
    (htext : formatText format args = some text) : formatText (before ++ format) args = some (before ++ text) := by
  induction before with
  | nil => exact htext
  | cons c before ih =>
    rw [List.mem_cons, not_or] at hbefore
    rw [List.cons_append, formatText_literal fun h => hbefore.1 h.1.symm, ih hbefore.2]
    rfl

theorem formatText_number {arg : Arg} {after text more : List Byte} (hc : conversion c = some conv)
    (htext : convertText conv (sizeCode m) (arg :: args) = some (text, args)) (hmore : formatText after args = some more) :
    formatText (directiveChars m c ++ after) (arg :: args) = some (text ++ more) := by
  obtain ⟨last, hmodifier⟩ := modifierOf_chars (m := m) (not_isModifier hc) after
  have hchars : directiveChars m c ++ after = chr '%' :: (m.chars ++ c :: after) := by simp [directiveChars]
  rw [hchars, formatText_directive (by simp), hmodifier]
  simp only [hc, htext, hmore, Option.bind_some]

theorem directiveChars_nul (hc : conversion c = some conv) : 0 ∉ directiveChars m c := by
  have hchars : 0 ∉ m.chars := by cases m <;> decide
  have hne : 0 ≠ c := by
    rintro rfl
    cases hc
  simp only [directiveChars, List.mem_cons, List.mem_append, List.not_mem_nil, or_false, not_or]
  exact ⟨by decide, hchars, hne⟩

/-- The text of a directive does not depend on what is around it. -/
theorem writes_iff {arg : Arg} {text : List Byte} {P : List Byte → Prop} (hc : conversion c = some conv)
    (htext : ∀ args, convertText conv (sizeCode m) (arg :: args) = some (text, args)) : DirectiveWrites m c arg P ↔ P text := by
  have hwrites : ∀ {before after : List Byte} (hnul : 0 ∉ before ++ (directiveChars m c ++ after)) {args : List Arg}
      {more : List Byte} {s : FormatState}, chr '%' ∉ before → formatText after args = some more → s.blocks = [] →
      s.args = arg :: args → ∃ s', (vfprintf (some fun _ => .Ok) ⟨_, hnul⟩).run s = .ok (.Ok, s') ∧
        s'.blocks.flatten = before ++ (text ++ more) := by
    intro before after hnul args more s hbefore hmore hblocks hargs
    have hformat := formatText_before hbefore (formatText_number hc (htext args) hmore)
    rw [← hargs] at hformat
    have hwp : wp (vfprintf (some fun _ => .Ok) ⟨_, hnul⟩) _ _ s := wp_vfprintf hblocks hformat
    obtain ⟨status, s', hrun, ⟨rfl, -, hflat⟩ | ⟨hne, hfailed, -⟩⟩ := wp_total hwp
    · exact ⟨s', hrun, hflat⟩
    · exact absurd hfailed.symm hne
  constructor
  · intro h
    have hnul : 0 ∉ [] ++ (directiveChars m c ++ []) := by
      rw [List.nil_append, List.append_nil]
      exact directiveChars_nul hc
    let s : FormatState := ⟨Vector.replicate 256 0, 0, [arg], []⟩
    obtain ⟨text', s', hrun, hflat, hP⟩ := h [] [] hnul [] [] s (by simp) (by rw [formatText]) rfl rfl
    obtain ⟨s'', hrun', hflat'⟩ := hwrites hnul (by simp) (by rw [formatText]) (s := s) rfl rfl
    rw [hrun] at hrun'
    cases hrun'
    rw [hflat] at hflat'
    simp only [List.append_nil, List.nil_append] at hflat'
    exact hflat' ▸ hP
  · intro hP before after hnul args more s hbefore hmore hblocks hargs
    obtain ⟨s', hrun, hflat⟩ := hwrites hnul hbefore hmore hblocks hargs
    exact ⟨text, s', hrun, hflat, hP⟩

theorem takeNumber_passed (m : Modifier) (v : Int) (args : List Arg) :
    takeNumber (sizeCode m) (passed m.size v :: args) = some (m.size, numberOf m.size v, args) := by
  cases m <;> rfl

/-- The text of a number, without its sign and with it. -/
theorem numberText_eq (is_signed : Bool) (hcount : digitCount base size = some count) (n : Word) :
    numberText is_signed base size n = some (if is_signed && n.slt 0 then chr '-' :: digitsText base count (~~~n + 1)
      else digitsText base count n) := by
  rw [numberText, hcount]
  exact apply_ite some _ _ _ |>.symm

theorem convertText_number {is_signed : Bool} (hcount : digitCount base m.size = some count) (v : Int) (args : List Arg) :
    convertText (.number is_signed base) (sizeCode m) (passed m.size v :: args) =
      some (if is_signed && (numberOf m.size v).slt 0 then chr '-' :: digitsText base count (~~~numberOf m.size v + 1)
        else digitsText base count (numberOf m.size v), args) := by
  simp only [convertText, takeNumber_passed, Option.bind_eq_bind, Option.bind_some, numberText_eq is_signed hcount]
  rfl

/-! ## Values -/

theorem numberOf_signed (h : IsSigned m.size v) : numberOf m.size v = BitVec.ofInt 64 v := by
  have hsmall : -2 ^ 31 ≤ v ∧ v < 2 ^ 31 → (BitVec.ofInt 32 v).signExtend 64 = BitVec.ofInt 64 v := by
    intro hv
    rw [BitVec.signExtend, BitVec.toInt_ofInt, Int.bmod_eq_of_le (by omega) (by omega)]
  unfold IsSigned at h
  cases m with
  | none => exact hsmall h
  | hh => exact hsmall (by simp only [Modifier.size] at h; omega)
  | h => exact hsmall (by simp only [Modifier.size] at h; omega)
  | l => rfl
  | ll => rfl
  | z => rfl

theorem signed_bounds (h : IsSigned m.size v) : -2 ^ 63 ≤ v ∧ v < 2 ^ 63 := by
  unfold IsSigned at h
  cases m <;> simp only [Modifier.size] at h <;> omega

theorem slt_zero (h : -2 ^ 63 ≤ v ∧ v < 2 ^ 63) : (BitVec.ofInt 64 v).slt 0 = true ↔ v < 0 := by
  rw [BitVec.slt_iff_toInt_lt, BitVec.toInt_ofInt, Int.bmod_eq_of_le (by omega) (by omega)]
  rfl

/-- The most negative number too is right after its sign is taken off. -/
theorem toNat_magnitude (h : -2 ^ 63 ≤ v ∧ v < 0) : (~~~BitVec.ofInt 64 v + 1).toNat = v.natAbs := by
  rw [BitVec.toNat_add, BitVec.toNat_not, BitVec.toNat_ofInt, show (1 : Word).toNat = 1 from rfl]
  omega

theorem toNat_ofInt_nonneg (h : 0 ≤ v ∧ v < 2 ^ 64) : (BitVec.ofInt 64 v).toNat = v.natAbs := by
  rw [BitVec.toNat_ofInt]
  omega

/-- What a signed directive prints reads as the number with only its last digits. -/
theorem readInt_signed (hbase : 0 < base ∧ base ≤ 16) (hcount : 0 < count) (h : IsSigned m.size v) :
    readInt base (if true && (numberOf m.size v).slt 0 then chr '-' :: digitsText base count (~~~numberOf m.size v + 1)
      else digitsText base count (numberOf m.size v)) = some (v.sign * (v.natAbs % base ^ count : Nat)) := by
  have hv := signed_bounds h
  rw [numberOf_signed h, Bool.true_and]
  rcases Int.lt_or_le v 0 with hneg | hpos
  · rw [if_pos ((slt_zero hv).mpr hneg), readInt_minus hbase hcount, toNat_magnitude ⟨hv.1, hneg⟩,
      Int.sign_eq_neg_one_of_neg hneg, Int.neg_one_mul]
  · rw [if_neg (mt (slt_zero hv).mp (Int.not_lt.mpr hpos)), readInt_digitsText hbase hcount,
      toNat_ofInt_nonneg ⟨hpos, by omega⟩]
    rcases hpos.eq_or_lt with rfl | hlt
    · rfl
    · rw [Int.sign_eq_one_of_pos hlt, Int.one_mul]

theorem sign_mul_mod_eq_iff {n : Nat} (hn : 0 < n) : v.sign * (v.natAbs % n : Nat) = v ↔ v.natAbs < n := by
  constructor
  · intro h
    have hlt := Nat.mod_lt v.natAbs hn
    have habs := congrArg Int.natAbs h
    rw [Int.natAbs_mul, Int.natAbs_natCast] at habs
    rcases eq_or_ne v 0 with rfl | hv
    · exact hn
    · rw [Int.natAbs_sign_of_ne_zero hv, Nat.one_mul] at habs
      omega
  · intro h
    rw [Nat.mod_eq_of_lt h, Int.sign_mul_natAbs]

/-- The sign of a promoted argument does not reach the last bytes. -/
theorem numberOf_mod (m : Modifier) (v : Int) :
    (numberOf m.size v).toNat % 2 ^ (8 * m.size) = (v % 2 ^ (8 * m.size)).toNat := by
  have hint : (numberOf 4 v).toNat = (v.bmod (2 ^ 32) % 2 ^ 64).toNat := by
    rw [numberOf, if_neg (by decide), BitVec.signExtend, BitVec.toNat_ofInt, BitVec.toInt_ofInt]
    rfl
  have hlong : (numberOf 8 v).toNat = (v % 2 ^ 64).toNat := by
    rw [numberOf, if_pos rfl, BitVec.toNat_ofInt]
    rfl
  have hmod : v.bmod (2 ^ 32) % 2 ^ 32 = v % 2 ^ 32 := Int.bmod_emod
  cases m with
  | none => show (numberOf 4 v).toNat % 2 ^ 32 = (v % 2 ^ 32).toNat; omega
  | hh => show (numberOf 4 v).toNat % 2 ^ 8 = (v % 2 ^ 8).toNat; omega
  | h => show (numberOf 4 v).toNat % 2 ^ 16 = (v % 2 ^ 16).toNat; omega
  | l => show (numberOf 8 v).toNat % 2 ^ 64 = (v % 2 ^ 64).toNat; omega
  | ll => show (numberOf 8 v).toNat % 2 ^ 64 = (v % 2 ^ 64).toNat; omega
  | z => show (numberOf 8 v).toNat % 2 ^ 64 = (v % 2 ^ 64).toNat; omega

/-- An unsigned integer is printed as it is, or it has more digits than are printed. -/
theorem numberOf_unsigned (h : IsUnsigned m.size v) :
    (numberOf m.size v).toNat = v.natAbs ∨ 10 ^ (2 * m.size) ≤ v.natAbs := by
  unfold IsUnsigned at h
  have hsmall : 0 ≤ v ∧ v < 2 ^ 31 → (numberOf 4 v).toNat = v.natAbs := by
    intro hv
    have hsigned : numberOf Modifier.none.size v = BitVec.ofInt 64 v := by
      refine numberOf_signed (m := .none) ⟨?_, hv.2⟩
      show -2 ^ 31 ≤ v
      omega
    rw [show numberOf 4 v = BitVec.ofInt 64 v from hsigned, toNat_ofInt_nonneg (by omega)]
  cases m with
  | none =>
    simp only [Modifier.size] at h ⊢
    rcases Int.lt_or_le v (2 ^ 31) with hlt | hle
    · exact .inl (hsmall ⟨h.1, hlt⟩)
    · exact .inr (by omega)
  | hh => exact .inl (hsmall (by simp only [Modifier.size] at h; omega))
  | h => exact .inl (hsmall (by simp only [Modifier.size] at h; omega))
  | l => exact .inl (toNat_ofInt_nonneg h)
  | ll => exact .inl (toNat_ofInt_nonneg h)
  | z => exact .inl (toNat_ofInt_nonneg h)

/-! ## Base 10 -/

theorem digitCount_ten (m : Modifier) : digitCount 10 m.size = some (2 * m.size) := by cases m <;> rfl

theorem size_pos (m : Modifier) : 0 < m.size := by cases m <;> decide

theorem signed_faithful_iff (hc : c = chr 'd' ∨ c = chr 'i') (h : IsSigned m.size v) :
    DirectiveWrites m c (passed m.size v) (fun text => readInt 10 text = some v) ↔ v.natAbs < 10 ^ (2 * m.size) := by
  have hconv : conversion c = some (.number true 10) := by rcases hc with rfl | rfl <;> rfl
  have hpos := size_pos m
  rw [writes_iff hconv (convertText_number (digitCount_ten m) v), readInt_signed (by decide) (by omega) h,
    Option.some_inj]
  exact sign_mul_mod_eq_iff (Nat.pow_pos (by decide))

theorem unsigned_faithful_iff (h : IsUnsigned m.size v) :
    DirectiveWrites m (chr 'u') (passed m.size v) (fun text => readInt 10 text = some v) ↔
      v.natAbs < 10 ^ (2 * m.size) := by
  have hconv : conversion (chr 'u') = some (.number false 10) := rfl
  have hpos := size_pos m
  have hv := h.1
  rw [writes_iff hconv (convertText_number (digitCount_ten m) v), Bool.false_and, if_neg Bool.false_ne_true,
    readInt_digitsText (by decide) (by omega), Option.some_inj]
  have hlt := Nat.mod_lt (numberOf m.size v).toNat (Nat.pow_pos (n := 2 * m.size) (show 0 < 10 by decide))
  rcases numberOf_unsigned h with heq | hle
  · rw [heq] at hlt ⊢
    constructor
    · intro hmod
      omega
    · intro hsmall
      rw [Nat.mod_eq_of_lt hsmall]
      omega
  · omega

/-- A decimal numeral has two digits for each byte of the integer, and reads back if the integer has no more. -/
theorem decimal_faithful_iff (m : Modifier) (v : Int) :
    (∀ c, c = chr 'd' ∨ c = chr 'i' → IsSigned m.size v →
      (DirectiveWrites m c (passed m.size v) (fun text => readInt 10 text = some v) ↔ v.natAbs < 10 ^ (2 * m.size))) ∧
    (IsUnsigned m.size v → (DirectiveWrites m (chr 'u') (passed m.size v) (fun text => readInt 10 text = some v) ↔
      v.natAbs < 10 ^ (2 * m.size))) :=
  ⟨fun _ hc h => signed_faithful_iff hc h, unsigned_faithful_iff⟩

theorem minus_ninety_nine_faithful : IsSigned 1 (-99) ∧
    DirectiveWrites .hh (chr 'd') (passed 1 (-99)) (fun text => readInt 10 text = some (-99)) := by
  have hsigned : IsSigned 1 (-99) := ⟨by decide, by decide⟩
  exact ⟨hsigned, ((decimal_faithful_iff .hh (-99)).1 _ (.inl rfl) hsigned).mpr (by decide)⟩

/-- `%hhu` of 255 is 55. -/
theorem first_digit_lost : IsUnsigned 1 255 ∧ DirectiveWrites .hh (chr 'u') (passed 1 255) (fun text => text = ascii "55") ∧
    ¬ DirectiveWrites .hh (chr 'u') (passed 1 255) (fun text => readInt 10 text = some 255) := by
  have hconv : conversion (chr 'u') = some (.number false 10) := rfl
  have htext : ∀ args, convertText (.number false 10) (sizeCode .hh) (passed 1 255 :: args) = some (ascii "55", args) :=
    fun _ => rfl
  refine ⟨⟨by decide, by decide⟩, (writes_iff hconv htext).mpr rfl, fun h => ?_⟩
  exact absurd ((writes_iff hconv htext).mp h) (by decide)

/-! ## The other bases -/

theorem digitCount_two (m : Modifier) : digitCount 2 m.size = some (8 * m.size) := by cases m <;> rfl

theorem digitCount_eight (m : Modifier) : digitCount 8 m.size = some (4 * m.size) := by cases m <;> rfl

theorem digitCount_sixteen (m : Modifier) : digitCount 16 m.size = some (2 * m.size) := by cases m <;> rfl

/-- All digits of an unsigned integer are printed. -/
theorem digits_faithful (m : Modifier) (v : Int) (hbase : 0 < base ∧ base ≤ 16) (hcount : 0 < count)
    (hpow : base ^ count = 2 ^ (8 * m.size)) : (digitsText base count (numberOf m.size v)).length = count ∧
      readNat base (digitsText base count (numberOf m.size v)) = some (v % 2 ^ (8 * m.size)).toNat := by
  rw [readNat_digitsText hbase hcount, hpow, numberOf_mod]
  exact ⟨digitsText_length .., rfl⟩

theorem sixteen_pow (n : Nat) : 16 ^ (2 * n) = 2 ^ (8 * n) := by
  rw [Nat.pow_mul, Nat.pow_mul]

theorem binary_faithful (m : Modifier) (v : Int) : DirectiveWrites m (chr 'b') (passed m.size v) fun text =>
    text.length = 8 * m.size ∧ readNat 2 text = some (v % 2 ^ (8 * m.size)).toNat := by
  have hpos := size_pos m
  have hconv : conversion (chr 'b') = some (.number false 2) := rfl
  rw [writes_iff hconv (convertText_number (digitCount_two m) v), Bool.false_and, if_neg Bool.false_ne_true]
  exact digits_faithful m v (by decide) (by omega) rfl

theorem hexadecimal_faithful (hc : c = chr 'x' ∨ c = chr 'X') (m : Modifier) (v : Int) :
    DirectiveWrites m c (passed m.size v) fun text =>
      text.length = 2 * m.size ∧ readNat 16 text = some (v % 2 ^ (8 * m.size)).toNat := by
  have hpos := size_pos m
  have hconv : conversion c = some (.number false 16) := by rcases hc with rfl | rfl <;> rfl
  rw [writes_iff hconv (convertText_number (digitCount_sixteen m) v), Bool.false_and, if_neg Bool.false_ne_true]
  exact digits_faithful m v (by decide) (by omega) (sixteen_pow m.size)

/-- A modifier of the same size as a pointer, where there is none. -/
def pointerModifier (m : Modifier) : Modifier := if m = .none then .l else m

theorem operandSize_pointer (m : Modifier) : operandSize m (chr 'p') = (pointerModifier m).size := by cases m <;> rfl

theorem operandSize_other (hc : c ≠ chr 'p') : operandSize m c = m.size := if_neg fun h => hc h.2

theorem convertText_pointer (m : Modifier) (v : Int) (args : List Arg) :
    convertText .pointer (sizeCode m) (passed (pointerModifier m).size v :: args) =
      some (digitsText 16 (2 * (pointerModifier m).size) (numberOf (pointerModifier m).size v), args) := by
  cases m <;> rfl

theorem pointer_faithful (m : Modifier) (v : Int) :
    DirectiveWrites m (chr 'p') (passed (operandSize m (chr 'p')) v) fun text =>
      text.length = 2 * operandSize m (chr 'p') ∧
        readNat 16 text = some (v % 2 ^ (8 * operandSize m (chr 'p'))).toNat := by
  have hconv : conversion (chr 'p') = some .pointer := rfl
  have hpos := size_pos (pointerModifier m)
  rw [operandSize_pointer, writes_iff hconv (convertText_pointer m v)]
  exact digits_faithful _ v (by decide) (by omega) (sixteen_pow _)

theorem natAbs_lt_octal (h : IsSigned m.size v) : v.natAbs < 8 ^ (4 * m.size) := by
  unfold IsSigned at h
  cases m <;> simp only [Modifier.size] at h ⊢ <;> omega

theorem octal_faithful (h : IsSigned m.size v) : DirectiveWrites m (chr 'o') (passed m.size v) fun text =>
    readInt 8 text = some v ∧ ∃ numeral, (text = numeral ∨ text = chr '-' :: numeral) ∧ numeral.length = 4 * m.size := by
  have hpos := size_pos m
  have hconv : conversion (chr 'o') = some (.number true 8) := rfl
  rw [writes_iff hconv (convertText_number (digitCount_eight m) v), readInt_signed (by decide) (by omega) h,
    (sign_mul_mod_eq_iff (Nat.pow_pos (by decide))).mpr (natAbs_lt_octal h)]
  refine ⟨rfl, ?_⟩
  split
  · exact ⟨_, .inr rfl, digitsText_length ..⟩
  · exact ⟨_, .inl rfl, digitsText_length ..⟩

/-- The numerals of the other bases have all digits. -/
theorem other_bases_faithful (m : Modifier) (v : Int) :
    (DirectiveWrites m (chr 'b') (passed m.size v) fun text =>
      text.length = 8 * m.size ∧ readNat 2 text = some (v % 2 ^ (8 * m.size)).toNat) ∧
    (∀ c, c = chr 'x' ∨ c = chr 'X' ∨ c = chr 'p' → DirectiveWrites m c (passed (operandSize m c) v) fun text =>
      text.length = 2 * operandSize m c ∧ readNat 16 text = some (v % 2 ^ (8 * operandSize m c)).toNat) ∧
    (IsSigned m.size v → DirectiveWrites m (chr 'o') (passed m.size v) fun text => readInt 8 text = some v ∧
      ∃ numeral, (text = numeral ∨ text = chr '-' :: numeral) ∧ numeral.length = 4 * m.size) := by
  refine ⟨binary_faithful m v, ?_, octal_faithful⟩
  rintro c (rfl | rfl | rfl)
  · rw [operandSize_other (by decide)]
    exact hexadecimal_faithful (.inl rfl) m v
  · rw [operandSize_other (by decide)]
    exact hexadecimal_faithful (.inr rfl) m v
  · exact pointer_faithful m v

theorem short_octal_faithful : IsSigned 2 (-32768) ∧ DirectiveWrites .h (chr 'o') (passed 2 (-32768)) fun text =>
    readInt 8 text = some (-32768) ∧
      ∃ numeral, (text = numeral ∨ text = chr '-' :: numeral) ∧ numeral.length = 4 * 2 := by
  have hsigned : IsSigned 2 (-32768) := ⟨by decide, by decide⟩
  exact ⟨hsigned, (other_bases_faithful .h (-32768)).2.2 hsigned⟩

end KernelOfTruth.Numerals
