import KernelOfTruth.Elf
import KernelOfTruth.Hashtable
import KernelOfTruth.Spec.ElfNames
import Mathlib.Data.List.GetD

/-!
# The addresses of symbols
-/

open KernelOfTruth.Lib KernelOfTruth.Code KernelOfTruth.Spec KernelOfTruth.Strings KernelOfTruth.Elf
open KernelOfTruth.Hashtables (wp_hashtable_put_memory wp_hashtable_get zeroed_table oneBuffer keepBuffer)

namespace KernelOfTruth.Symbols

variable {m : Memory} {start size : Word} {E : Halt → Prop}

/-! ## Well-formed images -/

theorem wordAt_lt (m : Memory) (n : Nat) (a : Word) : (wordAt m n a).toNat < 2 ^ (8 * n) := by
  induction n generalizing a with
  | zero => exact Nat.one_pos
  | succ n ih =>
    unfold wordAt
    rw [BitVec.toNat_or]
    refine Nat.or_lt_two_pow ?_ ?_
    · have hbyte := (byteAt m a).isLt
      have hpow : 2 ^ 8 ≤ 2 ^ (8 * (n + 1)) := Nat.pow_le_pow_right (by decide) (by omega)
      rw [BitVec.toNat_setWidth]
      exact Nat.lt_of_le_of_lt (Nat.mod_le _ _) (Nat.lt_of_lt_of_le hbyte hpow)
    · rw [BitVec.toNat_shiftLeft, Nat.shiftLeft_eq]
      refine Nat.lt_of_le_of_lt (Nat.mod_le _ _) ?_
      have hrest := ih (a + 1)
      rw [show 8 * (n + 1) = 8 * n + 8 from by omega, Nat.pow_add]
      omega

theorem add_offset {a start : Word} (hle : start.toNat ≤ a.toNat) (i : Nat) :
    a + BitVec.ofNat 64 i = start + BitVec.ofNat 64 (a.toNat - start.toNat + i) := by bv_omega

theorem toNat_entry {table index : Word} {n k : Nat} (hfit : table.toNat + n * k < 2 ^ 64) (hk : index.toNat < k)
    (hn : n < 2 ^ 64) : (table + BitVec.ofNat 64 n * index).toNat = table.toNat + n * index.toNat := by
  have hmul : n * index.toNat ≤ n * k := Nat.mul_le_mul_left n hk.le
  rw [BitVec.toNat_add, BitVec.toNat_mul, BitVec.toNat_ofNat, Nat.mod_eq_of_lt hn, Nat.mod_eq_of_lt (by omega),
    Nat.mod_eq_of_lt (by omega)]

section Sections

variable (h : WellFormedSections m start size)
include h

theorem mapped_inside {a : Word} {n : Nat} (hinside : Inside start size a n) : Mapped m a n := by
  intro i hi
  obtain ⟨hle, hfit⟩ := hinside
  rw [add_offset hle]
  exact h.mapped _ (by omega)

theorem mapped_header : Mapped m start 64 := mapped_inside h ⟨le_rfl, Nat.add_le_add_left h.header _⟩

theorem end_toNat : (start + size).toNat = start.toNat + size.toNat := by
  rw [BitVec.toNat_add, Nat.mod_eq_of_lt h.no_wrap]

theorem table_le : sectionTable m start + sectionHeaderSize * sectionCount m start ≤ start + size := by
  have hcount := wordAt_lt m 2 (start + 60)
  have htable := h.table.2
  have hwrap := h.no_wrap
  have hmul : (sectionHeaderSize * sectionCount m start).toNat = 64 * (sectionCount m start).toNat := by
    rw [BitVec.toNat_mul, show sectionHeaderSize.toNat = 64 from rfl, Nat.mod_eq_of_lt (by omega)]
  rw [BitVec.le_def, BitVec.toNat_add, hmul, end_toNat h, Nat.mod_eq_of_lt (by omega)]
  exact htable

theorem header_inside {i : Word} (hi : i < sectionCount m start) : Inside start size (sectionHeader m start i) 64 := by
  have htable := h.table
  have hwrap := h.no_wrap
  have hi' := BitVec.lt_def.mp hi
  have hentry : (sectionHeader m start i).toNat = (sectionTable m start).toNat + 64 * i.toNat :=
    toNat_entry (n := 64) (Nat.lt_of_le_of_lt htable.2 hwrap) hi' (by decide)
  unfold Inside
  rw [hentry]
  have := htable.1
  have := htable.2
  constructor <;> omega

theorem mapped_field {i : Word} (hi : i < sectionCount m start) {k n : Nat} (hfit : k + n ≤ 64) :
    Mapped m (sectionHeader m start i + BitVec.ofNat 64 k) n :=
  mapped_part (mapped_inside h (header_inside h hi)) hfit

theorem textInside_isSome {p : Word} (hp : TextInside m start size p) {k : Nat} (hk : ∀ j < k, charAt m p j ≠ 0) :
    (m (p + BitVec.ofNat 64 k)).isSome := by
  obtain ⟨text, htext, hinside⟩ := hp
  refine mapped_inside h hinside k ?_
  by_contra hlong
  refine hk text.length (by omega) ?_
  rw [htext.char_eq _ le_rfl, List.getD_eq_default _ _ le_rfl]

theorem searchInside (name : List Byte) : SearchInside m start size name := by
  intro _
  refine ⟨mapped_field h h.name_index (k := 24) (by decide), fun _ k hk _ => ?_⟩
  have hcount := (sectionCount m start).isLt
  have hlt : BitVec.ofNat 64 k < sectionCount m start := by
    rw [BitVec.lt_def, BitVec.toNat_ofNat, Nat.mod_eq_of_lt (by omega)]
    exact hk
  refine ⟨?_, fun _ k' _ hcomes => ?_, fun _ => mapped_field h hlt (k := 24) (by decide),
    fun _ _ => mapped_field h hlt (k := 32) (by decide)⟩
  · have hname := mapped_field h hlt (k := 0) (n := 4) (by decide)
    rwa [BitVec.add_zero] at hname
  · refine textInside_isSome h (h.names _ hlt) fun j hj => ?_
    rw [← (hcomes j hj).1]
    exact (hcomes j hj).2

/-- A search in a well-formed image. -/
theorem wp_get_section {name : List Byte} {Q : Word × Word → Memory → Prop} :
    wp (elf_get_section start size name) Q E m ↔ Q (sectionOf m start size name) m := by
  rw [wp_elf_get_section (mapped_header h), guarded_of (searchInside h name)]

end Sections

/-! ## `elf_get_base_address` -/

theorem lt_of_toNat_lt {i : Nat} {w : Word} (h : i < w.toNat) : BitVec.ofNat 64 i < w := by
  rw [BitVec.lt_def, BitVec.toNat_ofNat, Nat.mod_eq_of_lt (Nat.lt_trans h w.isLt)]
  exact h

def leastOffset (m : Memory) (start : Word) : Nat → Nat → Word → Word
  | 0, _, base => base
  | n + 1, i, base => leastOffset m start n (i + 1)
    (if sectionType m start (BitVec.ofNat 64 i) ≠ SHT_NULL ∧ sectionOffset m start (BitVec.ofNat 64 i) < base then
      sectionOffset m start (BitVec.ofNat 64 i) else base)

theorem leastOffset_le_base (m : Memory) (start : Word) (n i : Nat) (base : Word) : leastOffset m start n i base ≤ base := by
  induction n generalizing i base with
  | zero => exact BitVec.le_refl _
  | succ n ih =>
    refine BitVec.le_trans (ih _ _) ?_
    split
    · rename_i hless
      exact BitVec.le_of_lt hless.2
    · exact BitVec.le_refl _

theorem leastOffset_le (m : Memory) (start : Word) {n i k : Nat} (base : Word) (hik : i ≤ k) (hkn : k < i + n)
    (htype : sectionType m start (BitVec.ofNat 64 k) ≠ SHT_NULL) :
    leastOffset m start n i base ≤ sectionOffset m start (BitVec.ofNat 64 k) := by
  induction n generalizing i base with
  | zero => omega
  | succ n ih =>
    rcases Nat.eq_or_lt_of_le hik with rfl | hlt
    · unfold leastOffset
      refine BitVec.le_trans (leastOffset_le_base ..) ?_
      split
      · exact BitVec.le_refl _
      · rename_i hnot
        exact BitVec.not_lt.mp fun hless => hnot ⟨htype, hless⟩
    · exact ih _ hlt (by omega)

theorem leastOffset_eq (m : Memory) (start : Word) (n i : Nat) (base : Word) : leastOffset m start n i base = base ∨
    ∃ k, i ≤ k ∧ k < i + n ∧ sectionType m start (BitVec.ofNat 64 k) ≠ SHT_NULL ∧
      leastOffset m start n i base = sectionOffset m start (BitVec.ofNat 64 k) := by
  induction n generalizing i base with
  | zero => exact .inl rfl
  | succ n ih =>
    unfold leastOffset
    rcases ih (i + 1) (if sectionType m start (BitVec.ofNat 64 i) ≠ SHT_NULL ∧
      sectionOffset m start (BitVec.ofNat 64 i) < base then sectionOffset m start (BitVec.ofNat 64 i) else base) with
      hbase | ⟨k, hik, hkn, htype, hk⟩
    · rw [hbase]
      split
      · rename_i hless
        exact .inr ⟨i, le_rfl, by omega, hless.1, rfl⟩
      · exact .inl rfl
    · exact .inr ⟨k, by omega, by omega, htype, hk⟩

theorem product_width {c : Word} (hc : c.toNat < 2 ^ 16) :
    ((sectionHeaderSize * c).setWidth 32).signExtend 64 = sectionHeaderSize * c := by
  have hmul : (sectionHeaderSize * c).toNat = 64 * c.toNat := by
    rw [BitVec.toNat_mul, show sectionHeaderSize.toNat = 64 from rfl, Nat.mod_eq_of_lt (by omega)]
  have hwidth : ((sectionHeaderSize * c).setWidth 32).toNat = 64 * c.toNat := by
    rw [BitVec.toNat_setWidth, hmul, Nat.mod_eq_of_lt (by omega)]
  have hmsb : ((sectionHeaderSize * c).setWidth 32).msb = false := by
    rw [BitVec.msb_eq_false_iff_two_mul_lt, hwidth]
    omega
  rw [BitVec.signExtend_eq_setWidth_of_msb_false hmsb]
  apply BitVec.eq_of_toNat_eq
  rw [BitVec.toNat_setWidth, hwidth, hmul, Nat.mod_eq_of_lt (by omega)]

theorem wp_baseLoop_any {n i : Nat} {base : Word} {Q : Word → Memory → Prop} :
    wp (baseLoop (sectionTable m start) n (BitVec.ofNat 64 i) base) Q E m ↔
      Guarded (∀ k, i ≤ k → k < i + n → HeaderMapped m start k) (Q (leastOffset m start n i base) m) (E .page_fault) := by
  induction n generalizing i base with
  | zero =>
    rw [guarded_of fun k hk hkn => by omega]
    exact wp_pure ..
  | succ n ih =>
    have hheader : sectionAt (sectionTable m start) (BitVec.ofNat 64 i) = sectionHeader m start (BitVec.ofNat 64 i) := rfl
    have htype : wordAt m 4 (sectionHeader m start (BitVec.ofNat 64 i) + 4) = sectionType m start (BitVec.ofNat 64 i) := rfl
    have hoffset : wordAt m 8 (sectionHeader m start (BitVec.ofNat 64 i) + 24) =
        sectionOffset m start (BitVec.ofNat 64 i) := rfl
    have hnext : BitVec.ofNat 64 i + 1 = BitVec.ofNat 64 (i + 1) := (BitVec.ofNat_add ..).symm
    unfold baseLoop leastOffset
    simp only [wp_bind, sh_type, sh_offset, wp_load, hheader, htype, hoffset, wp_ite, hnext, ih]
    rw [forall_from_succ, HeaderMapped]
    by_cases hnull : sectionType m start (BitVec.ofNat 64 i) = SHT_NULL
    · simp only [hnull, ne_eq, not_true_eq_false, if_false, false_and, false_implies, and_true, guarded_guarded]
    · by_cases hless : sectionOffset m start (BitVec.ofNat 64 i) < base
      · simp only [hnull, hless, ne_eq, not_false_eq_true, if_true, true_and, true_implies, guarded_guarded, and_assoc]
      · simp only [hnull, hless, ne_eq, not_false_eq_true, if_true, and_false, if_false, true_implies, guarded_guarded, and_assoc]

section Base

variable (h : WellFormedSections m start size) {Q : Word → Memory → Prop}
include h

theorem headerMapped {i : Nat} (hi : i < (sectionCount m start).toNat) : HeaderMapped m start i :=
  ⟨mapped_field h (lt_of_toNat_lt hi) (k := 4) (by decide), fun _ => mapped_field h (lt_of_toNat_lt hi) (k := 24) (by decide)⟩

theorem wp_baseLoop {n i : Nat} {base : Word} (hn : i + n ≤ (sectionCount m start).toNat) :
    wp (baseLoop (sectionTable m start) n (BitVec.ofNat 64 i) base) Q E m ↔ Q (leastOffset m start n i base) m := by
  rw [wp_baseLoop_any, guarded_of fun k _ hk => headerMapped h (by omega)]

/-- The least offset of a section. -/
def baseOffset (m : Memory) (start : Word) : Word :=
  leastOffset m start (sectionCount m start).toNat 0 ELF_BAD_BASE_ADDRESS

theorem wp_elf_get_base_address : wp (elf_get_base_address start size) Q E m ↔
    Q (if baseOffset m start = ELF_BAD_BASE_ADDRESS then 0 else start + baseOffset m start) m := by
  have hheader := mapped_header h
  have hcount : (sectionCount m start).toNat < 2 ^ 16 := wordAt_lt m 2 (start + 60)
  have htable : start + wordAt m 8 (start + 40) = sectionTable m start := rfl
  have hentry : Mapped m (start + 58) 2 := mapped_part hheader (k := 58) (by decide)
  unfold elf_get_base_address
  simp only [wp_bind, wp_e_shoff hheader, wp_e_shnum hheader, e_shentsize, wp_load, guarded_of hentry, h.entry_size,
    product_width hcount, htable, BitVec.not_lt.mpr (table_le h), gt_iff_lt, if_false]
  refine (wp_baseLoop h (i := 0) (by omega)).trans ?_
  rw [wp_ite, baseOffset]
  split <;> exact wp_pure ..

end Base

/-! ## `elf_get_symbol_address` -/

theorem not_file_of_exported {info : Word} (h : is_exported info = true) : ELF64_R_TYPE info ≠ STT_FILE := by
  intro hfile
  have hbind : info >>> 4 = 1 := by
    simp only [is_exported, Bool.and_eq_true, decide_eq_true_eq] at h
    exact h.1
  -- bit 4 is set in a global symbol, and not in the number of a file
  have hset : info[4] = true := by
    have hlow := congrArg (fun w : Word => w[0]) hbind
    simpa using hlow
  have hclear : info[4] = false := by
    have hmasked := congrArg (fun w : Word => w[4]) hfile
    simpa [ELF64_R_TYPE, STT_FILE] using hmasked
  exact Bool.false_ne_true (hclear.symm.trans hset)

section Search

variable {base : Word} {name : List Byte}

theorem symbolMapped_iff {T : SymbolTables} {i : Nat} : T.SymbolMapped m start size name i ↔
    Mapped m (T.entry i + 4) 1 ∧ (ELF64_R_TYPE (T.info m i) ≠ STT_FILE → Mapped m (T.entry i) 4 ∧
      (T.nameAt m i ≤ start + size → Mapped m (T.entry i + 6) 2) ∧
      (¬ T.GivesUp m start size i → (∀ k < name.length, ComesTo (charAt m (T.nameAt m i)) (fun k => name.getD k 0) k →
        (m (T.nameAt m i + BitVec.ofNat 64 k)).isSome ∧ True) ∧ (T.Starts m name i → Mapped m (T.entry i + 8) 8))) := by
  simp only [and_true]
  constructor
  · rintro ⟨hkind, hname, hindex, htext, hvalue⟩
    exact ⟨hkind, fun hfile => ⟨hname hfile, hindex hfile, fun hgo => ⟨htext hfile hgo, hvalue hfile hgo⟩⟩⟩
  · rintro ⟨hkind, hrest⟩
    exact ⟨hkind, fun hfile => (hrest hfile).1, fun hfile => (hrest hfile).2.1, fun hfile hgo => ((hrest hfile).2.2 hgo).1,
      fun hfile hgo => ((hrest hfile).2.2 hgo).2⟩

/-- The search from symbol number `i` on reads only what is mapped. -/
def MappedFrom (T : SymbolTables) (m : Memory) (start size : Word) (name : List Byte) (n i : Nat) : Prop :=
  ∀ k, i ≤ k → k < i + n → (∀ j, i ≤ j → j < k → ¬ T.Stops m start size name j) → T.SymbolMapped m start size name k

theorem mappedFrom_succ {T : SymbolTables} {n i : Nat} : MappedFrom T m start size name (n + 1) i ↔
    T.SymbolMapped m start size name i ∧ (¬ T.Stops m start size name i → MappedFrom T m start size name n (i + 1)) :=
  forall_while_succ

theorem wp_symbolLoop_find {T : SymbolTables} {n i : Nat} {Q : Word → Memory → Prop} (hheader : Mapped m start 64) :
    wp (symbolLoop start size name T.strings T.symbols base n (BitVec.ofNat 64 i)) Q E m ↔
      Guarded (MappedFrom T m start size name n i)
        (Q (((List.range' i n).find? fun k => T.Stops m start size name k).elim 0 fun k => T.answer m start size base k) m)
        (E .page_fault) := by
  induction n generalizing i with
  | zero =>
    have hnone : MappedFrom T m start size name 0 i := fun k hk hkn => by omega
    rw [guarded_of hnone]
    exact wp_pure ..
  | succ n ih =>
    have hnext : BitVec.ofNat 64 i + 1 = BitVec.ofNat 64 (i + 1) := (BitVec.ofNat_add ..).symm
    have hentry : symbolAt T.symbols (BitVec.ofNat 64 i) = T.entry i := rfl
    have hname : T.strings + wordAt m 4 (T.entry i) = T.nameAt m i := rfl
    have hinfo : wordAt m 1 (T.entry i + 4) = T.info m i := rfl
    have hindex : wordAt m 2 (T.entry i + 6) = T.index m i := rfl
    have hvalue : wordAt m 8 (T.entry i + 8) = T.value m i := rfl
    unfold symbolLoop
    simp only [wp_bind, st_info, st_name, st_index, st_value, wp_load, wp_ite, wp_pure, wp_elf_get_section_index hheader,
      wp_strncmp (reads_pointer _) (reads_constant _), hentry, hname, hinfo, hindex, hvalue, hnext, ih, gt_iff_lt]
    rw [mappedFrom_succ, symbolMapped_iff, List.range'_succ, List.find?_cons]
    -- the symbol is a file, the search gives up, the name starts with the other one, or it does not
    by_cases hfile : ELF64_R_TYPE (T.info m i) = STT_FILE
    · have hgo : ¬ T.Stops m start size name i := fun h => h.1 hfile
      simp only [hfile, ne_eq, not_true_eq_false, if_false, false_implies, and_true, hgo, decide_false, not_false_eq_true,
        true_implies, guarded_guarded]
    · by_cases hup : T.GivesUp m start size i
      · have hstop : T.Stops m start size name i := ⟨hfile, .inl hup⟩
        have hanswer : T.answer m start size base i = 0 := if_pos (.inl hup)
        by_cases hend : start + size < T.nameAt m i
        · simp only [hfile, ne_eq, not_false_eq_true, if_true, hend, hup, hstop, decide_true, Option.elim_some, hanswer,
            not_true_eq_false, false_implies, and_true, true_implies, BitVec.not_le.mpr hend, guarded_guarded]
        · have hnull : sectionIndex m start size (T.index m i) = 0 := hup.resolve_left hend
          simp only [hfile, ne_eq, not_false_eq_true, if_true, hend, if_false, hnull, hup, hstop, decide_true, Option.elim_some,
            hanswer, not_true_eq_false, false_implies, and_true, true_implies, BitVec.not_lt.mp hend, guarded_guarded]
      · obtain ⟨hend, hnull⟩ := not_or.mp hup
        by_cases hstarts : T.Starts m name i
        · have hstop : T.Stops m start size name i := ⟨hfile, .inr hstarts⟩
          have hzero := strncmpValue_zero.mpr hstarts
          by_cases hlocation : start + size < base + T.value m i
          · have hanswer : T.answer m start size base i = 0 := if_pos (.inr hlocation)
            simp only [hfile, ne_eq, not_false_eq_true, if_true, hend, if_false, hnull, hup, hstop, decide_true,
              Option.elim_some, hanswer, hstarts, hzero, hlocation, not_true_eq_false, false_implies, and_true, true_implies,
              BitVec.not_lt.mp hend, guarded_guarded]
          · have hanswer : T.answer m start size base i = base + T.value m i :=
              if_neg (not_or.mpr ⟨hup, hlocation⟩)
            simp only [hfile, ne_eq, not_false_eq_true, if_true, hend, if_false, hnull, hup, hstop, decide_true,
              Option.elim_some, hanswer, hstarts, hzero, hlocation, not_true_eq_false, false_implies, and_true, true_implies,
              BitVec.not_lt.mp hend, guarded_guarded]
        · have hgo : ¬ T.Stops m start size name i := fun h => h.2.elim hup hstarts
          have hnonzero := mt strncmpValue_zero.mp hstarts
          simp only [hfile, ne_eq, not_false_eq_true, if_true, hend, if_false, hnull, hup, hgo, decide_false, hstarts, hnonzero,
            false_implies, and_true, true_implies, BitVec.not_lt.mp hend, guarded_guarded, and_assoc]

end Search

section Lookup

variable {i t : Nat} {name : List Byte} {base : Word}

/-- The tables that are searched. -/
def symbolTables (m : Memory) (start size : Word) : SymbolTables :=
  ⟨stringTable m start size, symbolTable m start size, symbolCount m start size⟩

theorem sameText_mono {f g : Nat → Byte} {k l : Nat} (hkl : k ≤ l) (h : SameText f g l) : SameText f g k :=
  fun j hj hbefore => h j (by omega) hbefore

variable (h : WellFormedSymbols m start size)
include h

theorem mapped_symbol (hi : i < symbolCount m start size) {k l : Nat} (hfit : k + l ≤ 24) :
    Mapped m (symbolEntry m start size i + BitVec.ofNat 64 k) l :=
  mapped_part (mapped_inside h.toWellFormedSections (h.symbols i hi)) hfit

section Fields

variable {Q : Word → Memory → Prop} (hi : i < symbolCount m start size)
include hi

theorem wp_symbol_name : wp (st_name (symbolTable m start size) (BitVec.ofNat 64 i)) Q E m ↔
    Q (wordAt m 4 (symbolEntry m start size i)) m := by
  have hmapped := mapped_symbol h hi (k := 0) (l := 4) (by decide)
  rw [BitVec.add_zero] at hmapped
  exact wp_load.trans (guarded_of hmapped)

theorem wp_symbol_info : wp (st_info (symbolTable m start size) (BitVec.ofNat 64 i)) Q E m ↔ Q (symbolInfo m start size i) m :=
  wp_load.trans (guarded_of (mapped_symbol h hi (k := 4) (by decide)))

theorem wp_symbol_index : wp (st_index (symbolTable m start size) (BitVec.ofNat 64 i)) Q E m ↔ Q (symbolIndex m start size i) m :=
  wp_load.trans (guarded_of (mapped_symbol h hi (k := 6) (by decide)))

theorem wp_symbol_value : wp (st_value (symbolTable m start size) (BitVec.ofNat 64 i)) Q E m ↔ Q (symbolValue m start size i) m :=
  wp_load.trans (guarded_of (mapped_symbol h hi (k := 8) (by decide)))

end Fields

theorem name_le (hi : i < symbolCount m start size) : symbolName m start size i ≤ start + size := by
  obtain ⟨text, -, hinside⟩ := h.symbol_names i hi
  rw [BitVec.le_def, end_toNat h.toWellFormedSections]
  have := hinside.2
  omega

theorem index_ne_zero {index : Word} (hindex : index < sectionCount m start) : sectionIndex m start size index ≠ 0 := by
  obtain ⟨hle, hfit⟩ := header_inside h.toWellFormedSections hindex
  have hend := end_toNat h.toWellFormedSections
  have hlt : sectionHeader m start index < start + size := by
    rw [BitVec.lt_def, hend]
    omega
  unfold sectionIndex
  rw [if_neg (BitVec.not_lt.mpr (table_le h.toWellFormedSections)), if_pos hlt]
  intro hzero
  have hstart : start.toNat ≠ 0 := fun hstart => h.nonnull (BitVec.eq_of_toNat_eq hstart)
  rw [hzero] at hle
  exact hstart (Nat.le_zero.mp hle)

theorem symbolMapped (hi : i < symbolCount m start size) : (symbolTables m start size).SymbolMapped m start size name i := by
  have hname := mapped_symbol h hi (k := 0) (l := 4) (by decide)
  rw [BitVec.add_zero] at hname
  refine ⟨mapped_symbol h hi (k := 4) (by decide), fun _ => hname, fun _ _ => mapped_symbol h hi (k := 6) (by decide),
    fun _ _ k _ hcomes => ?_, fun _ _ _ => mapped_symbol h hi (k := 8) (by decide)⟩
  exact textInside_isSome h.toWellFormedSections (h.symbol_names i hi) fun j hj => (hcomes j hj).2

theorem givesUp_iff (hi : i < symbolCount m start size) : (symbolTables m start size).GivesUp m start size i ↔
    sectionIndex m start size (symbolIndex m start size i) = 0 :=
  or_iff_right (BitVec.not_lt.mpr (name_le h hi))

/-- Before the symbol with the name, the search ends only where it gives up. -/
theorem stops_iff (hi : i < symbolCount m start size) (hit : i ≠ t) (hother : NoOtherName m start size t name) :
    (symbolTables m start size).Stops m start size name i ↔
      ¬ (ELF64_R_TYPE (symbolInfo m start size i) = STT_FILE ∨
        sectionIndex m start size (symbolIndex m start size i) ≠ 0) := by
  have hdiffers : ¬ (symbolTables m start size).Starts m name i :=
    fun hsame => hother i hi hit (sameText_mono (min_le_left ..) hsame)
  rw [not_or, not_not, ← givesUp_iff h hi]
  exact and_congr_right fun _ => or_iff_left hdiffers

theorem wp_symbolLoop (ht : t < symbolCount m start size)
    (hexported : is_exported (symbolInfo m start size t) = true) (hindex : symbolIndex m start size t < sectionCount m start)
    (hname : IsText m (symbolName m start size t) name) (hother : NoOtherName m start size t name)
    (hlocation : base + symbolValue m start size t ≤ start + size) :
    wp (symbolLoop start size name (stringTable m start size) (symbolTable m start size) base (symbolCount m start size) 0)
      (fun v m' => m' = m ∧ (Reachable m start size t → v = base + symbolValue m start size t) ∧
        (¬ Reachable m start size t → v = 0)) E m := by
  have hmapped : MappedFrom (symbolTables m start size) m start size name (symbolCount m start size) 0 :=
    fun k _ hk _ => symbolMapped h (by omega)
  have hup : ¬ (symbolTables m start size).GivesUp m start size t := mt (givesUp_iff h ht).mp (index_ne_zero h hindex)
  have hstarts : (symbolTables m start size).Starts m name t := fun k hk _ => hname.char_eq k hk.le
  have hstops : (symbolTables m start size).Stops m start size name t := ⟨not_file_of_exported hexported, .inr hstarts⟩
  have hbefore : ∀ j < t, ¬ (symbolTables m start size).Stops m start size name j ↔
      ELF64_R_TYPE (symbolInfo m start size j) = STT_FILE ∨ sectionIndex m start size (symbolIndex m start size j) ≠ 0 :=
    fun j hj => (not_congr (stops_iff h (hj.trans ht) hj.ne hother)).trans not_not
  -- the search ends at the symbol or before it
  obtain ⟨k, hfound⟩ : ∃ k, ((List.range' 0 (symbolCount m start size)).find? fun k =>
      (symbolTables m start size).Stops m start size name k) = some k :=
    Option.isSome_iff_exists.mp (List.find?_isSome.mpr
      ⟨t, List.mem_range'_1.mpr ⟨Nat.zero_le _, by omega⟩, decide_eq_true hstops⟩)
  obtain ⟨hk, -, hfirst⟩ := List.find?_range'_eq_some.mp hfound
  have hends : (symbolTables m start size).Stops m start size name k := of_decide_eq_true hk
  have hgoes : ∀ j < k, ¬ (symbolTables m start size).Stops m start size name j := fun j hj =>
    of_decide_eq_false ((Bool.not_eq_true' _).mp (hfirst j (Nat.zero_le j) hj))
  have hle : k ≤ t := Nat.le_of_not_lt fun hlt => hgoes t hlt hstops
  refine (wp_symbolLoop_find (T := symbolTables m start size) (i := 0) (mapped_header h.toWellFormedSections)).mpr ?_
  rw [guarded_of hmapped, hfound]
  refine ⟨rfl, fun hreachable => ?_, fun hnot => ?_⟩
  · have hkt : k = t := hle.eq_or_lt.resolve_right fun hlt => (hbefore k hlt).mpr (hreachable k hlt) hends
    rw [hkt]
    exact if_neg (not_or.mpr ⟨hup, BitVec.not_lt.mpr hlocation⟩)
  · have hlt : k < t := hle.lt_of_ne fun hkt => hnot fun j hj => (hbefore j hj).mp (hgoes j (hkt ▸ hj))
    have hzero := (not_or.mp ((stops_iff h (hlt.trans ht) hlt.ne hother).mp hends)).2
    exact if_pos (.inl ((givesUp_iff h (hlt.trans ht)).mpr (not_not.mp hzero)))

end Lookup

section Agreement

variable {t : Nat} {name : List Byte}

theorem baseOffset_le {k : Word} (hk : k < sectionCount m start) (htype : sectionType m start k ≠ SHT_NULL) :
    baseOffset m start ≤ sectionOffset m start k := by
  have hnat : BitVec.ofNat 64 k.toNat = k := by rw [BitVec.ofNat_toNat, BitVec.setWidth_eq]
  have hle := leastOffset_le m start (n := (sectionCount m start).toNat) (i := 0) (k := k.toNat) ELF_BAD_BASE_ADDRESS
    (Nat.zero_le _) (by have := BitVec.lt_def.mp hk; omega) (by rwa [hnat])
  rwa [hnat] at hle

theorem baseOffset_eq_iff {index : Word} (hindex : index < sectionCount m start)
    (htype : sectionType m start index ≠ SHT_NULL) :
    baseOffset m start = sectionOffset m start index ↔ ∀ k < sectionCount m start, sectionType m start k ≠ SHT_NULL →
      sectionOffset m start index ≤ sectionOffset m start k := by
  constructor
  · intro heq k hk hktype
    rw [← heq]
    exact baseOffset_le hk hktype
  · intro hlowest
    refine BitVec.le_antisymm (baseOffset_le hindex htype) ?_
    rcases leastOffset_eq m start (sectionCount m start).toNat 0 ELF_BAD_BASE_ADDRESS with hbad | ⟨k, -, hk, hktype, heq⟩
    · rw [baseOffset, hbad]
      exact BitVec.le_def.mpr (Nat.le_sub_one_of_lt (sectionOffset m start index).isLt)
    · rw [baseOffset, heq]
      exact hlowest _ (lt_of_toNat_lt (by omega)) hktype

theorem baseOffset_inside (hdefined : DefinedInSection m start size t) :
    (baseOffset m start).toNat + (symbolValue m start size t).toNat ≤ size.toNat := by
  obtain ⟨k, hk, htype, hfit⟩ := hdefined.inside
  have hle := BitVec.le_def.mp (baseOffset_le hk htype)
  omega

variable (h : WellFormedSymbols m start size)
include h

theorem toNat_location (hdefined : DefinedInSection m start size t) :
    (start + baseOffset m start).toNat = start.toNat + (baseOffset m start).toNat ∧
    (start + baseOffset m start + symbolValue m start size t).toNat =
      start.toNat + (baseOffset m start).toNat + (symbolValue m start size t).toNat := by
  have hinside := baseOffset_inside hdefined
  have hwrap := h.no_wrap
  have hbase : (start + baseOffset m start).toNat = start.toNat + (baseOffset m start).toNat := by
    rw [BitVec.toNat_add, Nat.mod_eq_of_lt (by omega)]
  refine ⟨hbase, ?_⟩
  rw [BitVec.toNat_add, hbase, Nat.mod_eq_of_lt (by omega)]

/-- What `elf_get_symbol_address` returns for the name of a symbol. -/
theorem wp_elf_get_symbol_address (hexported : Exported m start size t) (hdefined : DefinedInSection m start size t)
    (hname : IsText m (symbolName m start size t) name) (hother : NoOtherName m start size t name) :
    wp (elf_get_symbol_address start size name) (fun v m' => m' = m ∧
      (Reachable m start size t → v = start + baseOffset m start + symbolValue m start size t) ∧
      (¬ Reachable m start size t → v = 0)) E m := by
  have hw := h.toWellFormedSections
  obtain ⟨hbase, hvalue⟩ := toNat_location h hdefined
  have hinside := baseOffset_inside hdefined
  have hwrap := h.no_wrap
  have hstart : start.toNat ≠ 0 := fun hstart => h.nonnull (BitVec.eq_of_toNat_eq hstart)
  have hgood : baseOffset m start ≠ ELF_BAD_BASE_ADDRESS := by
    intro hbad
    rw [hbad, show ELF_BAD_BASE_ADDRESS.toNat = 2 ^ 64 - 1 from rfl] at hinside
    omega
  have hnonnull : start + baseOffset m start ≠ 0 := by
    intro hzero
    rw [hzero] at hbase
    have hsum : 0 = start.toNat + (baseOffset m start).toNat := hbase
    omega
  have hlocation : start + baseOffset m start + symbolValue m start size t ≤ start + size := by
    rw [BitVec.le_def, hvalue, end_toNat hw]
    omega
  have hstrings : (sectionOf m start size (ascii ".strtab")).1 ≠ 0 := h.stringTable_ne
  have hsymbols : (sectionOf m start size (ascii ".symtab")).1 ≠ 0 := h.symbolTable_ne
  unfold elf_get_symbol_address
  simp only [wp_bind, wp_get_section hw, wp_ite, wp_elf_get_base_address hw, hgood, if_false]
  rw [if_neg hstrings, if_neg hsymbols, if_neg hnonnull]
  exact wp_symbolLoop h hexported.1 hexported.2 hdefined.index.2 hname hother hlocation

end Agreement

/-! ## `module_insert_symbols` -/

theorem wp_hash_str_comp {a b : Word} {Q : Partial → Memory → Prop} : wp (hash_str_comp a b) Q E m ↔
    Guarded (∀ k < Page_Small.toNat, ComesTo (charAt m a) (charAt m b) k →
        (m (a + BitVec.ofNat 64 k)).isSome ∧ (m (b + BitVec.ofNat 64 k)).isSome)
      (Q (strComp m a b) m) (E .page_fault) := by
  unfold hash_str_comp strComp
  rw [wp_bind, wp_strncmp (reads_pointer _) (reads_pointer _)]
  simp only [ne_eq, strncmpValue_zero, wp_ite, wp_pure]
  by_cases hsame : SameText (charAt m a) (charAt m b) Page_Small.toNat
  · simp only [hsame, not_true_eq_false, if_false, if_true]
  · simp only [hsame, not_false_eq_true, if_true, if_false]

section Insert

variable {σ : Type} {kmalloc : Word → Kernel σ Word} {kfree : Word → Kernel σ Unit} {s : SymbolState σ}
  {hash : Word → Word} {comp : Word → Word → Partial} {es : Multiset (Word × Word)} {α : Type}

theorem wp_inMemory {p : Kernel Memory α} {Q : α → SymbolState σ → Prop} :
    wp (inMemory p) Q E s ↔ wp p (fun a memory => Q a { s with memory := memory }) E s.memory := wp_zoom ..

theorem wp_inHeap {p : Kernel σ α} {Q : α → SymbolState σ → Prop} :
    wp (inHeap p) Q E s ↔ wp p (fun a heap => Q a { s with heap := heap }) E s.heap := wp_zoom ..

theorem wp_symbol_put (htable : IsHashtable hash comp s.symbol_table es) (symbol location : Word) :
    wp (symbol_put kmalloc kfree symbol location) (fun status s' => s'.memory = s.memory ∧ (status = .Ok →
      IsHashtable hash comp s'.symbol_table ((symbol, location) ::ₘ es))) (fun _ => True) s := by
  unfold symbol_put
  simp only [wp_bind, wp_get, wp_inHeap, wp_modify, wp_pure]
  refine wp_imp (wp_hashtable_put_memory (F := True) trivial trivial (fun _ _ => wp_any (fun _ _ _ => trivial) fun _ => trivial)
    (fun _ _ => wp_any (fun _ _ => trivial) fun _ => trivial) htable symbol location fun _ => trivial) ?_
  rintro ⟨status, symbol_table⟩ heap hput
  refine ⟨trivial, fun hok => ?_⟩
  rcases hput with ⟨-, -, htable'⟩ | ⟨hfail, -⟩
  · exact htable'
  · exact absurd (hok.symm.trans hfail) (by decide)

/-- The entries `es'` are those of `es` and the addresses of the exported symbols from number `i` to `j`. -/
def Published (m : Memory) (start size : Word) (i j : Nat) (es es' : Multiset (Word × Word)) : Prop :=
  ∀ e, e ∈ es' ↔ e ∈ es ∨ ∃ k, i ≤ k ∧ k < j ∧ is_exported (symbolInfo m start size k) = true ∧
    e = (symbolName m start size k, publishedAddress m start size k)

theorem published_refl {i : Nat} : Published m start size i i es es :=
  fun e => ⟨.inl, fun he => he.resolve_right fun ⟨k, hik, hki, _⟩ => by omega⟩

theorem Published.skip {i j : Nat} {es' : Multiset (Word × Word)}
    (hnot : ¬ is_exported (symbolInfo m start size i) = true) (h : Published m start size (i + 1) j es es') :
    Published m start size i j es es' := by
  intro e
  rw [h e]
  refine or_congr_right ⟨fun ⟨k, hik, hkj, hk⟩ => ⟨k, by omega, hkj, hk⟩, fun ⟨k, hik, hkj, hk⟩ => ⟨k, ?_, hkj, hk⟩⟩
  rcases Nat.eq_or_lt_of_le hik with rfl | hlt
  · exact absurd hk.1 hnot
  · exact hlt

theorem Published.cons {i j : Nat} {es' : Multiset (Word × Word)} (hij : i < j)
    (hexported : is_exported (symbolInfo m start size i) = true)
    (h : Published m start size (i + 1) j ((symbolName m start size i, publishedAddress m start size i) ::ₘ es) es') :
    Published m start size i j es es' := by
  intro e
  rw [h e, Multiset.mem_cons]
  constructor
  · rintro ((rfl | he) | ⟨k, hik, hkj, hk⟩)
    · exact .inr ⟨i, le_rfl, hij, hexported, rfl⟩
    · exact .inl he
    · exact .inr ⟨k, by omega, hkj, hk⟩
  · rintro (he | ⟨k, hik, hkj, hk⟩)
    · exact .inl (.inr he)
    · rcases Nat.eq_or_lt_of_le hik with rfl | hlt
      · exact .inl (.inl hk.2)
      · exact .inr ⟨k, hlt, hkj, hk⟩

theorem sectionIndex_eq {index : Word} (hne : sectionIndex m start size index ≠ 0) :
    sectionIndex m start size index = sectionHeader m start index := by
  unfold sectionIndex at hne ⊢
  split
  · rename_i htable
    exact absurd (if_pos htable) hne
  · rename_i htable
    rw [if_neg htable] at hne
    split
    · rfl
    · rename_i hend
      exact absurd (if_neg hend) hne

theorem wp_insertSymbolsLoop {n i : Nat} (hheader : Mapped m start 64) (hm : s.memory = m)
    (htable : IsHashtable hash comp s.symbol_table es) :
    wp (insertSymbolsLoop kmalloc kfree start size (stringTable m start size) (symbolTable m start size) n (BitVec.ofNat 64 i))
      (fun status s' => status = .Ok → s'.memory = m ∧
        ∃ es', IsHashtable hash comp s'.symbol_table es' ∧ Published m start size i (i + n) es es') (fun _ => True) s := by
  induction n generalizing i s es with
  | zero => exact (wp_pure ..).mpr fun _ => ⟨hm, es, htable, published_refl⟩
  | succ n ih =>
    have hentry : symbolAt (symbolTable m start size) (BitVec.ofNat 64 i) = symbolEntry m start size i := rfl
    have hnameAt : stringTable m start size + wordAt m 4 (symbolEntry m start size i) = symbolName m start size i := rfl
    have hinfoAt : wordAt m 1 (symbolEntry m start size i + 4) = symbolInfo m start size i := rfl
    have hindexAt : wordAt m 2 (symbolEntry m start size i + 6) = symbolIndex m start size i := rfl
    have hvalueAt : wordAt m 8 (symbolEntry m start size i + 8) = symbolValue m start size i := rfl
    have hnext : BitVec.ofNat 64 i + 1 = BitVec.ofNat 64 (i + 1) := (BitVec.ofNat_add ..).symm
    have hcount : i + 1 + n = i + (n + 1) := by omega
    unfold insertSymbolsLoop
    simp only [wp_bind, wp_inMemory, st_info, st_name, st_index, st_value, wp_load, hm, hentry, hnameAt, hinfoAt, hindexAt, hvalueAt,
      wp_ite, hnext, wp_elf_get_section_index hheader, wp_pure]
    refine ⟨fun _ => ?_, fun _ => trivial⟩
    split
    · rename_i hexported
      refine ⟨fun _ => ?_, fun _ => trivial⟩
      split
      · exact fun hok => absurd hok (by decide)
      · rename_i hindex
        refine ⟨fun _ => ⟨fun _ => ⟨fun _ => ?_, fun _ => trivial⟩, fun _ => trivial⟩, fun _ => trivial⟩
        refine wp_imp (wp_symbol_put (s := { s with memory := m }) htable _ _) ?_
        rintro status s' ⟨hm', hput⟩
        split
        · rename_i hfail
          exact fun hok => absurd hok hfail
        · rename_i hok
          have htable' := hput (not_not.mp hok)
          rw [sectionIndex_eq hindex] at htable'
          refine wp_imp (ih hm' htable') fun status s'' hrest hok => ?_
          obtain ⟨hm'', es', htable'', hpublished⟩ := hrest hok
          rw [hcount] at hpublished
          exact ⟨hm'', es', htable'', hpublished.cons (by omega) hexported⟩
    · rename_i hnot
      refine wp_imp (ih (s := { s with memory := m }) rfl htable) fun status s' hrest hok => ?_
      obtain ⟨hm', es', htable', hpublished⟩ := hrest hok
      rw [hcount] at hpublished
      exact ⟨hm', es', htable', hpublished.skip hnot⟩

/-- The symbol table after a call that returns `Ok`. -/
theorem insert_published {s' : SymbolState σ} (h : WellFormedSymbols s.memory start size)
    (htable : IsHashtable hash comp s.symbol_table es)
    (hrun : (module_insert_symbols kmalloc kfree start size).run s = .ok (.Ok, s')) :
    ∃ es', IsHashtable hash comp s'.symbol_table es' ∧
      Published s.memory start size 0 (symbolCount s.memory start size) es es' := by
  have hw := h.toWellFormedSections
  have hstrings : (sectionOf s.memory start size (ascii ".strtab")).1 ≠ 0 := h.stringTable_ne
  have hsymbols : (sectionOf s.memory start size (ascii ".symtab")).1 ≠ 0 := h.symbolTable_ne
  have hwp : wp (module_insert_symbols kmalloc kfree start size) (fun status s' => status = .Ok →
      ∃ es', IsHashtable hash comp s'.symbol_table es' ∧
        Published s.memory start size 0 (symbolCount s.memory start size) es es') (fun _ => True) s := by
    unfold module_insert_symbols
    simp only [wp_bind, wp_inMemory, wp_get_section hw, wp_ite, wp_pure]
    rw [if_neg hstrings, if_neg hsymbols]
    refine wp_imp (wp_insertSymbolsLoop (i := 0) (mapped_header hw) rfl htable) fun status s' hloop => ?_
    split
    · rename_i hfail
      exact wp_any (fun _ _ hok => absurd hok hfail) fun _ => trivial
    · intro hok
      obtain ⟨-, es', htable', hpublished⟩ := hloop hok
      rw [Nat.zero_add] at hpublished
      exact ⟨es', htable', hpublished⟩
  have hok := wp_ok hwp hrun
  exact hok rfl

/-- The table takes two names for the same only when one starts with what it looks at of the other. -/
theorem strComp_ne {t j : Nat} {name : List Byte} (hname : IsText m (symbolName m start size t) name)
    (hother : NoOtherName m start size t name) (hj : j < symbolCount m start size) (hne : j ≠ t) :
    strComp m (symbolName m start size t) (symbolName m start size j) ≠ .Partial_Equal := by
  intro hcomp
  have hsame : SameText (charAt m (symbolName m start size t)) (charAt m (symbolName m start size j)) Page_Small.toNat := by
    by_contra hdiffers
    rw [strComp, if_neg hdiffers] at hcomp
    cases hcomp
  refine hother j hj hne fun k hk _ => ?_
  have hlen : k < name.length := Nat.lt_of_lt_of_le hk (min_le_left ..)
  refine Eq.trans (hsame k (Nat.lt_of_lt_of_le hk (min_le_right ..)) fun j hjk => ?_).symm (hname.char_eq k hlen.le)
  rw [hname.char_eq j (by omega)]
  exact hname.no_nul j (by omega)

theorem strComp_self (p : Word) : strComp m p p = .Partial_Equal := if_pos fun _ _ _ => rfl

theorem symbol_get_eq {s' s'' : SymbolState σ} {t : Nat} {name : List Byte} {es' : Multiset (Word × Word)} {v : Word}
    (htable : IsHashtable hash (strComp m) s'.symbol_table es')
    (hpublished : Published m start size 0 (symbolCount m start size) es es')
    (ht : Exported m start size t) (hname : IsText m (symbolName m start size t) name)
    (hother : NoOtherName m start size t name)
    (hnew : ∀ e ∈ es, strComp m (symbolName m start size t) e.1 ≠ .Partial_Equal)
    (hrun : (symbol_get (symbolName m start size t)).run s' = .ok (v, s'')) : v = publishedAddress m start size t := by
  have honly : ∀ e ∈ es', strComp m (symbolName m start size t) e.1 = .Partial_Equal →
      e = (symbolName m start size t, publishedAddress m start size t) := by
    intro e he hcomp
    rcases (hpublished e).mp he with he | ⟨k, -, hk, -, rfl⟩
    · exact absurd hcomp (hnew e he)
    · by_cases hkt : k = t
      · rw [hkt]
      · exact absurd hcomp (strComp_ne hname hother hk hkt)
  have hmem : (symbolName m start size t, publishedAddress m start size t) ∈ es' :=
    (hpublished _).mpr (.inr ⟨t, Nat.zero_le _, ht.1, ht.2, rfl⟩)
  have hwp : wp (symbol_get (symbolName m start size t)) (fun v _ => v = publishedAddress m start size t)
      (fun _ => True) s' := by
    unfold symbol_get
    simp only [wp_bind, wp_get, wp_inHeap]
    refine wp_imp (wp_hashtable_get htable (fun _ => trivial) (fun e he hcomp => by rw [honly e he hcomp]) fun _ => trivial) ?_
    rintro v heap ⟨-, ⟨k, hk, hcomp⟩ | ⟨-, hnone⟩⟩
    · exact congrArg Prod.snd (honly _ hk hcomp)
    · exact absurd (strComp_self _) (hnone _ hmem)
  have hv := wp_ok hwp hrun
  exact hv

theorem published_ne_zero {t : Nat} (h : WellFormedSymbols m start size) (hdefined : DefinedInSection m start size t) :
    publishedAddress m start size t ≠ 0 := by
  intro hzero
  have hwrap := hdefined.no_wrap
  have hstart : start.toNat ≠ 0 := fun hstart => h.nonnull (BitVec.eq_of_toNat_eq hstart)
  have hsum := congrArg BitVec.toNat hzero
  rw [publishedAddress, BitVec.toNat_add, BitVec.toNat_add, Nat.mod_eq_of_lt (a := _ + _) (by omega),
    Nat.mod_eq_of_lt (by omega), show (0 : Word).toNat = 0 from rfl] at hsum
  omega

end Insert

/-! ## A module with two sections -/

def withBytes (m : Memory) (a : Word) (bs : List Byte) : Memory := fun x => bs[(x - a).toNat]?.or (m x)

def withSection (m : Memory) (header name type offset size : Word) : Memory :=
  stored (stored (stored (stored m 4 header name) 4 (header + 4) type) 8 (header + 24) offset) 8 (header + 32) size

def withSymbol (m : Memory) (entry name info index value : Word) : Memory :=
  stored (stored (stored (stored m 4 entry name) 1 (entry + 4) info) 2 (entry + 6) index) 8 (entry + 8) value

def names : List Byte :=
  ["", ".symtab", ".strtab", ".a", ".b", "f", "g"].flatMap fun name => ascii name ++ [0]

/-- An image of 461 bytes at 0x1000: two sections of one byte at 0x1180 and 0x1181 with one symbol each, the function `f`
and the object `g`, and the two tables. -/
def twoSections : Memory :=
  let m := filled (fun _ => none) 0x1000 461 0
  let m := stored (stored (stored (stored m 8 0x1028 64) 2 0x103a 64) 2 0x103c 5) 2 0x103e 4
  let m := withSection (withSection m 0x1080 17 1 0x180 1) 0x10c0 20 1 0x181 1
  let m := withSection (withSection m 0x1100 1 2 0x19d 48) 0x1140 9 3 0x182 27
  withSymbol (withSymbol (withBytes m 0x1182 names) 0x119d 23 0x12 1 0) 0x11b5 25 0x11 2 0

def twoState : SymbolState Unit where
  memory := twoSections
  symbol_table := ⟨0, 32, id, strComp twoSections, .zeroed 0x1000 (32 * hashdataSize)⟩
  heap := ()

instance (start size a : Word) (n : Nat) : Decidable (Inside start size a n) := inferInstanceAs (Decidable (_ ∧ _))

/-- The text is at `p`, inside of the image. -/
abbrev TextAt (m : Memory) (start size p : Word) (text : List Byte) : Prop :=
  (∀ k ≤ text.length, charAt m p k = text.getD k 0) ∧ (∀ k < text.length, text.getD k 0 ≠ 0) ∧
    Inside start size p (text.length + 1)

theorem textInside_of {p : Word} (text : List Byte) (h : TextAt m start size p text) : TextInside m start size p :=
  ⟨text, ⟨h.1, h.2.1⟩, h.2.2⟩

/-- All that is to be looked up in an image whose sections have these names. -/
theorem wellFormedSections_of (names : List (List Byte)) (hmapped : Mapped m start size.toNat)
    (h : (start ≠ 0 ∧ start.toNat + size.toNat < 2 ^ 64 ∧ 64 ≤ size.toNat) ∧ wordAt m 2 (start + 58) = sectionHeaderSize ∧
      Inside start size (sectionTable m start) (64 * (sectionCount m start).toNat) ∧
      nameTableIndex m start < sectionCount m start ∧ (sectionCount m start).toNat = names.length ∧
      ∀ i < names.length, TextAt m start size (sectionName m start (BitVec.ofNat 64 i)) (names.getD i [])) :
    WellFormedSections m start size := by
  obtain ⟨⟨hnonnull, hwrap, hheader⟩, hsize, htable, hindex, hcount, hnames⟩ := h
  refine ⟨hmapped, hnonnull, hwrap, hheader, hsize, htable, hindex, fun i hi => ?_⟩
  have hi' : i.toNat < names.length := hcount ▸ hi
  have htext := hnames i.toNat hi'
  rw [BitVec.ofNat_toNat, BitVec.setWidth_eq] at htext
  exact textInside_of _ htext

theorem wellFormedSymbols_of (names : List (List Byte)) (hsections : WellFormedSections m start size)
    (h : stringTable m start size ≠ 0 ∧ symbolTable m start size ≠ 0 ∧ symbolCount m start size = names.length ∧
      ∀ i < names.length, Inside start size (symbolEntry m start size i) 24 ∧
        TextAt m start size (symbolName m start size i) (names.getD i [])) : WellFormedSymbols m start size := by
  obtain ⟨hstrings, hsymbols, hcount, hnames⟩ := h
  refine ⟨hsections, hstrings, hsymbols, fun i hi => ?_, fun i hi => ?_⟩
  · exact (hnames i (hcount ▸ hi)).1
  · exact textInside_of _ (hnames i (hcount ▸ hi)).2

theorem mapped_withBytes {a b : Word} {bs : List Byte} {n : Nat} (h : Mapped m a n) : Mapped (withBytes m b bs) a n := by
  intro i hi
  unfold withBytes
  rw [Option.isSome_or, h i hi, Bool.or_true]

theorem mapped_zeros {a : Word} {n : Nat} (hn : n < 2 ^ 64) : Mapped (filled (fun _ => none) a n 0) a n := by
  intro i hi
  have hcovers : (a + BitVec.ofNat 64 i - a).toNat < n := (covers_iff hn.le).mpr ⟨i, hi, rfl⟩
  unfold filled
  rw [if_pos hcovers]
  rfl

theorem twoSections_wellFormed : WellFormedSymbols twoSections 0x1000 461 := by
  refine wellFormedSymbols_of [ascii "f", ascii "g"] (wellFormedSections_of
    [[], ascii ".a", ascii ".b", ascii ".symtab", ascii ".strtab"] ?_ (by decide +kernel)) (by decide +kernel)
  unfold twoSections withSymbol withSection
  repeat first | apply mapped_stored | apply mapped_withBytes
  exact mapped_zeros (by decide)

end KernelOfTruth.Symbols
