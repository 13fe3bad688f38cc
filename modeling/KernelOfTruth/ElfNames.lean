import KernelOfTruth.Symbols
import KernelOfTruth.Spec.ElfNames

/-!
# Exact lookups by name

Both lookups compare as many characters as the name has that is looked for, and not the NUL behind them. So they take the
first name that starts with it.
-/

open KernelOfTruth.Lib KernelOfTruth.Code KernelOfTruth.Spec KernelOfTruth.Strings KernelOfTruth.Elf KernelOfTruth.Symbols

namespace KernelOfTruth.ElfNames

variable {m : Memory} {start size base : Word} {name : List Byte} {E : Halt → Prop}

/-! ## Sections -/

theorem sectionFrom_eq (n i : Nat) : sectionFrom m start size name n (BitVec.ofNat 64 i) =
    ((List.range' i n).find? fun k => Named m start size name (BitVec.ofNat 64 k)).elim (0, 0) fun k =>
      if start + sectionOffset m start (BitVec.ofNat 64 k) > start + size then (0, 0) else sectionContents m start k := by
  induction n generalizing i with
  | zero => rfl
  | succ n ih =>
    have hnext : BitVec.ofNat 64 i + 1 = BitVec.ofNat 64 (i + 1) := (BitVec.ofNat_add ..).symm
    unfold sectionFrom
    rw [List.range'_succ, List.find?_cons, hnext, ih]
    by_cases hnamed : Named m start size name (BitVec.ofNat 64 i)
    · simp only [hnamed, if_true, decide_true, Option.elim_some]
      rfl
    · simp only [hnamed, if_false, decide_false]

theorem contents_toNat (h : WellFormedImage m start size) {k : Nat} (hk : k < (sectionCount m start).toNat) :
    (start + sectionOffset m start (BitVec.ofNat 64 k)).toNat =
      start.toNat + (sectionOffset m start (BitVec.ofNat 64 k)).toNat := by
  have hle := BitVec.le_def.mp (h.contents _ (lt_of_toNat_lt hk))
  have hwrap := h.no_wrap
  rw [BitVec.toNat_add, Nat.mod_eq_of_lt (by omega)]

theorem sectionOf_eq (h : WellFormedImage m start size) (name : List Byte) :
    sectionOf m start size name = (sectionStarting m start size name).elim (0, 0) (sectionContents m start) := by
  have hfits : TablesFit m start size := ⟨table_le h.toWellFormedSections, h.name_table⟩
  have hzero : (0 : Word) = BitVec.ofNat 64 0 := rfl
  unfold sectionOf
  rw [if_pos hfits, hzero, sectionFrom_eq, ← List.range_eq_range']
  unfold sectionStarting
  cases hfound : (List.range (sectionCount m start).toNat).find? fun k => Named m start size name (BitVec.ofNat 64 k) with
  | none => rfl
  | some k =>
    have hk : k < (sectionCount m start).toNat := List.mem_range.mp (List.mem_of_find?_eq_some hfound)
    have hle : start + sectionOffset m start (BitVec.ofNat 64 k) ≤ start + size := by
      rw [BitVec.le_def, contents_toNat h hk, end_toNat h.toWellFormedSections]
      exact Nat.add_le_add_left (h.contents _ (lt_of_toNat_lt hk)) _
    simp only [Option.elim_some, gt_iff_lt, BitVec.not_lt.mpr hle, if_false]

theorem sectionStarting_lt {k : Nat} (hk : sectionStarting m start size name = some k) :
    k < (sectionCount m start).toNat := List.mem_range.mp (List.mem_of_find?_eq_some hk)

theorem sectionContents_ne (h : WellFormedImage m start size) {k : Nat} (hk : k < (sectionCount m start).toNat) :
    (sectionContents m start k).1 ≠ 0 := by
  intro hzero
  have hstart : start.toNat ≠ 0 := fun hstart => h.nonnull (BitVec.eq_of_toNat_eq hstart)
  have hsum := contents_toNat h hk
  have hnat : (start + sectionOffset m start (BitVec.ofNat 64 k)).toNat = 0 := congrArg BitVec.toNat hzero
  omega

/-! ## Both lookups -/

section Lookups

variable (h : WellFormedImage m start size)
include h

theorem base_ne : baseOffset m start ≠ ELF_BAD_BASE_ADDRESS ∧ start + baseOffset m start ≠ 0 := by
  obtain ⟨k, hk, htype⟩ := h.active
  have hle := BitVec.le_def.mp (BitVec.le_trans (baseOffset_le hk htype) (h.contents k hk))
  have hwrap := h.no_wrap
  have hstart : start.toNat ≠ 0 := fun hstart => h.nonnull (BitVec.eq_of_toNat_eq hstart)
  constructor
  · intro hbad
    rw [hbad, show ELF_BAD_BASE_ADDRESS.toNat = 2 ^ 64 - 1 from rfl] at hle
    omega
  · intro hzero
    have hsum : (start + baseOffset m start).toNat = start.toNat + (baseOffset m start).toNat := by
      rw [BitVec.toNat_add, Nat.mod_eq_of_lt (by omega)]
    rw [hzero, show (0 : Word).toNat = 0 from rfl] at hsum
    omega

theorem wp_get_symbol_address {Q : Word → Memory → Prop} : wp (elf_get_symbol_address start size name) Q E m ↔
    match tablesBy m start (sectionStarting m start size) with
    | none => Q 0 m
    | some T => Guarded (T.SearchMapped m start size name) (Q (T.found m start size (start + baseOffset m start) name) m)
      (E .page_fault) := by
  have hw := h.toWellFormedSections
  obtain ⟨hgood, hbase⟩ := base_ne h
  have hzero : (0 : Word) = BitVec.ofNat 64 0 := rfl
  unfold elf_get_symbol_address tablesBy
  simp only [wp_bind, wp_get_section hw, wp_ite, wp_pure, wp_elf_get_base_address hw, hgood, if_false, hbase, sectionOf_eq h]
  cases hstrings : sectionStarting m start size (ascii ".strtab") with
  | none => rfl
  | some s =>
    cases hsymbols : sectionStarting m start size (ascii ".symtab") with
    | none =>
      have hs := sectionContents_ne h (sectionStarting_lt hstrings)
      simp only [Option.elim_some, Option.elim_none, hs, if_false, if_true]
      rfl
    | some t =>
      have hs := sectionContents_ne h (sectionStarting_lt hstrings)
      have ht := sectionContents_ne h (sectionStarting_lt hsymbols)
      let T : SymbolTables := ⟨(sectionContents m start s).1, (sectionContents m start t).1,
        ((sectionContents m start t).2 / symbolSize).toNat⟩
      have hmapped : MappedFrom T m start size name T.count 0 ↔ T.SearchMapped m start size name := by
        constructor
        · exact fun hfrom k hk hbefore => hfrom k (Nat.zero_le _) (by omega) fun j _ hj => hbefore j hj
        · exact fun hall k _ hk hbefore => hall k (by omega) fun j hj => hbefore j (Nat.zero_le _) hj
      simp only [Option.elim_some, hs, ht, if_false]
      refine (wp_symbolLoop_find (T := T) (i := 0) (mapped_header hw)).trans ?_
      rw [hmapped, ← List.range_eq_range']
      rfl

theorem section_exact_iff : (∃ r, (elf_get_section start size name).run m = .ok (r, m) ∧
    match sectionNamed m start name with
    | some i => r = sectionContents m start i
    | none => r.1 = 0) ↔
    (sectionStarting m start size name).map (sectionContents m start) =
      (sectionNamed m start name).map (sectionContents m start) := by
  have hrun : (elf_get_section start size name).run m = .ok (sectionOf m start size name, m) :=
    run_eq_ok_iff.mpr ((wp_get_section h.toWellFormedSections).mpr ⟨rfl, rfl⟩)
  have hresult : ∀ {P : Word × Word → Prop}, (∃ r, (elf_get_section start size name).run m = .ok (r, m) ∧ P r) ↔
      P (sectionOf m start size name) := by
    intro P
    rw [hrun]
    simp
  rw [hresult, sectionOf_eq h]
  cases hstarting : sectionStarting m start size name with
  | none =>
    cases hnamed : sectionNamed m start name with
    | none => simp
    | some i =>
      have hi : i < (sectionCount m start).toNat := List.mem_range.mp (List.mem_of_find?_eq_some hnamed)
      have hne := sectionContents_ne h hi
      simp only [Option.elim_none, Option.map_none, Option.map_some, reduceCtorEq, iff_false]
      exact fun heq => hne (congrArg Prod.fst heq).symm
  | some k =>
    cases hnamed : sectionNamed m start name with
    | none =>
      have hne := sectionContents_ne h (sectionStarting_lt hstarting)
      simp only [Option.elim_some, Option.map_none, Option.map_some, reduceCtorEq, iff_false]
      exact hne
    | some i => simp

theorem symbol_exact_iff {address : Word} : (elf_get_symbol_address start size name).run m = .ok (address, m) ↔
    (∀ T, tablesBy m start (sectionStarting m start size) = some T → T.SearchMapped m start size name) ∧
    (tablesBy m start (sectionStarting m start size)).elim 0
      (fun T => T.found m start size (start + baseOffset m start) name) = address := by
  rw [run_eq_ok_iff, wp_get_symbol_address h]
  cases tablesBy m start (sectionStarting m start size) with
  | none => simp
  | some T => simp [guarded_false]

/-- In the right tables the search does not leave the image. -/
theorem searchMapped_of_named {T : SymbolTables} (hT : tablesBy m start (sectionNamed m start) = some T) (name : List Byte) :
    T.SearchMapped m start size name := by
  intro i hi _
  obtain ⟨hentry, htext⟩ := h.symbols T hT i hi
  have hmapped := mapped_inside h.toWellFormedSections hentry
  refine ⟨mapped_part hmapped (k := 4) (by decide), fun _ => ?_, fun _ _ => mapped_part hmapped (k := 6) (by decide),
    fun _ _ k _ hcomes => ?_, fun _ _ _ => mapped_part hmapped (k := 8) (by decide)⟩
  · have hname := mapped_part hmapped (k := 0) (n := 4) (by decide)
    rwa [BitVec.add_zero] at hname
  · exact textInside_isSome h.toWellFormedSections htext fun j hj => (hcomes j hj).2

end Lookups

/-! ## Names that start with other names -/

/-- An image of 482 bytes at 0x1000, like `twoSections`: the sections `.init_array` and `.init` at 0x1180 and 0x1181 with
one symbol each, `log_line` and `log`. -/
def longerNames : Memory :=
  let m := filled (fun _ => none) 0x1000 482 0
  let m := stored (stored (stored (stored m 8 0x1028 64) 2 0x103a 64) 2 0x103c 5) 2 0x103e 4
  let m := withSection (withSection m 0x1080 17 1 0x180 1) 0x10c0 29 1 0x181 1
  let m := withSection (withSection m 0x1100 1 2 0x1b2 48) 0x1140 9 3 0x182 48
  let m := withBytes m 0x1182 (["", ".symtab", ".strtab", ".init_array", ".init", "log_line", "log"].flatMap (ascii · ++ [0]))
  withSymbol (withSymbol m 0x11b2 35 0x12 1 0) 0x11ca 44 0x11 2 1

theorem forall_sections {P : Word → Prop} {n : Nat} (hcount : (sectionCount m start).toNat = n)
    (h : ∀ i < n, P (BitVec.ofNat 64 i)) : ∀ i < sectionCount m start, P i := by
  intro i hi
  have hP := h i.toNat (hcount ▸ hi)
  rwa [BitVec.ofNat_toNat, BitVec.setWidth_eq] at hP

theorem longerNames_sections : WellFormedSections longerNames 0x1000 482 := by
  refine wellFormedSections_of [[], ascii ".init_array", ascii ".init", ascii ".symtab", ascii ".strtab"] ?_ (by decide +kernel)
  unfold longerNames withSymbol withSection
  repeat first | apply mapped_stored | apply mapped_withBytes
  exact mapped_zeros (by decide)

def longerTables : SymbolTables := ⟨0x1182, 0x11b2, 2⟩

theorem longerNames_tables : tablesBy longerNames 0x1000 (sectionNamed longerNames 0x1000) = some longerTables ∧
    tablesBy longerNames 0x1000 (sectionStarting longerNames 0x1000 482) = some longerTables := by
  decide +kernel

theorem longerNames_image : WellFormedImage longerNames 0x1000 482 := by
  have hsections : (sectionCount longerNames 0x1000).toNat = 5 ∧ sectionType longerNames 0x1000 1 ≠ SHT_NULL ∧
      (∀ i < 5, sectionOffset longerNames 0x1000 (BitVec.ofNat 64 i) ≤ 482) ∧ nameTable longerNames 0x1000 < 0x1000 + 482 := by
    decide +kernel
  obtain ⟨hcount, htype, hcontents, hnames⟩ := hsections
  refine ⟨longerNames_sections, ⟨1, ?_, htype⟩, forall_sections hcount hcontents, hnames, fun T hT i hi => ?_⟩
  · rw [BitVec.lt_def, hcount]
    decide
  · obtain rfl : longerTables = T := Option.some.inj (longerNames_tables.1.symm.trans hT)
    have hall : ∀ i < 2, Inside 0x1000 482 (longerTables.entry i) 24 ∧
        TextAt longerNames 0x1000 482 (longerTables.nameAt longerNames i) ([ascii "log_line", ascii "log"].getD i []) := by
      decide +kernel
    exact ⟨(hall i hi).1, textInside_of _ (hall i hi).2⟩

end KernelOfTruth.ElfNames
