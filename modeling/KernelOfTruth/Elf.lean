import KernelOfTruth.Strings
import KernelOfTruth.Spec.Elf

/-!
# Reading an ELF image

One exact rule for each function that reads an image: what it needs, and what it returns.
-/

open KernelOfTruth.Lib KernelOfTruth.Code KernelOfTruth.Spec KernelOfTruth.Strings

namespace KernelOfTruth.Elf

variable {m : Memory} {start size : Word} {E : Halt → Prop}

/-! ## The header -/

section Header

variable (hheader : Mapped m start 64) {Q : Word → Memory → Prop}
include hheader

theorem wp_e_type : wp (e_type start) Q E m ↔ Q (wordAt m 2 (start + 16)) m :=
  wp_load.trans (guarded_of (mapped_part hheader (k := 16) (by decide)))

theorem wp_e_machine : wp (e_machine start) Q E m ↔ Q (wordAt m 2 (start + 18)) m :=
  wp_load.trans (guarded_of (mapped_part hheader (k := 18) (by decide)))

theorem wp_e_version : wp (e_version start) Q E m ↔ Q (wordAt m 4 (start + 20)) m :=
  wp_load.trans (guarded_of (mapped_part hheader (k := 20) (by decide)))

theorem wp_e_shoff : wp (e_shoff start) Q E m ↔ Q (wordAt m 8 (start + 40)) m :=
  wp_load.trans (guarded_of (mapped_part hheader (k := 40) (by decide)))

theorem wp_e_shnum : wp (e_shnum start) Q E m ↔ Q (sectionCount m start) m :=
  wp_load.trans (guarded_of (mapped_part hheader (k := 60) (by decide)))

theorem wp_e_shstrndx : wp (e_shstrndx start) Q E m ↔ Q (nameTableIndex m start) m :=
  wp_load.trans (guarded_of (mapped_part hheader (k := 62) (by decide)))

end Header

theorem wp_elf_verify {Q : Bool → Memory → Prop} (hheader : headerSize < size → Mapped m start 64) :
    wp (elf_verify start size) Q E m ↔ Q (decide (Verified m start size)) m := by
  unfold elf_verify
  rw [wp_ite]
  split
  · rename_i hsmall
    have hnot : ¬ Verified m start size := fun h => absurd h.1 (BitVec.not_lt.mpr hsmall)
    rw [wp_pure, decide_eq_false hnot]
  · rename_i hbig
    have hsize : headerSize < size := BitVec.not_le.mp hbig
    have hmapped := hheader hsize
    have hmagic : ∀ k < 4, (m (start + BitVec.ofNat 64 k)).isSome ∧ True := fun k hk => ⟨hmapped k (by omega), trivial⟩
    have hclass : (m (start + 4)).isSome := hmapped 4 (by decide)
    unfold elf_verify_x86_64_compatible
    simp only [wp_bind, wp_memcmp (reads_pointer _) (reads_constant _) hmagic, wp_e_version hmapped, wp_e_machine hmapped,
      wp_e_shstrndx hmapped, wp_e_shnum hmapped, wp_ite, wp_pure, wp_loadByte, guarded_of hclass]
    have hverified : Verified m start size ↔ memcmpValue (charAt m start) (fun k => ELFMAG.getD k 0) 4 0 = 0 ∧
        wordAt m 4 (start + 20) = EV_CURRENT ∧ wordAt m 2 (start + 18) = EM_X86_64 ∧ byteAt m (start + 4) = ELFCLASS64 ∧
        nameTableIndex m start ≤ sectionCount m start := by
      rw [memcmpValue_zero]
      exact ⟨fun h => h.2, fun h => ⟨hsize, h⟩⟩
    by_cases h : Verified m start size
    · obtain ⟨hcmp, hversion, hmachine, hclass', hindex⟩ := hverified.mp h
      rw [decide_eq_true h]
      simp only [hcmp, hversion, hmachine, hclass', ne_eq, not_true_eq_false, if_false, if_true, decide_true, Bool.not_true,
        Bool.false_eq_true, gt_iff_lt, BitVec.not_lt.mpr hindex]
    · rw [decide_eq_false h]
      split_ifs with hcmp hversion hmachine hclass' hindex hfalse
      all_goals try rfl
      · exact absurd (hverified.mpr ⟨not_not.mp hcmp, not_not.mp hversion, hmachine, by simpa using hclass',
          BitVec.not_lt.mp hindex⟩) h
      all_goals exact absurd rfl hfalse

/-! ## `elf_get_section` -/

section Section

variable {name : List Byte} {Q : Word × Word → Memory → Prop}

/-- The loop of `elf_get_section` stays inside of the image, for the `n` sections from number `i` on. -/
def LoopInside (m : Memory) (start size : Word) (name : List Byte) (n : Nat) (i : Word) : Prop :=
  ∀ k < n, (∀ j < k, ¬ Named m start size name (i + BitVec.ofNat 64 j)) →
    SectionInside m start size name (i + BitVec.ofNat 64 k)

theorem loopInside_succ {n : Nat} {i : Word} : LoopInside m start size name (n + 1) i ↔
    SectionInside m start size name i ∧ (¬ Named m start size name i → LoopInside m start size name n (i + 1)) := by
  unfold LoopInside
  constructor
  · intro h
    refine ⟨by simpa using h 0 (by omega) (by simp), fun hnot k hk hbefore => ?_⟩
    rw [next_address]
    refine h (k + 1) (by omega) fun j hj => ?_
    cases j with
    | zero => simpa using hnot
    | succ j =>
      rw [← next_address]
      exact hbefore j (by omega)
  · rintro ⟨hfirst, hrest⟩ k hk hbefore
    cases k with
    | zero => simpa using hfirst
    | succ k =>
      rw [← next_address]
      refine hrest (by simpa using hbefore 0 (by omega)) k (by omega) fun j hj => ?_
      rw [next_address]
      exact hbefore (j + 1) (by omega)

theorem sectionInside_iff {i : Word} : SectionInside m start size name i ↔
    Mapped m (sectionHeader m start i) 4 ∧
    (sectionName m start i < start + size → ∀ k < name.length,
      ComesTo (fun k => name.getD k 0) (charAt m (sectionName m start i)) k →
        True ∧ (m (sectionName m start i + BitVec.ofNat 64 k)).isSome) ∧
    (Named m start size name i → Mapped m (sectionHeader m start i + 24) 8) ∧
    (Named m start size name i → start + sectionOffset m start i ≤ start + size →
      Mapped m (sectionHeader m start i + 32) 8) := by
  simp only [true_and]
  exact ⟨fun ⟨a, b, c, d⟩ => ⟨a, b, c, d⟩, fun ⟨a, b, c, d⟩ => ⟨a, b, c, d⟩⟩

theorem wp_sectionLoop {n : Nat} {i : Word} :
    wp (sectionLoop start size name (sectionTable m start) (nameTable m start) n i) Q E m ↔
      Guarded (LoopInside m start size name n i) (Q (sectionFrom m start size name n i) m) (E .page_fault) := by
  induction n generalizing i with
  | zero =>
    have hnone : LoopInside m start size name 0 i := fun k hk => by omega
    rw [guarded_of hnone]
    exact wp_pure ..
  | succ n ih =>
    unfold sectionLoop sectionFrom
    simp only [wp_bind, sh_name, sh_offset, sh_size, wp_load, wp_ite, wp_pure, ih,
      wp_strncmp (reads_constant _) (reads_pointer _)]
    have hheader : sectionAt (sectionTable m start) i = sectionHeader m start i := rfl
    have hname : nameTable m start + wordAt m 4 (sectionHeader m start i) = sectionName m start i := rfl
    have hoffset : wordAt m 8 (sectionHeader m start i + 24) = sectionOffset m start i := rfl
    have hsize : wordAt m 8 (sectionHeader m start i + 32) = sectionSize m start i := rfl
    simp only [hheader, hname, hoffset, hsize]
    rw [loopInside_succ, sectionInside_iff]
    -- the section has no name in the image, another name, or the name
    by_cases hend : sectionName m start i ≥ start + size
    · have hnot : ¬ Named m start size name i := fun h => absurd h.1 (BitVec.not_lt.mpr hend)
      simp only [hend, if_true, hnot, if_false, BitVec.not_lt.mpr hend, false_implies, and_true, not_false_eq_true,
        true_implies, guarded_guarded]
    · have hlt : sectionName m start i < start + size := BitVec.not_le.mp hend
      by_cases hsame : SameText (fun k => name.getD k 0) (charAt m (sectionName m start i)) name.length
      · have hnamed : Named m start size name i := ⟨hlt, hsame⟩
        simp only [hend, if_false, hlt, true_implies, hnamed, if_true, strncmpValue_zero.mpr hsame, not_true_eq_false,
          false_implies, and_true]
        by_cases hfit : start + sectionOffset m start i > start + size
        · simp only [hfit, if_true, BitVec.not_le.mpr hfit, false_implies, and_true, guarded_guarded]
        · simp only [hfit, if_false, BitVec.not_lt.mp hfit, true_implies, guarded_guarded]
      · have hnot : ¬ Named m start size name i := fun h => hsame h.2
        simp only [hend, if_false, hlt, true_implies, hnot, mt strncmpValue_zero.mp hsame, false_implies, and_true,
          not_false_eq_true, guarded_guarded, and_assoc]

theorem loopInside_zero {n : Nat} : LoopInside m start size name n 0 ↔
    ∀ k < n, (∀ j < k, ¬ Named m start size name (BitVec.ofNat 64 j)) →
      SectionInside m start size name (BitVec.ofNat 64 k) := by
  have hzero : ∀ i : Word, 0 + i = i := BitVec.zero_add
  simp only [LoopInside, hzero]

theorem fieldsMapped_of_header (hheader : Mapped m start 64) : FieldsMapped m start size :=
  ⟨mapped_part hheader (k := 40) (by decide), mapped_part hheader (k := 60) (by decide),
    fun _ => mapped_part hheader (k := 62) (by decide)⟩

theorem fieldsMapped_iff : FieldsMapped m start size ↔ Mapped m (start + 40) 8 ∧ Mapped m (start + 60) 2 ∧
    (sectionTable m start + sectionHeaderSize * sectionCount m start ≤ start + size → Mapped m (start + 62) 2) :=
  ⟨fun h => ⟨h.offset, h.count, h.names⟩, fun h => ⟨h.1, h.2.1, h.2.2⟩⟩

theorem wp_elf_get_section_any : wp (elf_get_section start size name) Q E m ↔
    Guarded (FieldsMapped m start size ∧ SearchInside m start size name) (Q (sectionOf m start size name) m)
      (E .page_fault) := by
  have htable : start + wordAt m 8 (start + 40) = sectionTable m start := rfl
  have hcount : wordAt m 2 (start + 60) = sectionCount m start := rfl
  have hnumber : wordAt m 2 (start + 62) = nameTableIndex m start := rfl
  have hindex : sectionAt (sectionTable m start) (nameTableIndex m start) =
      sectionHeader m start (nameTableIndex m start) := rfl
  have hnames : start + wordAt m 8 (sectionHeader m start (nameTableIndex m start) + 24) = nameTable m start := rfl
  unfold elf_get_section SearchInside sectionOf TablesFit
  simp only [wp_bind, e_shoff, e_shnum, e_shstrndx, sh_offset, wp_load, wp_ite, wp_pure, htable, hcount, hnumber, hindex,
    hnames, wp_sectionLoop, loopInside_zero, fieldsMapped_iff]
  by_cases hfits : sectionTable m start + sectionHeaderSize * sectionCount m start > start + size
  · simp only [hfits, if_true, BitVec.not_le.mpr hfits, false_implies, false_and, if_false, guarded_guarded, and_true]
  · by_cases hnames' : nameTable m start ≥ start + size
    · simp only [hfits, if_false, BitVec.not_lt.mp hfits, true_implies, hnames', if_true, BitVec.not_lt.mpr hnames',
        false_implies, and_true, and_false, guarded_guarded, and_assoc]
    · simp only [hfits, if_false, BitVec.not_lt.mp hfits, true_implies, hnames', BitVec.not_le.mp hnames', true_and,
        if_true, guarded_guarded, and_assoc]

theorem wp_elf_get_section (hheader : Mapped m start 64) : wp (elf_get_section start size name) Q E m ↔
    Guarded (SearchInside m start size name) (Q (sectionOf m start size name) m) (E .page_fault) := by
  have hfields : FieldsMapped m start size := fieldsMapped_of_header hheader
  rw [wp_elf_get_section_any]
  simp only [hfields, true_and]

theorem wp_elf_get_section_index {index : Word} {Q : Word → Memory → Prop} (hheader : Mapped m start 64) :
    wp (elf_get_section_index start size index) Q E m ↔ Q (sectionIndex m start size index) m := by
  have htable : start + wordAt m 8 (start + 40) = sectionTable m start := rfl
  have hindex : sectionAt (sectionTable m start) index = sectionHeader m start index := rfl
  unfold elf_get_section_index sectionIndex
  simp only [wp_bind, wp_e_shoff hheader, wp_e_shnum hheader, htable, hindex, wp_ite, wp_pure]
  split
  · rfl
  · split <;> rfl

end Section

/-! ## `elf_get_shared_object_name` -/

section Soname

variable {Q : Word → Memory → Prop} {dynamic dynstrtab dynstrtab_size : Word}

def SonameInside (m : Memory) (dynamic : Word) (n : Nat) (i : Nat) : Prop :=
  ∀ k, i ≤ k → k < i + n → (∀ j, i ≤ j → j < k → dynTag m dynamic j ≠ DT_SONAME) →
    Mapped m (dynamic + dynSize * BitVec.ofNat 64 k) 8 ∧
    (dynTag m dynamic k = DT_SONAME → Mapped m (dynamic + dynSize * BitVec.ofNat 64 k + 8) 8)

theorem sonameInside_succ {n i : Nat} : SonameInside m dynamic (n + 1) i ↔
    (Mapped m (dynamic + dynSize * BitVec.ofNat 64 i) 8 ∧
      (dynTag m dynamic i = DT_SONAME → Mapped m (dynamic + dynSize * BitVec.ofNat 64 i + 8) 8)) ∧
    (dynTag m dynamic i ≠ DT_SONAME → SonameInside m dynamic n (i + 1)) :=
  forall_while_succ

theorem wp_sonameLoop {n i : Nat} {R : Memory → Prop} :
    wp (sonameLoop dynamic dynstrtab dynstrtab_size n (BitVec.ofNat 64 i)) (fun _ => R) E m ↔
      Guarded (SonameInside m dynamic n i) (R m) (E .page_fault) := by
  induction n generalizing i with
  | zero =>
    have hnone : SonameInside m dynamic 0 i := fun k hk hkn => by omega
    rw [guarded_of hnone]
    exact wp_pure ..
  | succ n ih =>
    have htag : wordAt m 8 (dynamic + dynSize * BitVec.ofNat 64 i) = dynTag m dynamic i := rfl
    have hnext : BitVec.ofNat 64 i + 1 = BitVec.ofNat 64 (i + 1) := (BitVec.ofNat_add ..).symm
    unfold sonameLoop
    simp only [wp_bind, d_tag, d_val, wp_load, htag, wp_ite, wp_pure, hnext, ih, sonameInside_succ, ite_self]
    by_cases hname : dynTag m dynamic i = DT_SONAME
    · simp only [hname, if_true, true_implies, ne_eq, not_true_eq_false, false_implies, and_true, guarded_guarded]
    · simp only [hname, if_false, false_implies, and_true, ne_eq, not_false_eq_true, true_implies, guarded_guarded]

/-- What `elf_get_shared_object_name` reads of an image that has passed `elf_verify`. -/
theorem wp_elf_get_shared_object_name {R : Memory → Prop} (hverified : Verified m start size)
    (hheader : Mapped m start 64) : wp (elf_get_shared_object_name start size) (fun _ => R) E m ↔
      Guarded (IsRelocatable m start ∨ NameInside m start size) (R m) (E .page_fault) := by
  have hloop : ∀ d : Word × Word, SonameInside m d.1 (d.2 / dynSize).toNat 0 ↔ DynamicInside m d := by
    intro d
    simp only [SonameInside, DynamicInside, Nat.zero_le, true_implies, Nat.zero_add]
  have husable : ∀ p l : Word, (p = 0 ∨ p + l > start + size) ↔ ¬ Usable start size (p, l) := by
    intro p l
    rw [Usable, not_and_or, not_not, BitVec.not_le]
  unfold elf_get_shared_object_name elf_verify_shared_object
  simp only [wp_bind, wp_elf_verify fun _ => hheader, decide_eq_true hverified, Bool.not_true, Bool.false_eq_true,
    if_false, wp_e_type hheader, wp_ite, wp_pure, decide_eq_true_eq, wp_elf_get_section hheader]
  by_cases hrel : wordAt m 2 (start + 16) = ET_REL
  · rw [if_pos hrel, guarded_of (.inl hrel)]
  · have hnot : ¬ IsRelocatable m start := hrel
    rw [if_neg hrel]
    simp only [hnot, false_or, NameInside]
    obtain ⟨dynamic, dynamic_size⟩ := sectionOf m start size (ascii ".dynamic")
    obtain ⟨dynstrtab, dynstrtab_size⟩ := sectionOf m start size (ascii ".dynstr")
    simp only [husable]
    by_cases hdynamic : Usable start size (dynamic, dynamic_size)
    · by_cases hdynstr : Usable start size (dynstrtab, dynstrtab_size)
      · simp only [hdynamic, hdynstr, not_true_eq_false, if_false, true_implies]
        have hstart : wp (sonameLoop dynamic dynstrtab dynstrtab_size (dynamic_size / dynSize).toNat 0) (fun _ => R) E m ↔
            Guarded (DynamicInside m (dynamic, dynamic_size)) (R m) (E .page_fault) := by
          rw [← hloop]
          exact wp_sonameLoop (i := 0)
        simp only [hstart, guarded_guarded]
      · simp only [hdynamic, hdynstr, not_true_eq_false, if_false, true_implies, not_false_eq_true, if_true,
          false_implies, and_true, guarded_guarded]
    · simp only [hdynamic, not_false_eq_true, if_true, false_implies, and_true]

end Soname

end KernelOfTruth.Elf
