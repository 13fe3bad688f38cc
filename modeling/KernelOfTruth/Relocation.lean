import KernelOfTruth.Symbols
import KernelOfTruth.Spec.Relocation
import Mathlib.Data.Finset.Max

/-!
# Relocation
-/

open KernelOfTruth.Lib KernelOfTruth.Code KernelOfTruth.Spec KernelOfTruth.Strings KernelOfTruth.Elf KernelOfTruth.Symbols
open KernelOfTruth.Rules (wp_bubble)

namespace KernelOfTruth.Relocation

variable {m m' : Memory} {start size base : Word} {address : Word → Word} {symbol_get : Word → Kernel Memory Word} {i : Nat}

/-! ## What the code stores -/

section Stored

variable (m : Memory) (start size base : Word) (address : Word → Word) (i : Nat)

def codeTarget : Word :=
  if IsRelative m start size i then start + relaOffset m start size i else base + relaOffset m start size i

def codeValue : Word :=
  if IsRelative m start size i then base + relaAddend m start size i
  else if IsUndefined m start size i then address (relaName m start size i)
  else if relaType m start size i = R_X86_64_64 then base + relaValue m start size i + relaAddend m start size i
  else base + relaValue m start size i

end Stored

/-! ## One entry -/

section Entry

variable (hi : i < relaCount m start size) (hsame : ∀ x, ReadByte m start size x → m' x = m x)
include hi hsame

theorem wordAt_entry {k n : Nat} (hfit : k + n ≤ 24) :
    wordAt m' n (relaEntry m start size i + BitVec.ofNat 64 k) = wordAt m n (relaEntry m start size i + BitVec.ofNat 64 k) :=
  wordAt_congr (by omega) fun x hx => hsame x ⟨i, hi, .inl (covers_part hfit (by decide) hx)⟩

theorem wordAt_symbol (hrel : ¬ IsRelative m start size i) {k n : Nat} (hfit : k + n ≤ 24) :
    wordAt m' n (relaSymbol m start size i + BitVec.ofNat 64 k) =
      wordAt m n (relaSymbol m start size i + BitVec.ofNat 64 k) :=
  wordAt_congr (by omega) fun x hx => hsame x ⟨i, hi, .inr ⟨hrel, .inl (covers_part hfit (by decide) hx)⟩⟩

theorem wp_relocateEntry (hfinds : Finds m address symbol_get)
    (hnames : ¬ IsRelative m start size i → IsUndefined m start size i → TextInside m start size (relaName m start size i)) :
    wp (relocateEntry symbol_get start size (relaTable m start size) (dynsymTable m start size) (dynstrTable m start size)
        base (BitVec.ofNat 64 i))
      (fun status m'' => status = .Ok →
        m'' = stored m' 8 (codeTarget m start size base i) (codeValue m start size base address i)) (fun _ => True) m' := by
  have hentry : relaAt (relaTable m start size) (BitVec.ofNat 64 i) = relaEntry m start size i := rfl
  have hoffset : wordAt m' 8 (relaEntry m start size i) = relaOffset m start size i := by
    have h := wordAt_entry hi hsame (k := 0) (n := 8) (by decide)
    rwa [BitVec.add_zero] at h
  have hinfo : wordAt m' 8 (relaEntry m start size i + 8) = relaInfo m start size i :=
    wordAt_entry hi hsame (k := 8) (by decide)
  have haddend : wordAt m' 8 (relaEntry m start size i + 16) = relaAddend m start size i :=
    wordAt_entry hi hsame (k := 16) (by decide)
  have htype : ELF64_R_TYPE (relaInfo m start size i) = relaType m start size i := rfl
  have hsymbol : symbolAt (dynsymTable m start size) (ELF64_R_SYM (relaInfo m start size i)) =
      relaSymbol m start size i := rfl
  have h8 : (8 : Nat) < 2 ^ 64 := by decide
  unfold relocateEntry
  simp only [wp_bind, r_info, r_offset, r_addend, st_index, st_name, st_value, wp_load, hentry, hoffset, hinfo, haddend,
    htype, hsymbol, wp_ite, wp_store h8, wp_pure, guarded_true]
  intro _
  by_cases htypeRel : relaType m start size i = R_X86_64_RELATIVE
  · have hrel : IsRelative m start size i := htypeRel
    rw [if_pos htypeRel, codeTarget, if_pos hrel, codeValue, if_pos hrel]
    exact fun _ _ _ _ => rfl
  have hrel : ¬ IsRelative m start size i := htypeRel
  rw [if_neg htypeRel, codeTarget, if_neg hrel, codeValue, if_neg hrel]
  have hname : wordAt m' 4 (relaSymbol m start size i) = wordAt m 4 (relaSymbol m start size i) := by
    have h := wordAt_symbol hi hsame hrel (k := 0) (n := 4) (by decide)
    rwa [BitVec.add_zero] at h
  have hindex : wordAt m' 2 (relaSymbol m start size i + 6) = relaIndex m start size i :=
    wordAt_symbol hi hsame hrel (k := 6) (by decide)
  have hvalue : wordAt m' 8 (relaSymbol m start size i + 8) = relaValue m start size i :=
    wordAt_symbol hi hsame hrel (k := 8) (by decide)
  have hnameAt : dynstrTable m start size + wordAt m 4 (relaSymbol m start size i) = relaName m start size i := rfl
  have hinvalid : Status.Error_Invalid ≠ .Ok := by decide
  simp only [hname, hindex, hvalue, hnameAt]
  split
  · split
    · exact fun hok => absurd hok hinvalid
    · intro _ _
      by_cases hundef : relaIndex m start size i = SHN_UNDEF
      · have hundefined : IsUndefined m start size i := hundef
        obtain ⟨text, htext, -⟩ := hnames hrel hundefined
        have hget := hfinds _ text m' htext fun x hx => hsame x ⟨i, hi, .inr ⟨hrel, .inr ⟨text, htext, hx⟩⟩⟩
        rw [if_pos hundef, if_pos hundefined]
        intro _
        split
        · exact fun hok => absurd hok hinvalid
        · refine (wp_of_run hget).mpr ?_
          split
          · exact fun hok => absurd hok hinvalid
          · exact fun _ _ => rfl
      · have hdefined : ¬ IsUndefined m start size i := hundef
        rw [if_neg hundef, if_neg hdefined]
        split
        · exact fun _ _ _ _ => rfl
        · exact fun _ _ _ => rfl
  · exact fun hok => absurd hok hinvalid

end Entry

/-! ## All entries -/

theorem off_tables_kept {n : Nat} (hn : n ≤ relaCount m start size)
    (hoff : ∀ j < relaCount m start size, ∀ x, Covers (codeTarget m start size base j) 8 x → ¬ ReadByte m start size x)
    {x : Word} (hx : ReadByte m start size x) :
    storedAll m (codeTarget m start size base) (codeValue m start size base address) n x = m x :=
  storedAll_of_not_covers fun j hj hcovers => hoff j (by omega) x hcovers hx

-- by induction on the entries that are left; the tables are as they were at every step
theorem wp_relocateLoop {n : Nat} (hfinds : Finds m address symbol_get) (h : WellFormedRelocations m start size base)
    (hoff : ∀ j < relaCount m start size, ∀ x, Covers (codeTarget m start size base j) 8 x → ¬ ReadByte m start size x)
    (hn : i + n = relaCount m start size) :
    wp (relocateLoop symbol_get start size (relaTable m start size) (dynsymTable m start size) (dynstrTable m start size) base
        n (BitVec.ofNat 64 i))
      (fun status m'' => status = .Ok → m'' =
        storedAll m (codeTarget m start size base) (codeValue m start size base address) (relaCount m start size))
      (fun _ => True) (storedAll m (codeTarget m start size base) (codeValue m start size base address) i) := by
  induction n generalizing i with
  | zero =>
    rw [Nat.add_zero] at hn
    rw [← hn]
    exact (wp_pure ..).mpr fun _ => rfl
  | succ n ih =>
    have hi : i < relaCount m start size := by omega
    have hnext : BitVec.ofNat 64 i + 1 = BitVec.ofNat 64 (i + 1) := (BitVec.ofNat_add ..).symm
    unfold relocateLoop
    rw [wp_bubble, hnext]
    refine wp_imp (wp_relocateEntry hi (fun x hx => off_tables_kept hi.le hoff hx) hfinds (h.symbol_names i hi)) ?_
    intro status m'' hentry
    split
    · rename_i hok
      rw [hentry hok]
      exact ih (by omega)
    · rename_i hfail
      exact fun hok => absurd hok hfail

theorem elf_relocate_ok (hfinds : Finds m address symbol_get) (h : WellFormedRelocations m start size base)
    (hbase : (elf_get_base_address start size).run m = .ok (base, m))
    (hoff : ∀ j < relaCount m start size, ∀ x, Covers (codeTarget m start size base j) 8 x → ¬ ReadByte m start size x)
    (hrun : (elf_relocate symbol_get start size).run m = .ok (.Ok, m')) :
    m' = storedAll m (codeTarget m start size base) (codeValue m start size base address) (relaCount m start size) := by
  have hw := h.toWellFormedSections
  have hinvalid : Status.Error_Invalid ≠ .Ok := by decide
  have hwp : wp (elf_relocate symbol_get start size) (fun status m'' => status = .Ok → m'' =
      storedAll m (codeTarget m start size base) (codeValue m start size base address) (relaCount m start size))
      (fun _ => True) m := by
    unfold elf_relocate
    simp only [wp_bind, wp_get_section hw, wp_ite, wp_of_run hbase, wp_pure]
    split
    · exact fun hok => absurd hok hinvalid
    split
    · exact fun hok => absurd hok hinvalid
    split
    · exact fun hok => absurd hok hinvalid
    split
    · exact fun hok => absurd hok hinvalid
    exact wp_relocateLoop (i := 0) hfinds h hoff (Nat.zero_add _)
  have hok := wp_ok hwp hrun
  exact hok rfl

/-! ## The code and the ABI -/

theorem codeTarget_eq (hrelative : base = start ∨ ∀ i < relaCount m start size, ¬ IsRelative m start size i)
    (hi : i < relaCount m start size) : codeTarget m start size base i = slot m start size base i := by
  unfold codeTarget slot
  split
  · rename_i hrel
    rw [hrelative.resolve_right fun hnone => hnone i hi hrel]
  · rfl

theorem eq_add_iff {a b : Word} : a = a + b ↔ b = 0 := ⟨fun h => by bv_omega, fun h => by bv_omega⟩

theorem codeValue_eq_iff : codeValue m start size base address i = slotValue m start size base address i ↔
    (¬ IsRelative m start size i → relaType m start size i = R_X86_64_64 → IsUndefined m start size i →
      relaAddend m start size i = 0) := by
  unfold codeValue slotValue relaAddress
  by_cases hrel : IsRelative m start size i
  · simp only [hrel, if_true, not_true_eq_false, false_implies]
  · by_cases h64 : relaType m start size i = R_X86_64_64
    · by_cases hundefined : IsUndefined m start size i
      · simp only [hrel, h64, hundefined, if_true, if_false, not_false_eq_true, true_implies]
        exact eq_add_iff
      · simp only [hrel, h64, hundefined, if_true, if_false, false_implies, implies_true]
    · by_cases hundefined : IsUndefined m start size i
      · simp only [hrel, h64, hundefined, if_true, if_false, false_implies, implies_true]
      · simp only [hrel, h64, hundefined, if_false, false_implies, implies_true]

theorem toNat_slot (h : WellFormedRelocations m start size base) (hi : i < relaCount m start size) :
    (slot m start size base i).toNat = base.toNat + (relaOffset m start size i).toNat := by
  have htarget := h.targets i hi
  have hwrap := h.no_wrap
  unfold slot
  rw [BitVec.toNat_add, Nat.mod_eq_of_lt (by omega)]

theorem not_covers_below {a b x : Word} {n k : Nat} (hbelow : b.toNat + k ≤ a.toNat) (hwrap : a.toNat + n ≤ 2 ^ 64)
    (hx : Covers a n x) : ¬ Covers b k x := by
  unfold Covers at *
  bv_omega

/-- The relative slot with the highest address, which nothing is stored to when the base is not the start. -/
theorem exists_untouched (h : WellFormedRelocations m start size base) (hfar : start.toNat + 8 ≤ base.toNat)
    (hsome : ∃ i < relaCount m start size, IsRelative m start size i) :
    ∃ i < relaCount m start size, IsRelative m start size i ∧ ∀ j < relaCount m start size, ∀ x,
      Covers (slot m start size base i) 8 x → ¬ Covers (codeTarget m start size base j) 8 x := by
  obtain ⟨i, hi, hmax⟩ := Finset.exists_max_image ((Finset.range (relaCount m start size)).filter (IsRelative m start size))
    (fun i => (relaOffset m start size i).toNat) (by
      obtain ⟨i, hi, hrel⟩ := hsome
      exact ⟨i, Finset.mem_filter.mpr ⟨Finset.mem_range.mpr hi, hrel⟩⟩)
  obtain ⟨hi, hrel⟩ := Finset.mem_filter.mp hi
  rw [Finset.mem_range] at hi
  refine ⟨i, hi, hrel, fun j hj x hx => ?_⟩
  by_cases hjrel : IsRelative m start size j
  · have hle := hmax j (Finset.mem_filter.mpr ⟨Finset.mem_range.mpr hj, hjrel⟩)
    have hslot := toNat_slot h hi
    have htarget := h.targets j hj
    have htarget' := h.targets i hi
    have hwrap := h.no_wrap
    have hstart : (start + relaOffset m start size j).toNat = start.toNat + (relaOffset m start size j).toNat := by
      rw [BitVec.toNat_add, Nat.mod_eq_of_lt (by omega)]
    unfold codeTarget
    rw [if_pos hjrel]
    exact not_covers_below (by omega) (by omega) hx
  · unfold codeTarget
    rw [if_neg hjrel]
    exact h.apart i hi j hj (fun hji => hjrel (hji ▸ hrel)) x hx

theorem relocated_of_supported (h : WellFormedRelocations m start size base)
    (hsupported : Supported m start size base) : Relocated m start size base address
      (storedAll m (codeTarget m start size base) (codeValue m start size base address) (relaCount m start size)) := by
  have htarget : ∀ i < relaCount m start size, codeTarget m start size base i = slot m start size base i :=
    fun i hi => codeTarget_eq hsupported.relative hi
  refine ⟨fun i hi => ?_, fun x _ hx => storedAll_of_not_covers fun i hi => by rw [htarget i hi]; exact hx i hi⟩
  rw [← htarget i hi, wordAt_storedAll hi fun j hj hne x => by rw [htarget i hi, htarget j hj]; exact h.apart i hi j hj hne x]
  exact codeValue_eq_iff.mpr fun _ => hsupported.addend i hi

theorem supported_of_relocated (h : WellFormedRelocations m start size base) (hun : Unrelocated m start size base)
    (hrelocated : Relocated m start size base address
      (storedAll m (codeTarget m start size base) (codeValue m start size base address) (relaCount m start size))) :
    Supported m start size base := by
  have hrelative : base = start ∨ ∀ i < relaCount m start size, ¬ IsRelative m start size i := by
    rcases hun.base_far with heq | hfar
    · exact .inl heq
    · refine .inr fun i hi hrel => ?_
      obtain ⟨k, hk, hkrel, huntouched⟩ := exists_untouched h hfar ⟨i, hi, hrel⟩
      have hkept : wordAt (storedAll m (codeTarget m start size base) (codeValue m start size base address)
          (relaCount m start size)) 8 (slot m start size base k) = wordAt m 8 (slot m start size base k) :=
        wordAt_congr (by decide) fun x hx => storedAll_of_not_covers fun j hj => huntouched j hj x hx
      refine hun.relative k hk hkrel ?_
      rw [← hkept, hrelocated.1 k hk, slotValue, if_pos hkrel]
  have htarget : ∀ i < relaCount m start size, codeTarget m start size base i = slot m start size base i :=
    fun i hi => codeTarget_eq hrelative hi
  refine ⟨hrelative, fun i hi h64 hundefined => ?_⟩
  have hvalue := hrelocated.1 i hi
  rw [← htarget i hi, wordAt_storedAll hi fun j hj hne x => by
    rw [htarget i hi, htarget j hj]; exact h.apart i hi j hj hne x] at hvalue
  have hnot : ¬ IsRelative m start size i := fun hrel => absurd (h64.symm.trans hrel) (by decide)
  exact codeValue_eq_iff.mp hvalue hnot h64 hundefined

/-- Relocation does what the ABI says when each relative entry is counted from the base and no addend is dropped; and of
an image as the linker leaves it, only then. -/
theorem relocation_follows_abi (h : WellFormedRelocations m start size base)
    (hbase : (elf_get_base_address start size).run m = .ok (base, m)) (hfinds : Finds m address symbol_get)
    (hrun : (elf_relocate symbol_get start size).run m = .ok (.Ok, m')) :
    (Supported m start size base → Relocated m start size base address m') ∧
    (Unrelocated m start size base → Relocated m start size base address m' → Supported m start size base) := by
  constructor
  · intro hsupported
    rw [elf_relocate_ok hfinds h hbase (fun i hi x hx => h.off_tables i hi x (codeTarget_eq hsupported.relative hi ▸ hx)) hrun]
    exact relocated_of_supported h hsupported
  · intro hun hrelocated
    have hoff : ∀ j < relaCount m start size, ∀ x, Covers (codeTarget m start size base j) 8 x →
        ¬ ReadByte m start size x := by
      intro j hj x hx
      by_cases hrel : IsRelative m start size j
      · rw [codeTarget, if_pos hrel] at hx
        exact hun.off_tables j hj hrel x hx
      · rw [codeTarget, if_neg hrel] at hx
        exact h.off_tables j hj x hx
    rw [elf_relocate_ok hfinds h hbase hoff hrun] at hrelocated
    exact supported_of_relocated h hun hrelocated

/-! ## A module with one entry -/

/-- An image of 554 bytes at 0x1000 with 16 bytes of data at 0x11c0 and a symbol 8 bytes into them. The entry with the
given `r_info` is for the first word of the data, with the addend 5. -/
def oneEntry (info : Word) : Memory :=
  let m := filled (fun _ => none) 0x1000 554 0
  let m := stored (stored (stored (stored m 8 0x1028 64) 2 0x103a 64) 2 0x103c 6) 2 0x103e 5
  let m := withSection (withSection m 0x1080 1 1 0x1c0 16) 0x10c0 7 3 0x1f9 1
  let m := withSection (withSection m 0x1100 15 11 0x1fa 24) 0x1140 23 4 0x212 24
  let m := withSection m 0x1180 33 3 0x1d0 41
  let m := withBytes m 0x11d0 (["", ".data", ".dynstr", ".dynsym", ".rela.dyn", ".strtab"].flatMap (ascii · ++ [0]))
  let m := withSymbol m 0x11fa 0 0x11 1 8
  stored (stored (stored m 8 0x1212 0) 8 0x121a info) 8 0x1222 5

theorem oneEntry_sections {info : Word} (h : info = 1 ∨ info = 8) : WellFormedSections (oneEntry info) 0x1000 554 := by
  refine wellFormedSections_of
    [[], ascii ".data", ascii ".dynstr", ascii ".dynsym", ascii ".rela.dyn", ascii ".strtab"] ?_ ?_
  · unfold oneEntry withSymbol withSection
    repeat first | apply mapped_stored | apply mapped_withBytes
    exact mapped_zeros (by decide)
  · rcases h with rfl | rfl <;> decide +kernel

/-- What the entry of the image is, all of it from one evaluation. -/
structure EntryValues (m : Memory) : Prop where
  count : relaCount m 0x1000 554 = 1
  entry : relaEntry m 0x1000 554 0 = 0x1212
  symbol : relaSymbol m 0x1000 554 0 = 0x11fa
  name : relaName m 0x1000 554 0 = 0x11f9
  nul : charAt m 0x11f9 0 = 0
  defined : ¬ IsUndefined m 0x1000 554 0
  offset : relaOffset m 0x1000 554 0 = 0
  base : baseOffset m 0x1000 = 0x1c0

theorem oneEntry_values {info : Word} (h : info = 1 ∨ info = 8) : EntryValues (oneEntry info) := by
  obtain ⟨hcount, hentry, hsymbol, hname, hnul, hdefined, hoffset, hbase⟩ : relaCount (oneEntry info) 0x1000 554 = 1 ∧
      relaEntry (oneEntry info) 0x1000 554 0 = 0x1212 ∧ relaSymbol (oneEntry info) 0x1000 554 0 = 0x11fa ∧
      relaName (oneEntry info) 0x1000 554 0 = 0x11f9 ∧ charAt (oneEntry info) 0x11f9 0 = 0 ∧
      ¬ IsUndefined (oneEntry info) 0x1000 554 0 ∧ relaOffset (oneEntry info) 0x1000 554 0 = 0 ∧
      baseOffset (oneEntry info) 0x1000 = 0x1c0 := by
    rcases h with rfl | rfl <;> decide +kernel
  exact ⟨hcount, hentry, hsymbol, hname, hnul, hdefined, hoffset, hbase⟩

theorem EntryValues.off_tables {m : Memory} (h : EntryValues m) {a x : Word} (ha : a = 0x11c0 ∨ a = 0x1000)
    (hx : Covers a 8 x) : ¬ ReadByte m 0x1000 554 x := by
  rintro ⟨i, hi, hread⟩
  rw [h.count] at hi
  obtain rfl : i = 0 := by omega
  rw [h.entry, h.symbol, h.name] at hread
  have hbelow : a.toNat + 8 ≤ 0x11f9 := by rcases ha with rfl | rfl <;> decide
  rcases hread with hread | ⟨-, hread | ⟨text, htext, hread⟩⟩
  · exact not_covers_below (Nat.le_trans hbelow (by decide)) (by decide) hread hx
  · exact not_covers_below (Nat.le_trans hbelow (by decide)) (by decide) hread hx
  · have hempty : text.length = 0 := by
      by_contra hlong
      refine htext.no_nul 0 (by omega) ?_
      rw [← htext.char_eq 0 (by omega), h.nul]
    rw [hempty] at hread
    exact not_covers_below hbelow (by decide) hread hx

theorem oneEntry_wellFormed {info : Word} (hinfo : info = 1 ∨ info = 8) :
    WellFormedRelocations (oneEntry info) 0x1000 554 0x11c0 := by
  have h := oneEntry_values hinfo
  have hfirst : ∀ {P : Nat → Prop}, P 0 → ∀ i < relaCount (oneEntry info) 0x1000 554, P i := by
    intro P hP i hi
    rw [h.count] at hi
    obtain rfl : i = 0 := by omega
    exact hP
  refine ⟨oneEntry_sections hinfo, hfirst ?_, hfirst fun _ => ?_, hfirst fun _ hundefined => absurd hundefined h.defined,
    hfirst ?_, hfirst (hfirst fun hne => absurd rfl hne), hfirst fun x hx => ?_⟩
  · rw [h.entry]
    decide
  · rw [h.symbol]
    decide
  · rw [h.offset]
    decide
  · rw [slot, h.offset] at hx
    exact h.off_tables (.inl rfl) hx

theorem oneEntry_base {info : Word} (h : info = 1 ∨ info = 8) :
    (elf_get_base_address 0x1000 554).run (oneEntry info) = .ok (0x11c0, oneEntry info) := by
  obtain ⟨v, m', hrun, rfl, rfl⟩ := wp_total ((wp_elf_get_base_address (oneEntry_sections h)
    (Q := fun v m' => m' = oneEntry info ∧ v = 0x11c0)).mpr ⟨rfl, by rw [(oneEntry_values h).base]; decide⟩)
  exact hrun

/-- An entry of type `R_X86_64_64` for a symbol of the module. -/
theorem symbol_entry_relocated : ∃ m', (elf_relocate (fun _ => pure 0) 0x1000 554).run (oneEntry 1) = .ok (.Ok, m') ∧
    Relocated (oneEntry 1) 0x1000 554 0x11c0 (fun _ => 0) m' := by
  have hok : (elf_relocate (fun _ => pure 0) 0x1000 554).run' (oneEntry 1) = .ok .Ok := by decide +kernel
  obtain ⟨m', hrun⟩ := run_of_run' hok
  have hsupported : Supported (oneEntry 1) 0x1000 554 0x11c0 := by
    refine ⟨.inr ?_, ?_⟩
    · rw [(oneEntry_values (.inl rfl)).count]
      decide +kernel
    · intro i hi _ hundefined
      rw [(oneEntry_values (.inl rfl)).count] at hi
      obtain rfl : i = 0 := by omega
      exact absurd hundefined (oneEntry_values (.inl rfl)).defined
  exact ⟨m', hrun, (relocation_follows_abi (oneEntry_wellFormed (.inl rfl)) (oneEntry_base (.inl rfl))
    (fun _ _ _ _ _ => rfl) hrun).1 hsupported⟩

/-- An entry of type `R_X86_64_RELATIVE` is stored at the start of the image, into the header, and its slot at the base
keeps the 0. -/
theorem relative_entry_misplaced : WellFormedRelocations (oneEntry 8) 0x1000 554 0x11c0 ∧
    (elf_get_base_address 0x1000 554).run (oneEntry 8) = .ok (0x11c0, oneEntry 8) ∧
    slot (oneEntry 8) 0x1000 554 0x11c0 0 = 0x11c0 ∧ slotValue (oneEntry 8) 0x1000 554 0x11c0 (fun _ => 0) 0 = 0x11c5 ∧
    (do
      let status ← elf_relocate (fun _ => pure 0) 0x1000 554
      let word ← Memory.load 8 0x11c0
      let header ← Memory.load 8 0x1000
      pure (status, word, header)).run' (oneEntry 8) = .ok (.Ok, 0, 0x11c5) :=
  ⟨oneEntry_wellFormed (.inr rfl), oneEntry_base (.inr rfl), by decide +kernel⟩

end KernelOfTruth.Relocation
