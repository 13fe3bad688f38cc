import KernelOfTruth.Relocation
import KernelOfTruth.Spec.RelocationBounds

/-!
# Relocation outside of the image

Of an entry only the symbol is checked, and the place that is written is not.
-/

open KernelOfTruth.Lib KernelOfTruth.Code KernelOfTruth.Spec KernelOfTruth.Strings KernelOfTruth.Elf KernelOfTruth.Symbols
open KernelOfTruth.Rules (wp_bubble)

namespace KernelOfTruth.RelocationBounds

variable {m : Memory} {start size p : Word} {E : Halt → Prop} {table : Memory → Word → Word}

/-! ## Names -/

/-- The loop goes over characters that are mapped and not NUL. -/
theorem hashStrLoop_skip {d i : Nat} (hash : Word)
    (h : ∀ j < d, (m (p + BitVec.ofNat 64 (i + j))).isSome ∧ charAt m p (i + j) ≠ 0) :
    ∃ hash', ∀ fuel (Q : Word → Memory → Prop), wp (hashStrLoop p (d + fuel) (BitVec.ofNat 64 i) hash) Q E m ↔
      wp (hashStrLoop p fuel (BitVec.ofNat 64 (i + d)) hash') Q E m := by
  induction d generalizing i hash with
  | zero => exact ⟨hash, fun fuel Q => by rw [Nat.zero_add, Nat.add_zero]⟩
  | succ d ih =>
    obtain ⟨hmapped, hchar⟩ := h 0 (by omega)
    rw [Nat.add_zero] at hmapped hchar
    have hbyte : byteAt m (p + BitVec.ofNat 64 i) ≠ 0 := hchar
    have hnext : BitVec.ofNat 64 i + 1 = BitVec.ofNat 64 (i + 1) := (BitVec.ofNat_add ..).symm
    have hlater : ∀ j < d, (m (p + BitVec.ofNat 64 (i + 1 + j))).isSome ∧ charAt m p (i + 1 + j) ≠ 0 := fun j hj => by
      rw [show i + 1 + j = i + (j + 1) by omega]
      exact h (j + 1) (by omega)
    obtain ⟨hash', hrest⟩ :=
      ih (hash ^^^ ((byteAt m (p + BitVec.ofNat 64 i)).signExtend 64 + hash <<< 5 + hash >>> 2)) hlater
    refine ⟨hash', fun fuel Q => ?_⟩
    rw [show d + 1 + fuel = d + fuel + 1 by omega, hashStrLoop, wp_bind, wp_loadByte, guarded_of hmapped, wp_ite,
      if_neg hbyte, hnext, hrest, show i + 1 + d = i + (d + 1) by omega]

theorem isSome_of_charAt {k : Nat} (h : charAt m p k ≠ 0) : (m (p + BitVec.ofNat 64 k)).isSome := by
  by_contra hnot
  refine h ?_
  rw [charAt, byteAt, Option.not_isSome_iff_eq_none.mp hnot]
  rfl

theorem nameMapped_iff {d : Nat} (hd : charAt m p d = 0) (hbefore : ∀ j < d, charAt m p j ≠ 0) :
    NameMapped m p ↔ (m (p + BitVec.ofNat 64 d)).isSome := by
  constructor
  · rintro ⟨n, hn, hmapped⟩
    refine hmapped d (Nat.lt_succ_of_le (Nat.not_lt.mp fun hlt => hbefore n hlt hn))
  · intro hlast
    refine ⟨d, hd, fun j hj => ?_⟩
    rcases Nat.lt_succ_iff_lt_or_eq.mp hj with hlt | rfl
    · exact isSome_of_charAt (hbefore j hlt)
    · exact hlast

-- the loop comes to the first character that is NUL or not mapped
theorem wp_hash_str {R : Memory → Prop} (hnone : ∃ a, m a = none) :
    wp (hash_str p) (fun _ m' => R m') E m ↔ Guarded (NameMapped m p) (R m) (E .page_fault) := by
  obtain ⟨k, hk, hkzero⟩ : ∃ k < 2 ^ 64, charAt m p k = 0 := by
    obtain ⟨a, ha⟩ := hnone
    refine ⟨(a - p).toNat, (a - p).isLt, ?_⟩
    rw [charAt, BitVec.ofNat_toNat, BitVec.setWidth_eq, show p + (a - p) = a by bv_omega, byteAt, ha]
    rfl
  have hzero : ∃ d, charAt m p d = 0 := ⟨k, hkzero⟩
  obtain ⟨d, hd, hbefore⟩ : ∃ d, charAt m p d = 0 ∧ ∀ j < d, charAt m p j ≠ 0 :=
    ⟨Nat.find hzero, Nat.find_spec hzero, fun j hj => Nat.find_min hzero hj⟩
  have hdk : d ≤ k := Nat.not_lt.mp fun hlt => hbefore k hlt hkzero
  have hbyte : byteAt m (p + BitVec.ofNat 64 d) = 0 := hd
  have hchars : ∀ j < d, (m (p + BitVec.ofNat 64 (0 + j))).isSome ∧ charAt m p (0 + j) ≠ 0 := fun j hj => by
    rw [Nat.zero_add]
    exact ⟨isSome_of_charAt (hbefore j hj), hbefore j hj⟩
  obtain ⟨hash, hskip⟩ := hashStrLoop_skip (E := E) negative_golden_ratio hchars
  have hzero' : (0 : Word) = BitVec.ofNat 64 0 := rfl
  rw [hash_str, show 2 ^ 64 = d + (2 ^ 64 - d - 1 + 1) by omega, hzero', hskip, Nat.zero_add, hashStrLoop, wp_bind, wp_loadByte,
    wp_ite, if_pos hbyte, wp_pure, nameMapped_iff hd hbefore]

theorem wp_symbolLookup {Q : Word → Memory → Prop} (hnone : ∃ a, m a = none) :
    wp (symbolLookup table p) Q E m ↔ Guarded (NameMapped m p) (Q (table m p) m) (E .page_fault) := by
  unfold symbolLookup
  simp only [wp_bind, wp_get, wp_pure]
  exact wp_hash_str (R := fun m' => Q (table m' p) m') hnone

/-! ## One entry -/

section Entry

variable {T : RelaTables} {i : Nat}

theorem not_usesSymbol (hrel : T.type m i = R_X86_64_RELATIVE) : ¬ T.UsesSymbol start size m i := by
  rintro ⟨htype, -⟩
  rw [hrel] at htype
  revert htype
  decide

theorem entryMapped_relative (hrel : T.type m i = R_X86_64_RELATIVE) : T.EntryMapped table start size m i ↔
    Mapped m (T.entry i + 8) 8 ∧ Mapped m (T.entry i) 8 ∧ Mapped m (T.entry i + 16) 8 ∧
      Mapped m (start + T.offset m i) 8 := by
  have hnot : ¬ T.UsesSymbol start size m i := not_usesSymbol hrel
  have htarget : T.target start m i = start + T.offset m i := by rw [RelaTables.target, if_pos hrel]
  have hvalue : (T.value table start size m i).isSome := by rw [RelaTables.value, if_pos hrel]; rfl
  constructor
  · rintro ⟨hinfo, hoffset, hrelative, -, -, -, hstore⟩
    exact ⟨hinfo, hoffset (.inl hrel), hrelative hrel, htarget ▸ hstore hvalue⟩
  · rintro ⟨hinfo, hoffset, haddend, hstore⟩
    exact ⟨hinfo, fun _ => hoffset, fun _ => haddend, fun h => absurd h hnot, fun h => absurd h hnot, fun h => absurd h hnot,
      fun _ => htarget ▸ hstore⟩

theorem entryMapped_refused (hrel : T.type m i ≠ R_X86_64_RELATIVE) (hnot : ¬ T.UsesSymbol start size m i) :
    T.EntryMapped table start size m i ↔ Mapped m (T.entry i + 8) 8 := by
  have hvalue : T.value table start size m i = none := by rw [RelaTables.value, if_neg hrel, if_pos hnot]
  refine ⟨fun h => h.info, fun hinfo => ⟨hinfo, fun h => absurd h (not_or.mpr ⟨hrel, hnot⟩), fun h => absurd h hrel,
    fun h => absurd h hnot, fun h => absurd h hnot, fun h => absurd h hnot, fun h => ?_⟩⟩
  rw [hvalue] at h
  cases h

theorem entryMapped_undefined (hrel : T.type m i ≠ R_X86_64_RELATIVE) (huses : T.UsesSymbol start size m i)
    (hundef : T.Undefined m i) : T.EntryMapped table start size m i ↔
      Mapped m (T.entry i + 8) 8 ∧ Mapped m (T.entry i) 8 ∧ Mapped m (T.symbol m i + 6) 2 ∧ Mapped m (T.symbol m i) 4 ∧
        (T.NameChecked start size m i → NameMapped m (T.dynstr + T.symbolName m i)) ∧
        ((T.value table start size m i).isSome → Mapped m (T.base + T.offset m i) 8) := by
  have htarget : T.target start m i = T.base + T.offset m i := by rw [RelaTables.target, if_neg hrel]
  rw [← htarget]
  constructor
  · rintro ⟨hinfo, hoffset, -, hsymbol, hundefined, -, hstore⟩
    obtain ⟨hname, htext⟩ := hundefined huses hundef
    exact ⟨hinfo, hoffset (.inr huses), hsymbol huses, hname, htext, hstore⟩
  · rintro ⟨hinfo, hoffset, hsymbol, hname, htext, hstore⟩
    exact ⟨hinfo, fun _ => hoffset, fun h => absurd h hrel, fun _ => hsymbol, fun _ _ => ⟨hname, htext⟩,
      fun _ h => absurd hundef h, hstore⟩

theorem entryMapped_defined (hrel : T.type m i ≠ R_X86_64_RELATIVE) (huses : T.UsesSymbol start size m i)
    (hdef : ¬ T.Undefined m i) : T.EntryMapped table start size m i ↔
      Mapped m (T.entry i + 8) 8 ∧ Mapped m (T.entry i) 8 ∧ Mapped m (T.symbol m i + 6) 2 ∧ Mapped m (T.symbol m i + 8) 8 ∧
        (T.type m i = R_X86_64_64 → Mapped m (T.entry i + 16) 8) ∧ Mapped m (T.base + T.offset m i) 8 := by
  have htarget : T.target start m i = T.base + T.offset m i := by rw [RelaTables.target, if_neg hrel]
  have hvalue : (T.value table start size m i).isSome := by
    rw [RelaTables.value, if_neg hrel, if_neg (not_not.mpr huses), if_neg hdef]
    split <;> rfl
  rw [← htarget]
  constructor
  · rintro ⟨hinfo, hoffset, -, hsymbol, -, hdefined, hstore⟩
    obtain ⟨hsymbolValue, haddend⟩ := hdefined huses hdef
    exact ⟨hinfo, hoffset (.inr huses), hsymbol huses, hsymbolValue, haddend, hstore hvalue⟩
  · rintro ⟨hinfo, hoffset, hsymbol, hsymbolValue, haddend, hstore⟩
    exact ⟨hinfo, fun _ => hoffset, fun h => absurd h hrel, fun _ => hsymbol, fun _ h => absurd h hdef,
      fun _ _ => ⟨hsymbolValue, haddend⟩, fun _ => hstore⟩

theorem wp_relocateEntry_mapped {Q : Status → Memory → Prop} (hnone : ∃ a, m a = none) :
    wp (relocateEntry (symbolLookup table) start size T.rela T.dynsym T.dynstr T.base (BitVec.ofNat 64 i)) Q E m ↔
      Guarded (T.EntryMapped table start size m i) ((T.value table start size m i).elim (Q .Error_Invalid m) fun v =>
        Q .Ok (stored m 8 (T.target start m i) v)) (E .page_fault) := by
  have hentry : relaAt T.rela (BitVec.ofNat 64 i) = T.entry i := rfl
  have hoffset : wordAt m 8 (T.entry i) = T.offset m i := rfl
  have hinfo : wordAt m 8 (T.entry i + 8) = T.info m i := rfl
  have haddend : wordAt m 8 (T.entry i + 16) = T.addend m i := rfl
  have htype : ELF64_R_TYPE (T.info m i) = T.type m i := rfl
  have hsymbol : symbolAt T.dynsym (ELF64_R_SYM (T.info m i)) = T.symbol m i := rfl
  have hname : wordAt m 4 (T.symbol m i) = T.symbolName m i := rfl
  have hvalue : wordAt m 8 (T.symbol m i + 8) = T.symbolValue m i := rfl
  have h8 : (8 : Nat) < 2 ^ 64 := by decide
  unfold relocateEntry
  simp only [wp_bind, r_info, r_offset, r_addend, st_index, st_name, st_value, wp_load, hentry, hoffset, hinfo, haddend, htype,
    hsymbol, hname, hvalue, wp_ite, wp_store h8, wp_pure, wp_symbolLookup hnone, gt_iff_lt]
  by_cases hrel : T.type m i = R_X86_64_RELATIVE
  · have hresult : T.value table start size m i = some (T.base + T.addend m i) := if_pos hrel
    have htarget : T.target start m i = start + T.offset m i := by rw [RelaTables.target, if_pos hrel]
    rw [entryMapped_relative hrel, hresult, htarget, Option.elim_some]
    simp only [hrel, if_true, guarded_guarded]
  have htarget : T.target start m i = T.base + T.offset m i := by rw [RelaTables.target, if_neg hrel]
  rw [if_neg hrel, htarget]
  by_cases huses : T.UsesSymbol start size m i
  · rw [if_pos huses.1, if_neg (BitVec.not_lt.mpr huses.2)]
    by_cases hundef : T.Undefined m i
    · have hindex : wordAt m 2 (T.symbol m i + 6) = SHN_UNDEF := hundef
      have hresult : T.value table start size m i =
          if T.NameChecked start size m i ∧ table m (T.dynstr + T.symbolName m i) ≠ 0 then
            some (table m (T.dynstr + T.symbolName m i)) else none := by
        rw [RelaTables.value, if_neg hrel, if_neg (not_not.mpr huses), if_pos hundef]
      rw [entryMapped_undefined hrel huses hundef, hresult]
      by_cases hchecked : T.NameChecked start size m i
      · have hnot : ¬ start + size < symbolAt T.dynsym (T.symbolName m i) := BitVec.not_lt.mpr hchecked
        by_cases hzero : table m (T.dynstr + T.symbolName m i) = 0
        · simp only [hindex, if_true, hnot, if_false, hzero, hchecked, ne_eq, not_true_eq_false, and_false, Option.elim_none,
            Option.isSome_none, Bool.false_eq_true, false_implies, and_true, true_implies, guarded_guarded]
        · simp only [hindex, if_true, hnot, if_false, hzero, hchecked, ne_eq, not_false_eq_true, and_self, Option.elim_some,
            Option.isSome_some, true_implies, guarded_guarded]
      · have hlt : start + size < symbolAt T.dynsym (T.symbolName m i) := BitVec.not_le.mp hchecked
        simp only [hindex, if_true, hlt, hchecked, false_and, if_false, Option.elim_none, Option.isSome_none,
          Bool.false_eq_true, false_implies, and_true, guarded_guarded]
    · have hindex : ¬ wordAt m 2 (T.symbol m i + 6) = SHN_UNDEF := hundef
      have hresult : T.value table start size m i = if T.type m i = R_X86_64_64 then
          some (T.base + T.symbolValue m i + T.addend m i) else some (T.base + T.symbolValue m i) := by
        rw [RelaTables.value, if_neg hrel, if_neg (not_not.mpr huses), if_neg hundef]
      rw [entryMapped_defined hrel huses hundef, hresult]
      by_cases hwide : T.type m i = R_X86_64_64
      · simp only [hindex, if_false, hwide, if_true, Option.elim_some, true_implies, guarded_guarded]
      · simp only [hindex, if_false, hwide, Option.elim_some, false_implies, true_and, guarded_guarded]
  · have hresult : T.value table start size m i = none := by rw [RelaTables.value, if_neg hrel, if_pos huses]
    rw [entryMapped_refused hrel huses, hresult, Option.elim_none]
    by_cases hkind : T.type m i = R_X86_64_JUMP_SLOT ∨ T.type m i = R_X86_64_GLOB_DAT ∨ T.type m i = R_X86_64_64
    · have hlt : start + size < T.symbol m i + symbolSize := BitVec.not_le.mp fun hfits => huses ⟨hkind, hfits⟩
      simp only [hkind, if_true, hlt]
    · simp only [hkind, if_false]

/-! ## All entries -/

theorem none_stored {t v : Word} (hnone : ∃ a, m a = none) (hmapped : Mapped m t 8) : ∃ a, stored m 8 t v a = none := by
  obtain ⟨a, ha⟩ := hnone
  refine ⟨a, (stored_of_not_covers fun hcovers => ?_).trans ha⟩
  obtain ⟨k, hk, rfl⟩ := (covers_iff (by decide)).mp hcovers
  have hsome := hmapped k hk
  rw [ha] at hsome
  cases hsome

-- by induction on the entries that are left
theorem wp_relocateLoop_mapped {n : Nat} (hnone : ∃ a, m a = none) :
    wp (relocateLoop (symbolLookup table) start size T.rela T.dynsym T.dynstr T.base n (BitVec.ofNat 64 i))
      (fun status _ => status = .Ok ∨ status = .Error_Invalid) (fun _ => False) m ↔
      T.EntriesMapped table start size n i m := by
  induction n generalizing i m with
  | zero => simp [relocateLoop, RelaTables.EntriesMapped]
  | succ n ih =>
    have hnext : BitVec.ofNat 64 i + 1 = BitVec.ofNat 64 (i + 1) := (BitVec.ofNat_add ..).symm
    rw [relocateLoop, wp_bubble, wp_relocateEntry_mapped hnone, guarded_false, RelaTables.EntriesMapped, hnext]
    refine and_congr_right fun hentry => ?_
    cases hvalue : T.value table start size m i with
    | none => simp
    | some v =>
      have hmapped := hentry.target (by rw [hvalue]; rfl)
      simp only [Option.elim_some, if_true, Option.some.injEq, forall_eq', ih (none_stored hnone hmapped)]

end Entry

/-! ## `elf_relocate` -/

def baseAddress (m : Memory) (start size : Word) : Word :=
  if sectionTable m start + headersSize m start > start + size ∨ baseOffset m start = ELF_BAD_BASE_ADDRESS then 0
  else start + baseOffset m start

theorem wp_elf_get_base_address_any {Q : Word → Memory → Prop} (hfields : FieldsMapped m start size) :
    wp (elf_get_base_address start size) Q E m ↔
      Guarded (BaseMapped m start size) (Q (baseAddress m start size) m) (E .page_fault) := by
  have htable : start + wordAt m 8 (start + 40) = sectionTable m start := rfl
  have hcount : wordAt m 2 (start + 60) = sectionCount m start := rfl
  have hsize : ((wordAt m 2 (start + 58) * sectionCount m start).setWidth 32).signExtend 64 = headersSize m start := rfl
  have hbase : BaseMapped m start size ↔ Mapped m (start + 58) 2 ∧ (sectionTable m start + headersSize m start ≤ start + size →
      ∀ i < (sectionCount m start).toNat, HeaderMapped m start i) := ⟨fun h => ⟨h.1, h.2⟩, fun h => ⟨h.1, h.2⟩⟩
  have hheaders : (∀ k, 0 ≤ k → k < 0 + (sectionCount m start).toNat → HeaderMapped m start k) ↔
      ∀ i < (sectionCount m start).toNat, HeaderMapped m start i := by simp
  have hloop : ∀ {Q : Word → Memory → Prop}, wp (baseLoop (sectionTable m start) (sectionCount m start).toNat 0
      ELF_BAD_BASE_ADDRESS) Q E m ↔ Guarded (∀ i < (sectionCount m start).toNat, HeaderMapped m start i)
        (Q (baseOffset m start) m) (E .page_fault) := by
    intro Q
    rw [← hheaders]
    exact wp_baseLoop_any (i := 0)
  unfold elf_get_base_address
  simp only [wp_bind, e_shoff, e_shnum, e_shentsize, wp_load, guarded_of hfields.offset, guarded_of hfields.count, htable,
    hcount, hsize, wp_ite, wp_pure, hloop, hbase, gt_iff_lt]
  by_cases hend : start + size < sectionTable m start + headersSize m start
  · have hnull : baseAddress m start size = 0 := if_pos (.inl hend)
    simp only [hend, if_true, hnull, BitVec.not_le.mpr hend, false_implies, and_true]
  · by_cases hbad : baseOffset m start = ELF_BAD_BASE_ADDRESS
    · have hnull : baseAddress m start size = 0 := if_pos (.inr hbad)
      simp only [hend, if_false, hbad, if_true, hnull, BitVec.not_lt.mp hend, true_implies, guarded_guarded]
    · have hgood : baseAddress m start size = start + baseOffset m start := if_neg (not_or.mpr ⟨hend, hbad⟩)
      simp only [hend, if_false, hbad, hgood, BitVec.not_lt.mp hend, true_implies, guarded_guarded]

theorem wp_base_entries {rela dynsym dynstr : Word} {n : Nat} (hnone : ∃ a, m a = none) (hfields : FieldsMapped m start size) :
    wp (elf_get_base_address start size) (fun base m' => ¬ base = 0 →
      wp (relocateLoop (symbolLookup table) start size rela dynsym dynstr base n 0)
        (fun status _ => status = .Ok ∨ status = .Error_Invalid) (fun _ => False) m') (fun _ => False) m ↔
      BaseMapped m start size ∧ ∀ base, (elf_get_base_address start size).run m = .ok (base, m) → base ≠ 0 →
        RelaTables.EntriesMapped ⟨rela, dynsym, dynstr, base⟩ table start size n 0 m := by
  have hentries : ∀ base, wp (relocateLoop (symbolLookup table) start size rela dynsym dynstr base n 0)
      (fun status _ => status = .Ok ∨ status = .Error_Invalid) (fun _ => False) m ↔
      RelaTables.EntriesMapped ⟨rela, dynsym, dynstr, base⟩ table start size n 0 m :=
    fun base => wp_relocateLoop_mapped (T := ⟨rela, dynsym, dynstr, base⟩) (i := 0) hnone
  rw [wp_elf_get_base_address_any hfields, guarded_false]
  refine and_congr_right fun hbase => ?_
  have hrun : (elf_get_base_address start size).run m = .ok (baseAddress m start size, m) :=
    run_eq_ok_iff.mpr ((wp_elf_get_base_address_any hfields).mpr ((guarded_of hbase).mpr ⟨rfl, rfl⟩))
  simp only [hentries]
  constructor
  · intro h base hbaseRun hne
    rw [hrun] at hbaseRun
    cases hbaseRun
    exact h hne
  · exact fun h hne => h _ hrun hne

theorem onlyImage_filled (start size : Word) : OnlyImage (filled (fun _ => none) start size.toNat 0) start size := by
  intro x
  unfold filled Covers
  split <;> simp_all

theorem covers_image {a x : Word} {n : Nat} (hfit : (a - start).toNat + n ≤ size.toNat) (h : Covers a n x) :
    Covers start size.toNat x := by
  refine covers_part (k := (a - start).toNat) hfit size.isLt.le ?_
  rwa [BitVec.ofNat_toNat, BitVec.setWidth_eq, show start + (a - start) = a by bv_omega]

theorem onlyImage_stored {a v : Word} {n : Nat} (hfit : (a - start).toNat + n ≤ size.toNat) (h : OnlyImage m start size) :
    OnlyImage (stored m n a v) start size := by
  intro x
  by_cases hx : Covers a n x
  · have hstored : (stored m n a v x).isSome := by
      unfold stored
      rw [if_pos (show (x - a).toNat < n from hx)]
      rfl
    exact ⟨fun _ => covers_image hfit hx, fun _ => hstored⟩
  · rw [stored_of_not_covers hx]
    exact h x

theorem onlyImage_withBytes {a : Word} {bs : List Byte} (hfit : (a - start).toNat + bs.length ≤ size.toNat)
    (h : OnlyImage m start size) : OnlyImage (withBytes m a bs) start size := by
  intro x
  unfold withBytes
  by_cases hx : Covers a bs.length x
  · rw [List.getElem?_eq_getElem hx, Option.some_or]
    exact ⟨fun _ => covers_image hfit hx, fun _ => rfl⟩
  · rw [List.getElem?_eq_none (Nat.not_lt.mp hx), Option.none_or]
    exact h x

theorem oneEntry_only (info : Word) : OnlyImage (Relocation.oneEntry info) 0x1000 554 := by
  unfold Relocation.oneEntry withSymbol withSection
  repeat first | refine onlyImage_stored (by decide) ?_ | refine onlyImage_withBytes (by decide) ?_
  exact onlyImage_filled 0x1000 554

/-- The relative entry of the image, for a place behind its end. -/
def strayEntry : Memory := stored (Relocation.oneEntry 8) 8 0x1212 0x100000

end KernelOfTruth.RelocationBounds
