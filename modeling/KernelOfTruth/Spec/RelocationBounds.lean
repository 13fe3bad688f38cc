import KernelOfTruth.Spec.Symbols

/-!
# What relocation reads and writes

Entry by entry. An entry may overwrite those that come after it, and the other tables too.
-/

open KernelOfTruth.Code

namespace KernelOfTruth.Spec

/-- Nothing but the image is mapped. -/
def OnlyImage (m : Memory) (start size : Word) : Prop := ∀ a, (m a).isSome ↔ Covers start size.toNat a

/-- The text at `p` is mapped, up to its NUL. -/
def NameMapped (m : Memory) (p : Word) : Prop := ∃ n, charAt m p n = 0 ∧ Mapped m p (n + 1)

/-- The tables of `elf_relocate`, and the base address. -/
structure RelaTables where
  rela : Word
  dynsym : Word
  dynstr : Word
  base : Word

namespace RelaTables

variable (T : RelaTables) (table : Memory → Word → Word) (start size : Word) (m : Memory) (i : Nat)

def entry : Word := relaAt T.rela (BitVec.ofNat 64 i)
def offset : Word := wordAt m 8 (T.entry i)
def info : Word := wordAt m 8 (T.entry i + 8)
def addend : Word := wordAt m 8 (T.entry i + 16)
def type : Word := ELF64_R_TYPE (T.info m i)
def symbol : Word := symbolAt T.dynsym (ELF64_R_SYM (T.info m i))
def symbolName : Word := wordAt m 4 (T.symbol m i)
def symbolValue : Word := wordAt m 8 (T.symbol m i + 8)

/-- The entry needs a symbol, and this one passes the check. -/
def UsesSymbol : Prop :=
  (T.type m i = R_X86_64_JUMP_SLOT ∨ T.type m i = R_X86_64_GLOB_DAT ∨ T.type m i = R_X86_64_64) ∧
    T.symbol m i + symbolSize ≤ start + size

instance : Decidable (T.UsesSymbol start size m i) := inferInstanceAs (Decidable (_ ∧ _))

def Undefined : Prop := wordAt m 2 (T.symbol m i + 6) = SHN_UNDEF

instance : Decidable (T.Undefined m i) := inferInstanceAs (Decidable (_ = _))

/-- The offset of the name passes the check, which compares a symbol with the end of the image and not a string. -/
def NameChecked : Prop := symbolAt T.dynsym (T.symbolName m i) ≤ start + size

instance : Decidable (T.NameChecked start size m i) := inferInstanceAs (Decidable (_ ≤ _))

def target : Word := (if T.type m i = R_X86_64_RELATIVE then start else T.base) + T.offset m i

/-- The value that is stored, unless the entry is refused. -/
def value : Option Word :=
  if T.type m i = R_X86_64_RELATIVE then some (T.base + T.addend m i)
  else if ¬ T.UsesSymbol start size m i then none
  else if T.Undefined m i then
    if T.NameChecked start size m i ∧ table m (T.dynstr + T.symbolName m i) ≠ 0 then
      some (table m (T.dynstr + T.symbolName m i))
    else none
  else if T.type m i = R_X86_64_64 then some (T.base + T.symbolValue m i + T.addend m i)
  else some (T.base + T.symbolValue m i)

/-- All that is read for the entry is in the image, and so is what is written. -/
structure EntryMapped : Prop where
  info : Mapped m (T.entry i + 8) 8
  offset : T.type m i = R_X86_64_RELATIVE ∨ T.UsesSymbol start size m i → Mapped m (T.entry i) 8
  relative : T.type m i = R_X86_64_RELATIVE → Mapped m (T.entry i + 16) 8
  symbol : T.UsesSymbol start size m i → Mapped m (T.symbol m i + 6) 2
  undefined : T.UsesSymbol start size m i → T.Undefined m i → Mapped m (T.symbol m i) 4 ∧
    (T.NameChecked start size m i → NameMapped m (T.dynstr + T.symbolName m i))
  defined : T.UsesSymbol start size m i → ¬ T.Undefined m i → Mapped m (T.symbol m i + 8) 8 ∧
    (T.type m i = R_X86_64_64 → Mapped m (T.entry i + 16) 8)
  target : (T.value table start size m i).isSome → Mapped m (T.target start m i) 8

/-- The `n` entries from number `i` on, each one in the memory that the ones before it leave. -/
def EntriesMapped : Nat → Nat → Memory → Prop
  | 0, _, _ => True
  | n + 1, i, m => T.EntryMapped table start size m i ∧ ∀ v, T.value table start size m i = some v →
      EntriesMapped n (i + 1) (stored m 8 (T.target start m i) v)

end RelaTables

section Image

variable (table : Memory → Word → Word) (m : Memory) (start size : Word)

/-- The section headers that lead to the base address. -/
structure BaseMapped : Prop where
  entry_size : Mapped m (start + 58) 2
  headers : sectionTable m start + headersSize m start ≤ start + size →
    ∀ i < (sectionCount m start).toNat, HeaderMapped m start i

/-- All that relocation reads and writes is in the image, as far as it comes. -/
def RelocationMapped : Prop :=
  FieldsMapped m start size ∧ SearchInside m start size (ascii ".dynstr") ∧
    ((sectionOf m start size (ascii ".dynstr")).1 ≠ 0 → SearchInside m start size (ascii ".rela.dyn") ∧
      ((sectionOf m start size (ascii ".rela.dyn")).1 ≠ 0 → SearchInside m start size (ascii ".dynsym") ∧
        ((sectionOf m start size (ascii ".dynsym")).1 ≠ 0 → BaseMapped m start size ∧
          ∀ base, (elf_get_base_address start size).run m = .ok (base, m) → base ≠ 0 →
            RelaTables.EntriesMapped ⟨(sectionOf m start size (ascii ".rela.dyn")).1,
              (sectionOf m start size (ascii ".dynsym")).1, (sectionOf m start size (ascii ".dynstr")).1, base⟩
              table start size ((sectionOf m start size (ascii ".rela.dyn")).2 / relaSize).toNat 0 m)))

/-- Relocation returns, and stops with a page fault at no byte outside of the image. -/
def RelocatesInside : Prop := ∃ status m', (elf_relocate (symbolLookup table) start size).run m = .ok (status, m') ∧
  (status = .Ok ∨ status = .Error_Invalid)

end Image

end KernelOfTruth.Spec
