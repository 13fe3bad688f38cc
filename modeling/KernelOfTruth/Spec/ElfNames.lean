import KernelOfTruth.Spec.Symbols

/-!
# Lookups by name in an ELF image

What the two lookups are for, and what they look at.
-/

open KernelOfTruth.Code

namespace KernelOfTruth.Spec

instance (m : Memory) (p : Word) (text : List Byte) : Decidable (IsText m p text) :=
  decidable_of_iff ((∀ k ≤ text.length, charAt m p k = text.getD k 0) ∧ ∀ k < text.length, text.getD k 0 ≠ 0)
    ⟨fun h => ⟨h.1, h.2⟩, fun h => ⟨h.char_eq, h.no_nul⟩⟩

section Sections

variable (m : Memory) (start size : Word) (name : List Byte)

/-- A section and its size. -/
def sectionContents (i : Nat) : Word × Word :=
  (start + sectionOffset m start (BitVec.ofNat 64 i), sectionSize m start (BitVec.ofNat 64 i))

/-- The first section with the name. -/
def sectionNamed : Option Nat :=
  (List.range (sectionCount m start).toNat).find? fun i => IsText m (sectionName m start (BitVec.ofNat 64 i)) name

/-- The first section with a name that starts with `name`. -/
def sectionStarting : Option Nat :=
  (List.range (sectionCount m start).toNat).find? fun i => Named m start size name (BitVec.ofNat 64 i)

end Sections

/-- The symbols of an image, with their names. -/
structure SymbolTables where
  strings : Word
  symbols : Word
  count : Nat
  deriving DecidableEq

/-- The tables, when `find` finds sections. -/
def tablesBy (m : Memory) (start : Word) (find : List Byte → Option Nat) : Option SymbolTables := do
  let strtab ← find (ascii ".strtab")
  let symtab ← find (ascii ".symtab")
  pure ⟨(sectionContents m start strtab).1, (sectionContents m start symtab).1,
    ((sectionContents m start symtab).2 / symbolSize).toNat⟩

namespace SymbolTables

variable (T : SymbolTables) (m : Memory) (start size base : Word) (name : List Byte) (i : Nat)

def entry : Word := symbolAt T.symbols (BitVec.ofNat 64 i)
def nameAt : Word := T.strings + wordAt m 4 (T.entry i)
def info : Word := wordAt m 1 (T.entry i + 4)
def index : Word := wordAt m 2 (T.entry i + 6)
def value : Word := wordAt m 8 (T.entry i + 8)

/-- The address of the first symbol with the name that is not the name of a file. -/
def addressOf : Word :=
  ((List.range T.count).find? fun i => ELF64_ST_TYPE (T.info m i) ≠ STT_FILE ∧ IsText m (T.nameAt m i) name).elim 0
    fun i => base + T.value m i

/-! ## The search -/

/-- The search gives up at this symbol, whatever its name is. -/
def GivesUp : Prop := start + size < T.nameAt m i ∨ sectionIndex m start size (T.index m i) = 0

instance : Decidable (T.GivesUp m start size i) := inferInstanceAs (Decidable (_ ∨ _))

/-- The name of the symbol starts with `name`. -/
def Starts : Prop := SameText (charAt m (T.nameAt m i)) (fun k => name.getD k 0) name.length

instance : Decidable (T.Starts m name i) := inferInstanceAs (Decidable (SameText ..))

/-- The search ends at this symbol. -/
def Stops : Prop := ELF64_R_TYPE (T.info m i) ≠ STT_FILE ∧ (T.GivesUp m start size i ∨ T.Starts m name i)

instance : Decidable (T.Stops m start size name i) := inferInstanceAs (Decidable (_ ∧ _))

/-- What the search returns when it ends at this symbol. -/
def answer : Word :=
  if T.GivesUp m start size i ∨ start + size < base + T.value m i then 0 else base + T.value m i

def found : Word :=
  ((List.range T.count).find? fun i => T.Stops m start size name i).elim 0 fun i => T.answer m start size base i

/-- The search reads the symbol where memory is mapped. -/
structure SymbolMapped : Prop where
  kind : Mapped m (T.entry i + 4) 1
  name_offset : ELF64_R_TYPE (T.info m i) ≠ STT_FILE → Mapped m (T.entry i) 4
  section_index : ELF64_R_TYPE (T.info m i) ≠ STT_FILE → T.nameAt m i ≤ start + size → Mapped m (T.entry i + 6) 2
  text : ELF64_R_TYPE (T.info m i) ≠ STT_FILE → ¬ T.GivesUp m start size i → ∀ k < name.length,
    ComesTo (charAt m (T.nameAt m i)) (fun k => name.getD k 0) k → (m (T.nameAt m i + BitVec.ofNat 64 k)).isSome
  location : ELF64_R_TYPE (T.info m i) ≠ STT_FILE → ¬ T.GivesUp m start size i → T.Starts m name i →
    Mapped m (T.entry i + 8) 8

/-- So it does for all symbols up to the one at which it ends. -/
def SearchMapped : Prop := ∀ i < T.count, (∀ j < i, ¬ T.Stops m start size name j) → T.SymbolMapped m start size name i

end SymbolTables

section Lookups

variable (m : Memory) (start size base : Word) (name : List Byte)

/-- All sections start in the image, and so do their names, the symbols and the names of the symbols. -/
structure WellFormedImage : Prop extends WellFormedSections m start size where
  active : ∃ i < sectionCount m start, sectionType m start i ≠ SHT_NULL
  contents : ∀ i < sectionCount m start, sectionOffset m start i ≤ size
  name_table : nameTable m start < start + size
  symbols : ∀ T, tablesBy m start (sectionNamed m start) = some T → ∀ i < T.count,
    Inside start size (T.entry i) 24 ∧ TextInside m start size (T.nameAt m i)

/-- The lookups find the first section and the first symbol with exactly this name, and nothing if there is none. The size
of a section means nothing when there is none. -/
structure LookupsExact : Prop where
  of_section : ∃ r, (elf_get_section start size name).run m = .ok (r, m) ∧
    match sectionNamed m start name with
    | some i => r = sectionContents m start i
    | none => r.1 = 0
  of_symbol : (elf_get_symbol_address start size name).run m =
    .ok ((tablesBy m start (sectionNamed m start)).elim 0 fun T => T.addressOf m base name, m)

/-- What is found by the start of its name is what has the name. -/
structure NamesClear : Prop where
  of_section : (sectionStarting m start size name).map (sectionContents m start) =
    (sectionNamed m start name).map (sectionContents m start)
  mapped : ∀ T, tablesBy m start (sectionStarting m start size) = some T → T.SearchMapped m start size name
  of_symbol : (tablesBy m start (sectionStarting m start size)).elim 0 (fun T => T.found m start size base name) =
    (tablesBy m start (sectionNamed m start)).elim 0 fun T => T.addressOf m base name

end Lookups

end KernelOfTruth.Spec
