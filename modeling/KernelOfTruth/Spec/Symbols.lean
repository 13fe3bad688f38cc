import KernelOfTruth.Spec.Elf
import KernelOfTruth.Spec.Hashtable

/-!
# Well-formed images and their symbols
-/

open KernelOfTruth.Code

namespace KernelOfTruth.Spec

/-- A text with its NUL. -/
structure IsText (m : Memory) (p : Word) (text : List Byte) : Prop where
  char_eq : ∀ k ≤ text.length, charAt m p k = text.getD k 0
  no_nul : ∀ k < text.length, text.getD k 0 ≠ 0

/-- The `n` bytes from `a` on are in the image. -/
def Inside (start size a : Word) (n : Nat) : Prop :=
  start.toNat ≤ a.toNat ∧ a.toNat + n ≤ start.toNat + size.toNat

/-- There is a text at `p`, and it ends in the image. -/
def TextInside (m : Memory) (start size p : Word) : Prop :=
  ∃ text, IsText m p text ∧ Inside start size p (text.length + 1)

/-- What the comparison of the symbol table returns. -/
def strComp (m : Memory) (key_a key_b : Word) : Partial :=
  if SameText (charAt m key_a) (charAt m key_b) Page_Small.toNat then .Partial_Equal else .Partial_Not_Equal

section Image

variable (m : Memory) (start size : Word)

/-- The image is mapped, and its section headers and their names are inside of it. -/
structure WellFormedSections : Prop where
  mapped : Mapped m start size.toNat
  nonnull : start ≠ 0
  no_wrap : start.toNat + size.toNat < 2 ^ 64
  header : 64 ≤ size.toNat
  entry_size : wordAt m 2 (start + 58) = sectionHeaderSize
  table : Inside start size (sectionTable m start) (64 * (sectionCount m start).toNat)
  name_index : nameTableIndex m start < sectionCount m start
  names : ∀ i < sectionCount m start, TextInside m start size (sectionName m start i)

/-! ## Symbols -/

def stringTable : Word := (sectionOf m start size (ascii ".strtab")).1
def symbolTable : Word := (sectionOf m start size (ascii ".symtab")).1
def symbolCount : Nat := ((sectionOf m start size (ascii ".symtab")).2 / symbolSize).toNat

/-- The address of symbol number `i`. -/
def symbolEntry (i : Nat) : Word := symbolAt (symbolTable m start size) (BitVec.ofNat 64 i)

def symbolName (i : Nat) : Word := stringTable m start size + wordAt m 4 (symbolEntry m start size i)
def symbolInfo (i : Nat) : Word := wordAt m 1 (symbolEntry m start size i + 4)
def symbolIndex (i : Nat) : Word := wordAt m 2 (symbolEntry m start size i + 6)
def symbolValue (i : Nat) : Word := wordAt m 8 (symbolEntry m start size i + 8)

structure WellFormedSymbols : Prop extends WellFormedSections m start size where
  stringTable_ne : stringTable m start size ≠ 0
  symbolTable_ne : symbolTable m start size ≠ 0
  symbols : ∀ i < symbolCount m start size, Inside start size (symbolEntry m start size i) 24
  symbol_names : ∀ i < symbolCount m start size, TextInside m start size (symbolName m start size i)

/-- A global function or object. -/
def Exported (i : Nat) : Prop := i < symbolCount m start size ∧ is_exported (symbolInfo m start size i) = true

/-- Where `module_insert_symbols` says that the symbol is. -/
def publishedAddress (i : Nat) : Word :=
  start + sectionOffset m start (symbolIndex m start size i) + symbolValue m start size i

/-- The symbol is defined in a section. Its value is counted from the start of a section, or of the image when some
section starts there. -/
structure DefinedInSection (i : Nat) : Prop where
  index : symbolIndex m start size i ≠ SHN_UNDEF ∧ symbolIndex m start size i < sectionCount m start
  not_null : sectionType m start (symbolIndex m start size i) ≠ SHT_NULL
  inside : ∃ k < sectionCount m start, sectionType m start k ≠ SHT_NULL ∧
    (sectionOffset m start k).toNat + (symbolValue m start size i).toNat ≤ size.toNat
  no_wrap : start.toNat + (sectionOffset m start (symbolIndex m start size i)).toNat +
    (symbolValue m start size i).toNat < 2 ^ 64

/-- No other symbol has a name that starts with this one, or with as much of it as the symbol table looks at. -/
def NoOtherName (i : Nat) (name : List Byte) : Prop :=
  ∀ j < symbolCount m start size, j ≠ i → ¬ SameText (charAt m (symbolName m start size j)) (fun k => name.getD k 0)
    (min name.length Page_Small.toNat)

/-- No section starts before the one of the symbol. -/
def InLowestSection (i : Nat) : Prop :=
  ∀ k < sectionCount m start, sectionType m start k ≠ SHT_NULL →
    sectionOffset m start (symbolIndex m start size i) ≤ sectionOffset m start k

/-- The search for the symbol is not given up at another one before it. -/
def Reachable (i : Nat) : Prop :=
  ∀ j < i, ELF64_R_TYPE (symbolInfo m start size j) = STT_FILE ∨
    sectionIndex m start size (symbolIndex m start size j) ≠ 0

end Image

end KernelOfTruth.Spec
