import KernelOfTruth.Spec.Symbols

/-!
# What relocation is for

The entries of `.rela.dyn` of an image, for the base `base` and the addresses `address` of other modules' symbols, by
their name.
-/

open KernelOfTruth.Code

namespace KernelOfTruth.Spec

section Image

variable (m : Memory) (start size base : Word) (address : Word → Word)

/-! ## Entries -/

def relaTable : Word := (sectionOf m start size (ascii ".rela.dyn")).1
def relaCount : Nat := ((sectionOf m start size (ascii ".rela.dyn")).2 / relaSize).toNat
def dynsymTable : Word := (sectionOf m start size (ascii ".dynsym")).1
def dynstrTable : Word := (sectionOf m start size (ascii ".dynstr")).1

variable (i : Nat)

def relaEntry : Word := relaAt (relaTable m start size) (BitVec.ofNat 64 i)
def relaOffset : Word := wordAt m 8 (relaEntry m start size i)
def relaInfo : Word := wordAt m 8 (relaEntry m start size i + 8)
def relaAddend : Word := wordAt m 8 (relaEntry m start size i + 16)

def relaType : Word := ELF64_R_TYPE (relaInfo m start size i)

/-- The symbol of the entry in `.dynsym`. -/
def relaSymbol : Word := symbolAt (dynsymTable m start size) (ELF64_R_SYM (relaInfo m start size i))

def relaName : Word := dynstrTable m start size + wordAt m 4 (relaSymbol m start size i)
def relaIndex : Word := wordAt m 2 (relaSymbol m start size i + 6)
def relaValue : Word := wordAt m 8 (relaSymbol m start size i + 8)

def IsRelative : Prop := relaType m start size i = R_X86_64_RELATIVE
def IsUndefined : Prop := relaIndex m start size i = SHN_UNDEF

instance : Decidable (IsRelative m start size i) := inferInstanceAs (Decidable (_ = _))
instance : Decidable (IsUndefined m start size i) := inferInstanceAs (Decidable (_ = _))

/-! ## The ABI -/

/-- The address of the symbol of the entry. -/
def relaAddress : Word :=
  if IsUndefined m start size i then address (relaName m start size i) else base + relaValue m start size i

def slot : Word := base + relaOffset m start size i

def slotValue : Word :=
  if IsRelative m start size i then base + relaAddend m start size i
  else if relaType m start size i = R_X86_64_64 then
    relaAddress m start size base address i + relaAddend m start size i
  else relaAddress m start size base address i

/-- Every slot has its value, and nothing else in the image has changed. -/
def Relocated (m' : Memory) : Prop :=
  (∀ i < relaCount m start size, wordAt m' 8 (slot m start size base i) = slotValue m start size base address i) ∧
  ∀ x, Covers start size.toNat x → (∀ i < relaCount m start size, ¬ Covers (slot m start size base i) 8 x) → m' x = m x

/-! ## Well-formed images -/

/-- A byte of an entry, of its symbol or of its name. -/
def ReadByte (x : Word) : Prop :=
  ∃ i < relaCount m start size, Covers (relaEntry m start size i) 24 x ∨ ¬ IsRelative m start size i ∧
    (Covers (relaSymbol m start size i) 24 x ∨
      ∃ text, IsText m (relaName m start size i) text ∧ Covers (relaName m start size i) (text.length + 1) x)

structure WellFormedRelocations : Prop extends WellFormedSections m start size where
  entries : ∀ i < relaCount m start size, Inside start size (relaEntry m start size i) 24
  symbols : ∀ i < relaCount m start size, ¬ IsRelative m start size i →
    Inside start size (relaSymbol m start size i) 24
  symbol_names : ∀ i < relaCount m start size, ¬ IsRelative m start size i → IsUndefined m start size i →
    TextInside m start size (relaName m start size i)
  targets : ∀ i < relaCount m start size, base.toNat + (relaOffset m start size i).toNat + 8 ≤ start.toNat + size.toNat
  apart : ∀ i < relaCount m start size, ∀ j < relaCount m start size, j ≠ i → ∀ x,
    Covers (slot m start size base i) 8 x → ¬ Covers (slot m start size base j) 8 x
  off_tables : ∀ i < relaCount m start size, ∀ x, Covers (slot m start size base i) 8 x → ¬ ReadByte m start size x

/-- `symbol_get` finds the address of a name. It changes no byte, and of those that relocation may change it reads only
the name. -/
def Finds (symbol_get : Word → Kernel Memory Word) : Prop :=
  ∀ p text m', IsText m p text → (∀ x, Covers p (text.length + 1) x → m' x = m x) →
    (symbol_get p).run m' = .ok (address p, m')

/-- The entries that the kernel handles as the ABI says. -/
structure Supported : Prop where
  relative : base = start ∨ ∀ i < relaCount m start size, ¬ IsRelative m start size i
  addend : ∀ i < relaCount m start size, relaType m start size i = R_X86_64_64 → IsUndefined m start size i →
    relaAddend m start size i = 0

/-- No relative slot has its value before the relocation, the places at the same offsets from the start of the image are
not in the tables, and no section starts inside of the first 8 bytes. -/
structure Unrelocated : Prop where
  relative : ∀ i < relaCount m start size, IsRelative m start size i →
    wordAt m 8 (slot m start size base i) ≠ base + relaAddend m start size i
  off_tables : ∀ i < relaCount m start size, IsRelative m start size i → ∀ x,
    Covers (start + relaOffset m start size i) 8 x → ¬ ReadByte m start size x
  base_far : base = start ∨ start.toNat + 8 ≤ base.toNat

end Image

end KernelOfTruth.Spec
