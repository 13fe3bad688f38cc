import KernelOfTruth.Code.Module
import KernelOfTruth.Spec.Strings

/-!
# What is in an ELF image

The fields of the image at the address `start`, as they are read. An address that the kernel computes from them may be
anything, so it is also said for each read which bytes have to be in the image.
-/

open KernelOfTruth.Code

namespace KernelOfTruth.Spec

section Elf

variable (m : Memory) (start size : Word)

/-! ## Sections -/

def sectionTable : Word := start + wordAt m 8 (start + 40)
def sectionCount : Word := wordAt m 2 (start + 60)
def nameTableIndex : Word := wordAt m 2 (start + 62)

/-- The address of section header number `i`. -/
def sectionHeader (i : Word) : Word := sectionAt (sectionTable m start) i

def nameTable : Word := start + wordAt m 8 (sectionHeader m start (nameTableIndex m start) + 24)

def sectionName (i : Word) : Word := nameTable m start + wordAt m 4 (sectionHeader m start i)
def sectionType (i : Word) : Word := wordAt m 4 (sectionHeader m start i + 4)
def sectionOffset (i : Word) : Word := wordAt m 8 (sectionHeader m start i + 24)
def sectionSize (i : Word) : Word := wordAt m 8 (sectionHeader m start i + 32)

/-- The checks that `elf_get_section` makes before it looks at a section. -/
def TablesFit : Prop :=
  sectionTable m start + sectionHeaderSize * sectionCount m start ≤ start + size ∧ nameTable m start < start + size

instance : Decidable (TablesFit m start size) := inferInstanceAs (Decidable (_ ∧ _))

/-- The name of the section starts with `name`. -/
def Named (name : List Byte) (i : Word) : Prop :=
  sectionName m start i < start + size ∧
    SameText (fun k => name.getD k 0) (charAt m (sectionName m start i)) name.length

instance (name : List Byte) (i : Word) : Decidable (Named m start size name i) := inferInstanceAs (Decidable (_ ∧ _))

/-- The section as `elf_get_section` returns it, when it is one of the `n` from number `i` on. -/
def sectionFrom (name : List Byte) : Nat → Word → Word × Word
  | 0, _ => (0, 0)
  | n + 1, i =>
    if Named m start size name i then
      if start + sectionOffset m start i > start + size then (0, 0)
      else (start + sectionOffset m start i, sectionSize m start i)
    else sectionFrom name n (i + 1)

def sectionOf (name : List Byte) : Word × Word :=
  if TablesFit m start size then sectionFrom m start size name (sectionCount m start).toNat 0 else (0, 0)

/-- The header of the section, as `elf_get_section_index` returns it. -/
def sectionIndex (index : Word) : Word :=
  if sectionTable m start + sectionHeaderSize * sectionCount m start > start + size then 0
  else if sectionHeader m start index < start + size then sectionHeader m start index
  else 0

/-! ## What has to be in the image -/

/-- The fields of the header that a search for a section reads. -/
structure FieldsMapped : Prop where
  offset : Mapped m (start + 40) 8
  count : Mapped m (start + 60) 2
  names : sectionTable m start + sectionHeaderSize * sectionCount m start ≤ start + size → Mapped m (start + 62) 2

/-- The search for a section reads section number `i` inside of the image. -/
structure SectionInside (name : List Byte) (i : Word) : Prop where
  name_offset : Mapped m (sectionHeader m start i) 4
  text : sectionName m start i < start + size → ∀ k < name.length,
    ComesTo (fun k => name.getD k 0) (charAt m (sectionName m start i)) k →
      (m (sectionName m start i + BitVec.ofNat 64 k)).isSome
  offset : Named m start size name i → Mapped m (sectionHeader m start i + 24) 8
  bytes : Named m start size name i → start + sectionOffset m start i ≤ start + size →
    Mapped m (sectionHeader m start i + 32) 8

/-- The search for a section, which ends at the first with the name, stays inside of the image. -/
def SearchInside (name : List Byte) : Prop :=
  sectionTable m start + sectionHeaderSize * sectionCount m start ≤ start + size →
    Mapped m (sectionHeader m start (nameTableIndex m start) + 24) 8 ∧
    (nameTable m start < start + size → ∀ k < (sectionCount m start).toNat,
      (∀ j < k, ¬ Named m start size name (BitVec.ofNat 64 j)) → SectionInside m start size name (BitVec.ofNat 64 k))

/-- What `elf_get_base_address` reads of section number `i`. -/
def HeaderMapped (i : Nat) : Prop :=
  Mapped m (sectionHeader m start (BitVec.ofNat 64 i) + 4) 4 ∧ (sectionType m start (BitVec.ofNat 64 i) ≠ SHT_NULL →
    Mapped m (sectionHeader m start (BitVec.ofNat 64 i) + 24) 8)

/-- The size of the section headers as `elf_get_base_address` computes it. -/
def headersSize : Word := ((wordAt m 2 (start + 58) * sectionCount m start).setWidth 32).signExtend 64

/-- The section was found, and it ends inside of the image as far as the kernel checks. -/
def Usable (s : Word × Word) : Prop := s.1 ≠ 0 ∧ s.1 + s.2 ≤ start + size

instance (s : Word × Word) : Decidable (Usable start size s) := inferInstanceAs (Decidable (_ ∧ _))

def dynTag (dynamic : Word) (i : Nat) : Word := wordAt m 8 (dynamic + dynSize * BitVec.ofNat 64 i)

/-- The entries of `.dynamic` up to the first with the name of the module. -/
def DynamicInside (dynamic : Word × Word) : Prop :=
  ∀ k < (dynamic.2 / dynSize).toNat, (∀ j < k, dynTag m dynamic.1 j ≠ DT_SONAME) →
    Mapped m (dynamic.1 + dynSize * BitVec.ofNat 64 k) 8 ∧
    (dynTag m dynamic.1 k = DT_SONAME → Mapped m (dynamic.1 + dynSize * BitVec.ofNat 64 k + 8) 8)

/-- The image passes `elf_verify`. -/
def Verified : Prop :=
  headerSize < size ∧ (∀ k < 4, charAt m start k = ELFMAG.getD k 0) ∧ wordAt m 4 (start + 20) = EV_CURRENT ∧
    wordAt m 2 (start + 18) = EM_X86_64 ∧ byteAt m (start + 4) = ELFCLASS64 ∧
    nameTableIndex m start ≤ sectionCount m start

instance : Decidable (Verified m start size) := inferInstanceAs (Decidable (_ ∧ _))

def IsRelocatable : Prop := wordAt m 2 (start + 16) = ET_REL

/-- The way to the name of a module stays inside of the image. -/
def NameInside : Prop :=
  SearchInside m start size (ascii ".dynamic") ∧
    (Usable start size (sectionOf m start size (ascii ".dynamic")) →
      SearchInside m start size (ascii ".dynstr") ∧
      (Usable start size (sectionOf m start size (ascii ".dynstr")) →
        DynamicInside m (sectionOf m start size (ascii ".dynamic"))))

end Elf

end KernelOfTruth.Spec
