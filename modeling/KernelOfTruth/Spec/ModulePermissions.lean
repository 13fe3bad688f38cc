import KernelOfTruth.Code.ModuleInit
import KernelOfTruth.Spec.PageRanges

/-!
# The permissions of the pages of a module

A module is mapped writable. Its delimiters say which pages hold code, data and constants.
-/

open KernelOfTruth.Code

namespace KernelOfTruth.Spec

/-- What the entry of a page allows. -/
def Allows (m : Machine) (page : List Index) (write execute : Prop) : Prop :=
  ∃ frame perms, walk m page = some (frame, perms) ∧ (perms &&& Memory_Just_Writable ≠ 0 ↔ write) ∧
    (perms &&& Memory_No_Execute = 0 ↔ execute)

/-- The frame of a page, if it is present. -/
def frameOf (m : Machine) (page : List Index) : Option Word := (walk m page).map Prod.fst

/-- The same pages are present, with the same frames. -/
def SameFrames (m m' : Machine) : Prop := ∀ page, PagePath page → frameOf m' page = frameOf m page

/-- The `count` pages from `start` on, outside of the recursive window. -/
structure PageMapping (start : Word) (count : Nat) : Prop where
  aligned : is_aligned start Page_Small
  no_wrap : start.toNat + count * 4096 ≤ 2 ^ 64
  outside : ∀ i < count, index4 (pageAt start i) ≠ fractal

/-- All present pages of the mapping are as they are when a module is loaded. -/
def AllWritable (m : Machine) (start : Word) (count : Nat) : Prop :=
  ∀ page, InRange start count page → walk m page ≠ none → Allows m page True False

/-! ## Delimiters -/

structure Delimiters where
  first : Word
  last : Word

def Delimiters.pages (d : Delimiters) : Nat := (d.last.toNat - d.first.toNat) / 4096

def Delimiters.Contains (d : Delimiters) (page : List Index) : Prop := InRange d.first d.pages page

/-- The delimiters are at whole pages of the mapping. -/
structure Delimiters.Inside (d : Delimiters) (start : Word) (count : Nat) : Prop where
  ordered : d.first ≤ d.last
  first_aligned : is_aligned d.first Page_Small
  last_aligned : is_aligned d.last Page_Small
  above : start ≤ d.first
  below : d.last.toNat ≤ start.toNat + count * 4096

/-- The symbols with these names are the delimiters. -/
def Delimits (m : Memory) (elf size : Word) (first last : List Byte) (d : Delimiters) : Prop :=
  (elf_get_symbol_address elf size first).run' m = .ok d.first ∧ (elf_get_symbol_address elf size last).run' m = .ok d.last

instance (m : Memory) (elf size : Word) (first last : List Byte) (d : Delimiters) : Decidable (Delimits m elf size first last d) :=
  inferInstanceAs (Decidable (_ ∧ _))

/-- All delimiters of a module. One that is missing is NULL. -/
structure ModuleParts where
  rw : Delimiters
  rx : Delimiters
  ro : Delimiters

namespace ModuleParts

variable (parts : ModuleParts)

def all : List Delimiters := [parts.rw, parts.rx, parts.ro]

structure Of (m : Memory) (elf size : Word) : Prop where
  rw : Delimits m elf size (ascii "__module_rw_start") (ascii "__module_rw_end") parts.rw
  rx : Delimits m elf size (ascii "__module_rx_start") (ascii "__module_rx_end") parts.rx
  ro : Delimits m elf size (ascii "__module_ro_start") (ascii "__module_ro_end") parts.ro

def Complete : Prop := ∀ d ∈ parts.all, d.first ≠ 0 ∧ d.last ≠ 0

/-- No page is in two of the ranges. -/
def Disjoint : Prop := parts.all.Pairwise fun d d' => ∀ page, ¬ (d.Contains page ∧ d'.Contains page)

/-- Data can be written, code can be executed, and constants can only be read. -/
structure Protected (m : Machine) : Prop where
  rw : ∀ page, parts.rw.Contains page → Allows m page True False
  rx : ∀ page, parts.rx.Contains page → Allows m page False True
  ro : ∀ page, parts.ro.Contains page → Allows m page False False

end ModuleParts

/-- `paging_update_range` with the types that its callers use. -/
def updateRange (virt count attrs : Word) : Kernel Machine Status := paging_update_range virt count.toNat attrs

end KernelOfTruth.Spec
