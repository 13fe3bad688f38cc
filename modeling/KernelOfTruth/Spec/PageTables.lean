import KernelOfTruth.Code.Mmu

/-!
# What four levels of page tables mean

A path is a list of indices, the last one first, as for `Machine.table`. Paths of at most three indices
name page tables and paths of four indices name pages.
-/

open KernelOfTruth.Code

namespace KernelOfTruth.Spec

abbrev fractal : Index := Kernel_Fractal_Page_Table_Index

/-- The path does not go through the recursive window. -/
def Outside (path : List Index) : Prop := path.getLast? ≠ some fractal

structure TablePath (path : List Index) : Prop where
  length_le : path.length ≤ 3
  outside : Outside path

/-- A path to a page, given as the index of its entry and the path of its last table. -/
structure PagePath (path : List Index) : Prop where
  length_eq : path.length = 4
  outside : Outside path

/-- The entry that a path ends with, present or not. -/
def entry (m : Machine) : List Index → Option Word
  | [] => none
  | i :: path => (m.table path).map fun f => m.mem f i

/-- The root maps itself, which makes the window. -/
def SelfMapped (m : Machine) : Prop :=
  present (m.mem m.cr3 fractal) ∧ page_entry_to_phys (m.mem m.cr3 fractal) = m.cr3

/-- The tables form a tree: no frame is the table of two paths. -/
structure Tree (m : Machine) : Prop where
  self : SelfMapped m
  inj : ∀ {p q : List Index} {f : Word}, TablePath p → TablePath q →
    m.table p = some f → m.table q = some f → p = q

def IsTable (m : Machine) (f : Word) : Prop := ∃ p, TablePath p ∧ m.table p = some f

/-- The two machines agree on every entry of every table, but for the entries in `except`. -/
structure SameEntries (m m' : Machine) (except : List Index → Prop) : Prop where
  cr3 : m'.cr3 = m.cr3
  mem : ∀ {p : List Index} {i : Index} {f : Word}, TablePath p → m.table p = some f → ¬ except (i :: p) →
    m'.mem f i = m.mem f i

/-- Entry `i` of the table in the frame `f` gets the value `e`, and then the frame `r` is cleared. -/
def linked (m : Machine) (f : Word) (i : Index) (e r : Word) : Machine :=
  { m with mem := clearFrame (setWord m.mem f i e) r }

/-- What an entry of the lowest level says: the frame and the permissions of a page. -/
def leafValue (e : Word) : Option (Word × Word) :=
  if present e then some (page_entry_to_phys e, e &&& Memory_Permissions_Mask) else none

/-- The walk of a page. -/
def walk (m : Machine) (page : List Index) : Option (Word × Word) := (entry m page).bind leafValue

/-- The bits from the 47th on are all the same, so that the processor takes the address. -/
def Canonical (address : Word) : Prop :=
  address.extractLsb' 47 17 = 0 ∨ address.extractLsb' 47 17 = BitVec.allOnes 17

/-- The processor's walk of `address` comes to the table at the end of `path`, and there to entry `i`. -/
structure Exposes (m : Machine) (address : Word) (path : List Index) (i : Index) : Prop where
  canonical : Canonical address
  aligned : address.extractLsb' 0 3 = 0
  translate : m.translate address = m.table path
  word : wordIndex address = i

/-- A physical address that an entry can hold. -/
def IsFrame (f : Word) : Prop := page_entry_to_phys f = f

end KernelOfTruth.Spec
