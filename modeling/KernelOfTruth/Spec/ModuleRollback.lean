import KernelOfTruth.Lib.Prog
import KernelOfTruth.Spec.ModuleInit
import KernelOfTruth.Spec.Symbols

/-!
# What is left of a module that could not be loaded

Nothing: all symbols are found as before.
-/

open KernelOfTruth.Lib KernelOfTruth.Code

namespace KernelOfTruth.Spec

variable {σ : Type}

/-- No lookup tells the two states apart, and they have the same modules. -/
structure Unchanged (s s' : ModuleState σ) : Prop where
  symbols : ∀ name, (symbol_get name).run' s'.symbols = (symbol_get name).run' s.symbols
  modules : s'.Module_List = s.Module_List

/-- The call returns, and changes nothing when it does not return `Ok`. -/
def FailureUndone (load : Kernel (ModuleState σ) Status) (s : ModuleState σ) : Prop :=
  wp load (fun status s' => status ≠ .Ok → Unchanged s s') (fun _ => False) s

section Image

variable (m : Memory) (start size : Word)

/-- An exported symbol in a section that the image does not have. -/
def Unplaced (i : Nat) : Prop :=
  is_exported (symbolInfo m start size i) = true ∧ sectionIndex m start size (symbolIndex m start size i) = 0

instance (i : Nat) : Decidable (Unplaced m start size i) := inferInstanceAs (Decidable (_ ∧ _))

/-- The exported ones of some symbols. -/
def exportsIn (symbols : List Nat) : List Nat := symbols.filter fun i => is_exported (symbolInfo m start size i)

/-- All symbols of the module. -/
def symbolList : List Nat := List.range (symbolCount m start size)

def HasSymbols : Prop := stringTable m start size ≠ 0 ∧ symbolTable m start size ≠ 0

instance : Decidable (HasSymbols m start size) := inferInstanceAs (Decidable (_ ∧ _))

/-- A well-formed image in which all that the code reads of the section of an exported symbol is mapped. -/
structure ReadableSymbols : Prop extends WellFormedSymbols m start size where
  headers : ∀ i ∈ exportsIn m start size (symbolList m start size), ¬ Unplaced m start size i →
    Mapped m (sectionHeader m start (symbolIndex m start size i) + 24) 8

/-- Some symbols are put in a table that takes `spare` entries: not all of them are. -/
def StopsIn (spare : Nat) (symbols : List Nat) : Prop :=
  (∃ i ∈ symbols, Unplaced m start size i) ∨ spare < (exportsIn m start size symbols).length

/-- Those that are. The last one when there are more than `spare` is put in with an error. -/
def insertedIn (spare : Nat) (symbols : List Nat) : List Nat :=
  (exportsIn m start size (symbols.takeWhile fun i => ¬ Unplaced m start size i)).take (spare + 1)

variable (comp : Word → Word → Partial)

/-- The addresses that a name gets, in their order. -/
def addresses (name : Word) (symbols : List Nat) : List Word :=
  (symbols.filter fun i => comp name (symbolName m start size i) = .Partial_Equal).map (publishedAddress m start size)

/-- How often a name is removed when some symbols are: once for each global one. -/
def removals (name : Word) (symbols : List Nat) : Nat :=
  symbols.countP fun i => ELF64_ST_BIND (symbolInfo m start size i) = STB_GLOBAL ∧
    comp name (symbolName m start size i) = .Partial_Equal

/-- The addresses of a name once the symbols of the module are in a table that has the addresses `old` for it. -/
def addressesWith (old : List Word) (spare : Nat) (name : Word) : List Word :=
  old ++ addresses m start size comp name (insertedIn m start size spare (symbolList m start size))

/-- The symbols of the module are put in a table with the addresses `old` of each name, and removed again. No name is
removed more often than the table has it, and the address that then comes first is the one that came first before. -/
def RemovesInserted (old : Word → List Word) (spare : Nat) : Prop := ∀ name,
  let all := addressesWith m start size comp (old name) spare name
  let n := removals m start size comp name (symbolList m start size)
  n ≤ all.length ∧ (all.drop n).headD 0 = (old name).headD 0

end Image

end KernelOfTruth.Spec
