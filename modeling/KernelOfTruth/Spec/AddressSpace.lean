import KernelOfTruth.Code.AddressSpace
import KernelOfTruth.Spec.Separation

/-!
# What several page tables mean

Each page table has tables of its own for the lower half of the addresses. The entries of the roots above
the window are alike, so the tables of the higher half belong to all of them.
-/

open KernelOfTruth.Lib KernelOfTruth.Code

namespace KernelOfTruth.Spec

/-- The machine when the page table with this root is the current one. -/
def under (m : Machine) (root : Word) : Machine := { m with cr3 := root }

/-- The path of the root, or a path through the lower half. -/
def Lower (path : List Index) : Prop := ∀ i, path.getLast? = some i → i.toNat < 256

/-- A path through the higher half, and not through the window. -/
def Upper (path : List Index) : Prop := ∃ i, path.getLast? = some i ∧ 256 < i.toNat

/-- The frame holds the root or a table of the lower half. -/
def IsOwnTable (m : Machine) (f : Word) : Prop := ∃ p, TablePath p ∧ Lower p ∧ m.table p = some f

/-- Every root has all entries of the higher half, and they lead to the same tables. -/
def SharedUpper (roots : Set Word) (m : Machine) : Prop :=
  ∀ r ∈ roots, ∀ r' ∈ roots, ∀ i : Index, 256 < i.toNat →
    ∃ f, (under m r).table [i] = some f ∧ (under m r').table [i] = some f

/-- No frame is a table of the lower half of two page tables. -/
def DisjointLower (roots : Set Word) (m : Machine) : Prop :=
  ∀ r ∈ roots, ∀ r' ∈ roots, r ≠ r' → ∀ f, IsOwnTable (under m r) f → ¬ IsOwnTable (under m r') f

/-! ## Calls on one page table -/

section External

variable (img : KernelImage) (root : Word)

/-- The page is mapped in the page table. -/
def MappedIn (m : Machine) (v : Word) : Prop := walk (under m root) (pagePath v) ≠ none

/-- The page is mapped, and its frame is not free and is no table of the page tables in `roots`. -/
def MayFreeIn (roots : Set Word) (m : Machine) (v : Word) : Prop :=
  ∃ frame perms, walk (under m root) (pagePath v) = some (frame, perms) ∧ ¬ FreePage m frame ∧
    ∀ r ∈ roots, ¬ IsTable (under m r) frame

/-- One call that returns, at an address of the lower half. Frames are only freed when `may` allows it. -/
inductive ExternalStep (may : Machine → Word → Prop) (m m' : Machine) : Prop
  | map {v phys perms : Word} {status : Status} (hv : memory_is_lower_half v)
    (hrun : (map_external_page img root v phys perms).run m = .ok (status, m'))
  | unmap {v : Word} {free_physical_memory : Bool} (hv : memory_is_lower_half v)
    (hmay : free_physical_memory = true → may m v)
    (hrun : (unmap_external_page img root v free_physical_memory).run m = .ok ((), m'))

end External

end KernelOfTruth.Spec
