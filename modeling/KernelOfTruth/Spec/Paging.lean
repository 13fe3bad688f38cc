import KernelOfTruth.Code.PhysicalAllocator
import KernelOfTruth.Spec.PageTables

/-!
# What `map_page` and `unmap_page` ask of the physical allocator

`ok free m` says that the allocator is in order and that `free` are the pages it has. The allocator keeps
its own data in the free pages and remaps the pivot page. Otherwise the page tables are not its business,
and what happens to them does not upset it as long as the free pages and the pivot page are left alone.
-/

open KernelOfTruth.Lib KernelOfTruth.Code

namespace KernelOfTruth.Spec

def pivotPage (img : KernelImage) : List Index := pagePath (Kernel_Pivot_Page img)

/-- The pivot page is as it was, or is not mapped, or is mapped for the kernel to read and write. -/
def PivotWalk (img : KernelImage) (m m' : Machine) : Prop :=
  walk m' (pivotPage img) = walk m (pivotPage img) ∨ walk m' (pivotPage img) = none ∨
    ∃ f, walk m' (pivotPage img) = some (f, Memory_Writable ||| Memory_Present)

/-- Of all entries only that of the pivot page has changed. -/
structure MovesPivot (img : KernelImage) (m m' : Machine) : Prop where
  same : SameEntries m m' (· = pivotPage img)
  pivot : PivotWalk img m m'

/-- A page that is not free may become a page table, and entries of pages may change. -/
structure OkLaws (img : KernelImage) (ok : Set Word → Machine → Prop) : Prop where
  link : ∀ {m : Machine} {free : Set Word} {q : List Index} {i : Index} {f e r : Word}, Tree m → ok free m →
    TablePath (i :: q) → m.table q = some f → present (m.mem f i) = false → present e →
    page_entry_to_phys e = r → ¬ IsTable m r → r ∉ free → ok free (linked m f i e r)
  leaf : ∀ {m : Machine} {free : Set Word} {q : List Index} {i : Index} {f : Word} (e : Word), Tree m → ok free m →
    PagePath (i :: q) → i :: q ≠ pivotPage img → m.table q = some f → ok free { m with mem := setWord m.mem f i e }

/-- `physical_alloc` returns a page that was free and is no page table, or no page. -/
structure AllocLaws (img : KernelImage) (ok : Set Word → Machine → Prop) (physical_alloc : Kernel Machine Word)
    (E : Halt → Prop) : Prop extends OkLaws img ok where
  alloc : ∀ {m : Machine} {free : Set Word}, Tree m → ok free m → wp physical_alloc (fun r m' => MovesPivot img m m' ∧
    ((r = invalid_phys_addr ∧ ok free m') ∨ (r ∈ free ∧ IsFrame r ∧ ¬ IsTable m r ∧ ok (free \ {r}) m'))) E m

/-- The same, with the number of pages that the allocator will still return: `ok k free m` says that there are `k`
of them. It returns no page only if `F`. -/
structure BudgetLaws (img : KernelImage) (ok : Nat → Set Word → Machine → Prop) (physical_alloc : Kernel Machine Word)
    (E : Halt → Prop) (F : Prop) : Prop where
  laws : ∀ k, OkLaws img (ok k)
  fewer : ∀ {k : Nat} {m : Machine} {free : Set Word}, ok (k + 1) free m → ok k free m
  alloc : ∀ {k : Nat} {m : Machine} {free : Set Word}, Tree m → ok (k + 1) free m →
    wp physical_alloc (fun r m' => MovesPivot img m m' ∧ ((r = invalid_phys_addr ∧ F ∧ ok k free m') ∨
      (r ∈ free ∧ IsFrame r ∧ ¬ IsTable m r ∧ ok k (free \ {r}) m'))) E m

/-- `physical_free` takes a page that is not free and is no page table. -/
structure FreeLaws (img : KernelImage) (ok : Set Word → Machine → Prop) (physical_free : Word → Kernel Machine Unit)
    (E : Halt → Prop) : Prop extends OkLaws img ok where
  free : ∀ {m : Machine} {free : Set Word} {f : Word}, Tree m → ok free m → IsFrame f → f ∉ free → ¬ IsTable m f →
    wp (physical_free f) (fun _ m' => MovesPivot img m m' ∧ ok (free ∪ {f}) m') E m

/-- The only other thing that has changed is that free pages have become page tables. -/
structure Grows (img : KernelImage) (ok : Set Word → Machine → Prop) (m m' : Machine) (free free' : Set Word) :
    Prop where
  subset : free' ⊆ free
  ok : ok free' m'
  tree : Tree m'
  tables : ∀ f, IsTable m' f ↔ IsTable m f ∨ (f ∈ free ∧ f ∉ free')
  keeps : ∀ {p : List Index} {f : Word}, TablePath p → m.table p = some f → m'.table p = some f
  walks : ∀ {page : List Index}, PagePath page → page ≠ pivotPage img → walk m' page = walk m page
  pivot : PivotWalk img m m'

end KernelOfTruth.Spec
