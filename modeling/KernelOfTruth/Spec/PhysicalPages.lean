import KernelOfTruth.Code.PhysicalAllocator
import KernelOfTruth.Spec.PageTables

/-!
# What the stack of free pages means

The stack is a set of pages. It is stored as a list of ranges, each with a header in its own first page.
-/

open KernelOfTruth.Code

namespace KernelOfTruth.Spec

/-- A range of `length` bytes of physical memory. -/
structure PageRange where
  start : Word
  length : Word

/-- The pages of the range, by their first address. -/
def PageRange.pages (r : PageRange) : Set Word :=
  { f | is_aligned f Page_Small ∧ r.start.toNat ≤ f.toNat ∧ f.toNat < r.start.toNat + r.length.toNat }

structure PageRange.Good (r : PageRange) : Prop where
  start_aligned : is_aligned r.start Page_Small
  length_aligned : is_aligned r.length Page_Small
  nonempty : 0 < r.length.toNat
  below : r.start.toNat + r.length.toNat < 2 ^ 48

/-- `next` in the header at the start of the page `p`. -/
def nextOf (mem : Word → Index → Word) (p : Word) : Word := mem p 0

def lengthOf (mem : Word → Index → Word) (p : Word) : Word := mem p 1

/-- The ranges that one finds from `p` on, following the headers in memory. -/
inductive Chain (mem : Word → Index → Word) : Word → List PageRange → Prop
  | nil : Chain mem invalid_phys_addr []
  | cons {p : Word} {rs : List PageRange} : p ≠ invalid_phys_addr → Chain mem (nextOf mem p) rs →
      Chain mem p (⟨p, lengthOf mem p⟩ :: rs)

/-- The ranges from `Physical_Page` on are well formed and disjoint, and hold exactly the pages in `free`. -/
def Holds (m : Machine) (free : Set Word) : Prop :=
  ∃ rs, Chain m.mem m.physical_page rs ∧ (∀ r ∈ rs, r.Good) ∧
    rs.Pairwise (fun r r' => Disjoint r.pages r'.pages) ∧ ∀ f, f ∈ free ↔ ∃ r ∈ rs, f ∈ r.pages

/-! ## The pivot page -/

/-- The frames of the tables on the way to the pivot page, below the root. -/
structure PivotTables where
  f3 : Word
  f2 : Word
  f1 : Word

def pivotIndex (img : KernelImage) : Index := index1 (Kernel_Pivot_Page img)

/-- The page tables of the pivot page are present, and its last one is apart from the others. -/
structure PivotReady (img : KernelImage) (pt : PivotTables) (m : Machine) : Prop where
  self : SelfMapped m
  t3 : m.table [index4 (Kernel_Pivot_Page img)] = some pt.f3
  t2 : m.table [index3 (Kernel_Pivot_Page img), index4 (Kernel_Pivot_Page img)] = some pt.f2
  t1 : m.table [index2 (Kernel_Pivot_Page img), index3 (Kernel_Pivot_Page img),
    index4 (Kernel_Pivot_Page img)] = some pt.f1
  ne4 : pt.f1 ≠ m.cr3
  ne3 : pt.f1 ≠ pt.f3
  ne2 : pt.f1 ≠ pt.f2

/-- The frame holds a table that the walk of the pivot page goes through. -/
def OnPivotPath (pt : PivotTables) (m : Machine) (f : Word) : Prop :=
  f = m.cr3 ∨ f = pt.f3 ∨ f = pt.f2 ∨ f = pt.f1

/-! ## Runs -/

/-- The machine, with the pages that are free and the pages that clients hold. -/
structure World where
  machine : Machine
  free : Set Word
  allocated : Set Word

/-- Before the first page is freed. -/
structure World.Start (img : KernelImage) (pt : PivotTables) (w : World) : Prop where
  empty : w.machine.physical_page = invalid_phys_addr
  ready : PivotReady img pt w.machine
  free : w.free = ∅
  allocated : w.allocated = ∅

/-- A range that may be freed: no page of it is free, or is a table that the pivot page needs. -/
structure World.MayFree (pt : PivotTables) (w : World) (r : PageRange) : Prop where
  start_aligned : is_aligned r.start Page_Small
  length_aligned : is_aligned r.length Page_Small
  nonempty : 0 < r.length.toNat
  below : r.start.toNat + r.length.toNat ≤ 2 ^ 48
  not_free : Disjoint r.pages w.free
  apart : ∀ f ∈ r.pages, ¬ OnPivotPath pt w.machine f

/-- One call, or one write by a client to the pages it holds. -/
inductive World.Step (img : KernelImage) (pt : PivotTables) (w : World) : World → Prop
  | free_range {m' : Machine} (address length : Word) : w.MayFree pt ⟨address, length⟩ →
      (physical_free_range img address length).run w.machine = .ok ((), m') →
      Step img pt w ⟨m', w.free ∪ (⟨address, length⟩ : PageRange).pages,
        w.allocated \ (⟨address, length⟩ : PageRange).pages⟩
  | free {m' : Machine} (address : Word) : w.MayFree pt ⟨address, Page_Small⟩ →
      (physical_free img address).run w.machine = .ok ((), m') →
      Step img pt w ⟨m', w.free ∪ {address}, w.allocated \ {address}⟩
  | alloc {m' : Machine} {p : Word} : w.free.Nonempty →
      (physical_alloc img).run w.machine = .ok (p, m') →
      Step img pt w ⟨m', w.free \ {p}, w.allocated ∪ {p}⟩
  | write (mem' : Word → Index → Word) : (∀ f, f ∉ w.allocated → mem' f = w.machine.mem f) →
      Step img pt w ⟨{ w.machine with mem := mem' }, w.free, w.allocated⟩

/-! ## No page is free -/

/-- A call without a free page says so, and leaves the allocator empty. A page that is freed after that is handed
out next. -/
def World.ReportsExhaustion (img : KernelImage) (pt : PivotTables) (w : World) : Prop :=
  w.free = ∅ → ∃ m', (physical_alloc img).run w.machine = .ok (invalid_phys_addr, m') ∧ Holds m' ∅ ∧
    ∀ address m₁, w.MayFree pt ⟨address, Page_Small⟩ → (physical_free img address).run m' = .ok ((), m₁) →
      ∃ m₂, (physical_alloc img).run m₁ = .ok (address, m₂)

/-! ## One page is taken out -/

/-- As before, or a call of `physical_page_remove`, after which the pages in `free'` are on the stack. -/
inductive World.StepOrRemove (img : KernelImage) (pt : PivotTables) (w : World) : World → Prop
  | step {w' : World} : w.Step img pt w' → StepOrRemove img pt w w'
  | remove {m' : Machine} {free' : Set Word} {status : Status} (rounds : Nat) (address : Word) :
      (physical_page_remove img rounds address).run w.machine = .ok (status, m') → Holds m' free' →
      StepOrRemove img pt w ⟨m', free', w.allocated ∪ w.free \ free'⟩

/-- A free page is taken out of the stack, and for any other page the call says that there is none. The top of the
stack, if there is one, is mapped at the pivot page. -/
def World.RemovesPage (img : KernelImage) (w : World) (address : Word) : Prop :=
  ∃ rounds status m', (physical_page_remove img rounds address).run w.machine = .ok (status, m') ∧
    (status = .Ok ∧ address ∈ w.free ∧ Holds m' (w.free \ {address}) ∨
      status = .Error_Absent ∧ address ∉ w.free ∧ Holds m' w.free) ∧
    (m'.physical_page ≠ invalid_phys_addr → m'.translate (Kernel_Pivot_Page img) = some m'.physical_page)

end KernelOfTruth.Spec
