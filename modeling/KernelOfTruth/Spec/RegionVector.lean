import KernelOfTruth.Code.RegionVector
import KernelOfTruth.Lib.ListSegment
import KernelOfTruth.Lib.Tiling

/-!
# What a region vector means

A region vector is a multiset of ranges. `N` is the part of memory that holds nodes: the node at each
address that its owner uses as one.
-/

open KernelOfTruth.Lib KernelOfTruth.Code

namespace KernelOfTruth.Spec

abbrev Nodes := Word → Option RegionVector

/-- The ranges in one node. -/
def held (v : RegionVector) : Multiset Region := bag v.regions v.regions_used

/-- The ranges in all nodes of a vector. -/
abbrev ranges (N : Nodes) (pages : List Word) : Multiset Region := contents held N pages

/-- The addresses of a range. -/
def bytesOf (r : Region) : Set Nat := { x | r.address.toNat ≤ x ∧ x < r.address.toNat + r.size.toNat }

def freeBytes (M : Multiset Region) : Set Nat := { x | ∃ r ∈ M, x ∈ bytesOf r }

/-- The ranges in one node, in their order. -/
def heldList (v : RegionVector) : List Region := (List.range v.regions_used).map v.regions

/-- The ranges in the order in which a loop over the vector comes to them. -/
def inOrder (N : Nodes) (pages : List Word) : List Region := pages.flatMap fun a => (N a).elim [] heldList

/-- The range that `region_alloc` takes from. -/
def firstFit (N : Nodes) (pages : List Word) (size : Word) : Option Region :=
  (inOrder N pages).find? fun r => size < r.size

/-- Some node has room for another range. -/
def HasSlot (N : Nodes) (pages : List Word) : Prop :=
  ∃ a ∈ pages, ∃ v, N a = some v ∧ v.regions_used ≠ regions_count

/-- The vector that starts at `vect` has its nodes at `pages`. -/
structure IsVector (N : Nodes) (vect : Word) (pages : List Word) : Prop where
  linked : Segment RegionVector.next 0 N vect pages 0
  nonempty : pages ≠ []
  nodup : pages.Nodup
  used_le : ∀ a ∈ pages, ∀ v, N a = some v → v.regions_used ≤ regions_count

/-- From the nodes `N` to `N'`, only the vector with nodes at `pages` has changed. Its nodes are now at
`pages'`, and the new ones among them are in pages that held no node. -/
structure Frame (N N' : Nodes) (pages pages' : List Word) : Prop where
  others : ∀ a, a ∉ pages → N a ≠ none → N' a = N a
  fresh : ∀ a ∈ pages', a ∈ pages ∨ N a = none

/-- In the state `s'` the vector at `vect` holds the ranges `M'`, and no other node has changed. -/
def Becomes {σ : Type} (Own : σ → Nodes → Prop) (N : Nodes) (vect : Word) (pages : List Word) (s' : σ)
    (M' : Multiset Region) : Prop :=
  ∃ N' pages', Own s' N' ∧ IsVector N' vect pages' ∧ ranges N' pages' = M' ∧ Frame N N' pages pages'

/-! ## What the code relies on -/

/-- `Own s N` means that the nodes `N` are in memory in the state `s`, and that nobody else changes them. -/
structure StoreLaws {σ : Type} (nodes : NodeStore σ) (Own : σ → Nodes → Prop) : Prop where
  read : ∀ {s N a v}, Own s N → N a = some v → (nodes.read a).run s = .ok (v, s)
  write : ∀ {s N a v} (w : RegionVector), Own s N → N a = some v →
    ∃ s', (nodes.write a w).run s = .ok ((), s') ∧ Own s' (Function.update N a (some w))

/-- A page from the slab allocator is fresh, and it may stop with a reason in `E`. -/
structure PageLaws {σ : Type} (slab_alloc_locked : Word → Word → Kernel σ Word)
    (slab_free_locked : Word → Word → Kernel σ Unit) (Own : σ → Nodes → Prop) (E : Halt → Prop) : Prop where
  alloc : ∀ {s N}, Own s N → wp (slab_alloc_locked Page_Small Memory_Writable)
    (fun p s' => p = 0 ∨ (p ≠ 0 ∧ N p = none ∧ ∃ v, Own s' (Function.update N p (some v)))) E s
  free : ∀ {s N p v}, Own s N → N p = some v → wp (slab_free_locked Page_Small p)
    (fun _ s' => Own s' (Function.update N p none)) E s
  /-- Without a page for a new node the kernel stops. -/
  out_of_pages : E (.panic "region_free")

/-! ## Operations on a multiset of ranges -/

inductive VectorOp
  | free (address size : Word)
  | alloc (size : Word)
  | find_size_and_free (address : Word)

inductive VectorResult
  | freed
  | allocated (result : Except Status Word)
  | found (size : Word)

/-- What each operation may do to the multiset, and what it may return. -/
inductive MultisetStep (M : Multiset Region) : VectorOp → VectorResult → Multiset Region → Prop
  | free (address size : Word) : MultisetStep M (.free address size) .freed (⟨address, size⟩ ::ₘ M)
  | no_memory (size : Word) : (∀ r ∈ M, r.size ≤ size) →
      MultisetStep M (.alloc size) (.allocated (.error .Error_No_Memory)) M
  | alloc (size : Word) {r : Region} : r ∈ M → size < r.size →
      MultisetStep M (.alloc size) (.allocated (.ok r.address))
        (⟨r.address + size, r.size - size⟩ ::ₘ M.erase r)
  | found {r : Region} : r ∈ M →
      MultisetStep M (.find_size_and_free r.address) (.found r.size) (M.erase r)
  | absent (address : Word) : (∀ r ∈ M, r.address ≠ address) →
      MultisetStep M (.find_size_and_free address) (.found 0) M

inductive MultisetRun : Multiset Region → List VectorOp → List VectorResult → Multiset Region → Prop
  | nil {M : Multiset Region} : MultisetRun M [] [] M
  | cons {M M' M'' : Multiset Region} {op : VectorOp} {result : VectorResult} {ops : List VectorOp}
      {results : List VectorResult} : MultisetStep M op result M' → MultisetRun M' ops results M'' →
      MultisetRun M (op :: ops) (result :: results) M''

section Run

variable {σ : Type} (nodes : NodeStore σ) (slab_alloc_locked : Word → Word → Kernel σ Word)
  (slab_free_locked : Word → Word → Kernel σ Unit) (vect : Word)

def runOp : VectorOp → Kernel σ VectorResult
  | .free address size => do
    region_free nodes slab_alloc_locked vect address size
    pure .freed
  | .alloc size => do return .allocated (← region_alloc nodes vect size)
  | .find_size_and_free address => do
    return .found (← region_find_size_and_free nodes slab_free_locked vect address)

def runOps : List VectorOp → Kernel σ (List VectorResult)
  | [] => pure []
  | op :: ops => do
    let result ← runOp nodes slab_alloc_locked slab_free_locked vect op
    return result :: (← runOps ops)

end Run

/-! ## Random placement -/

section Random

variable {σ : Type} (nodes : NodeStore σ) (slab_alloc_locked : Word → Word → Kernel σ Word) (Own : σ → Nodes → Prop)

/-- The kernel does not run forever, and reads no memory that is not there. -/
def Orderly (e : Halt) : Prop := e ≠ .page_fault ∧ e ≠ .diverge

/-- The ranges in `N` are disjoint, and `size` bytes of one of them are taken or nothing has changed. -/
def PlacesRandomly (N : Nodes) (vect : Word) (pages : List Word) (size : Word) (randoms : List Word) (s : σ) : Prop :=
  wp (region_alloc_random nodes slab_alloc_locked vect size randoms) (fun result s' =>
    match result with
    | .ok out => (∃ r ∈ ranges N pages, bytesOf ⟨out, size⟩ ⊆ bytesOf r) ∧
      ∃ M, Becomes Own N vect pages s' M ∧ Tiles bytesOf M (freeBytes (ranges N pages) \ bytesOf ⟨out, size⟩)
    | .error e => e = .Error_No_Memory ∧ s' = s) Orderly s

/-- `size` bytes at `addr` fit into the range, and are at its start or at its end. -/
def AtEdge (r : Region) (addr size : Word) : Prop :=
  size ≤ r.size - (addr - r.address) ∧ (addr = r.address ∨ size = r.size - (addr - r.address))

/-- The first random address that comes upon a range is one where `size` bytes fit at an edge of it. -/
def RandomsFit (regions : List Region) (size : Word) : List Word → Prop
  | [] => True
  | random :: randoms =>
    match regions.find? fun r => r.has (random_address random) with
    | none => RandomsFit regions size randoms
    | some r => AtEdge r (random_address random) size

end Random

/-! ## The end of a vector -/

/-- The pages that hold nodes, and the calls of `slab_free` so far. -/
structure MappedNodes where
  node : Nodes
  freed : List (Word × Word)

/-- A page that has been given back is not mapped any more. -/
def mappedStore : NodeStore MappedNodes where
  read a := do
    match (← get).node a with
    | some v => pure v
    | none => throw .page_fault
  write a v := do
    match (← get).node a with
    | some _ => modify fun s => { s with node := Function.update s.node a (some v) }
    | none => throw .page_fault

def unmapNode (bytes a : Word) : Kernel MappedNodes Unit :=
  modify fun s => ⟨Function.update s.node a none, s.freed ++ [(bytes, a)]⟩

/-- The vector at `vect` with nodes at `pages` is released: the call returns, each node has been passed to `slab_free`
once, and no node was read after that. -/
def Released (s : MappedNodes) (vect : Word) (pages : List Word) : Prop :=
  ∃ s', (region_vector_fini mappedStore unmapNode vect).run s = .ok ((), s') ∧
    s'.freed.Perm (s.freed ++ pages.map fun a => (Page_Small, a))

end KernelOfTruth.Spec
