import KernelOfTruth.Code.Heap
import KernelOfTruth.Lib.Tiling
import KernelOfTruth.Spec.RegionVector

/-!
# What the heap means

The heap is cut into the blocks that clients hold and the free ranges. All of it but the clients' own
parts has the fill pattern.
-/

open KernelOfTruth.Lib KernelOfTruth.Code

namespace KernelOfTruth.Spec

/-- A block that `kmalloc` has returned. -/
structure Block where
  ptr : Word
  bytes : Word
  deriving DecidableEq

/-- The block with its red zones. -/
def Block.extent (b : Block) : Region := ⟨b.ptr - Heap_Red_Zone_Size, b.bytes + 2 * Heap_Red_Zone_Size⟩

/-- The part of the block that the client may write. -/
def Block.client (b : Block) : Set Nat := { x | b.ptr.toNat ≤ x ∧ x < b.ptr.toNat + b.bytes.toNat }

section

variable {σ : Type}

def heapBytes (s : HeapState σ) : Set Nat := { x | s.heap.toNat ≤ x ∧ x < s.heap.toNat + Heap_Size.toNat }

/-- The two vectors of the heap hold these ranges. -/
def Metadata (Own : σ → Nodes → Prop) (s : HeapState σ) (used free : Multiset Region) : Prop :=
  ∃ N up fp, Own s.vectors N ∧ IsVector N s.heap_metadata_used up ∧ ranges N up = used ∧
    IsVector N s.heap_metadata_free fp ∧ ranges N fp = free ∧ up.Disjoint fp

structure HeapIntact (Own : σ → Nodes → Prop) (s : HeapState σ) (live : Multiset Block)
    (free : Multiset Region) : Prop where
  metadata : Metadata Own s (live.map Block.extent) free
  tiles : Tiles bytesOf (live.map Block.extent + free) (heapBytes s)
  fill : ∀ x : Word, x.toNat ∈ heapBytes s → (∀ b ∈ live, x.toNat ∉ b.client) → s.mem x = some 0xcc
  usage : s.Used.toNat = (live.map fun b => b.bytes.toNat + 16).sum

/-! ## What `heap_init` relies on -/

structure SameGlobals (s s' : HeapState σ) : Prop where
  used : s'.heap_metadata_used = s.heap_metadata_used
  free : s'.heap_metadata_free = s.heap_metadata_free
  heap : s'.heap = s.heap
  Used : s'.Used = s.Used

/-- `slab_alloc` returns no address, or new pages that are mapped. -/
structure BootLaws (slab_alloc : Word → Word → Kernel (HeapState σ) Word) (Own : σ → Nodes → Prop) : Prop where
  page : ∀ {s N}, Own s.vectors N → wp (slab_alloc Page_Small Memory_Writable)
    (fun p s' => SameGlobals s s' ∧ (p ≠ 0 → N p = none ∧ ∃ v, Own s'.vectors (Function.update N p (some v))))
    (fun _ => True) s
  heap : ∀ {s N}, Own s.vectors N → wp (slab_alloc Heap_Size (Memory_Writable ||| Memory_No_Execute))
    (fun h s' => SameGlobals s s' ∧ (h ≠ 0 → Own s'.vectors N ∧ h.toNat + Heap_Size.toNat < 2 ^ 64 ∧
      ∀ x : Word, h.toNat ≤ x.toNat → x.toNat < h.toNat + Heap_Size.toNat → (s'.mem x).isSome))
    (fun _ => True) s

/-! ## Runs -/

/-- The state of the heap, and the blocks that clients hold. -/
structure HeapWorld (σ : Type) where
  state : HeapState σ
  live : Multiset Block

variable (nodes : NodeStore σ) (slab_alloc_locked : Word → Word → Kernel σ Word)
  (slab_free_locked : Word → Word → Kernel σ Unit)

/-- Right after `heap_init`. -/
def HeapWorld.Start (slab_alloc : Word → Word → Kernel (HeapState σ) Word)
    (slab_free : Word → Word → Kernel (HeapState σ) Unit) (Own : σ → Nodes → Prop) (w : HeapWorld σ) : Prop :=
  w.live = 0 ∧ ∃ s N, Own s.vectors N ∧ s.Used = 0 ∧
    (heap_init nodes slab_alloc_locked slab_alloc slab_free).run s = .ok (.Ok, w.state)

inductive HeapWorld.Step (w : HeapWorld σ) : HeapWorld σ → Prop
  | kmalloc (bytes : Word) {p : Word} {s' : HeapState σ} : 0 < bytes.toNat → bytes.toNat + 16 < 2 ^ 64 →
      (kmalloc nodes slab_alloc_locked bytes).run w.state = .ok (p, s') →
      Step w ⟨s', if p = 0 then w.live else ⟨p, bytes⟩ ::ₘ w.live⟩
  | kfree (p : Word) {s' : HeapState σ} :
      (kfree nodes slab_alloc_locked slab_free_locked p).run w.state = .ok ((), s') →
      Step w ⟨s', w.live.filter fun b => b.ptr ≠ p⟩
  /-- Clients write to their blocks, and memory outside of the heap may change in any way. -/
  | write (mem' : Word → Option Byte) :
      (∀ x : Word, x.toNat ∈ heapBytes w.state → (mem' x).isSome ∧
        ((∀ b ∈ w.live, x.toNat ∉ b.client) → mem' x = w.state.mem x)) →
      Step w ⟨{ w.state with mem := mem' }, w.live⟩

/-- Clients may also ask for blocks without bytes. -/
inductive HeapWorld.Call (w : HeapWorld σ) : HeapWorld σ → Prop
  | step {w' : HeapWorld σ} : HeapWorld.Step nodes slab_alloc_locked slab_free_locked w w' → Call w w'
  | empty {p : Word} {s' : HeapState σ} : (kmalloc nodes slab_alloc_locked 0).run w.state = .ok (p, s') →
      Call w ⟨s', if p = 0 then w.live else ⟨p, 0⟩ ::ₘ w.live⟩

/-- The `n` bytes at `p` are in the heap, and in no block that a client holds. -/
def HeapWorld.Unused (w : HeapWorld σ) (p : Word) (n : Nat) : Prop :=
  ∀ x, p.toNat ≤ x → x < p.toNat + n → x ∈ heapBytes w.state ∧ ∀ b ∈ w.live, x ∉ bytesOf b.extent

/-- What `krealloc` of the block `b` to `n` bytes is to have done when it has returned `q`. The block moves, and only it and
its new place are touched; if there is no place for it, nothing has changed for it. -/
def HeapWorld.Reallocates (Own : σ → Nodes → Prop) (w : HeapWorld σ) (b : Block) (n q : Word) (s' : HeapState σ) : Prop :=
  if q = 0 then (∃ free', HeapIntact Own s' w.live free') ∧ ∀ x : Word, x.toNat ∈ b.client → s'.mem x = w.state.mem x
  else (∃ free', HeapIntact Own s' (⟨q, n⟩ ::ₘ w.live.erase b) free') ∧
    s'.Used.toNat + b.bytes.toNat = w.state.Used.toNat + n.toNat ∧
    (∀ i < min b.bytes.toNat n.toNat, s'.mem (q + BitVec.ofNat 64 i) = w.state.mem (b.ptr + BitVec.ofNat 64 i)) ∧
    ∀ x : Word, x.toNat ∉ bytesOf b.extent → x.toNat ∉ bytesOf (⟨q, n⟩ : Block).extent →
      ∃ s'', (krealloc nodes slab_alloc_locked b.ptr n).run
        { w.state with mem := Function.update w.state.mem x none } = .ok (q, s'')

def AllZero (s : HeapState σ) (p : Word) (n : Nat) : Prop := ∀ i < n, s.mem (p + BitVec.ofNat 64 i) = some 0

end

end KernelOfTruth.Spec
