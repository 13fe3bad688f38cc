import KernelOfTruth.Code.PageTable
import KernelOfTruth.Code.Process
import KernelOfTruth.Spec.Heap

/-!
# What a process that cannot be made leaves behind

Nothing, if everything that was taken for it has been given back.
-/

open KernelOfTruth.Lib KernelOfTruth.Code KernelOfTruth.Code.Processes

namespace KernelOfTruth.Spec

/-- Something that the slab allocator has handed out: addresses, of the kernel's half or of another address space, and the
frames for them. -/
structure Holding where
  kernel : Bool
  range : Region
  frames : Set Word

/-- Pages of the kernel's half. -/
def kernelPages (address bytes : Word) (frames : Set Word) : Holding := ⟨true, ⟨address, bytes⟩, frames⟩

/-- Pages of a process. -/
def userPages (address bytes : Word) (frames : Set Word) : Holding := ⟨false, ⟨address, bytes⟩, frames⟩

/-- Frames whose addresses have been given back without them. -/
def looseFrames (frames : Set Word) : Holding := ⟨false, ⟨0, 0⟩, frames⟩

def takenBytes (H : Multiset Holding) : Set Nat := { x | ∃ h ∈ H, h.kernel ∧ x ∈ bytesOf h.range }

def takenFrames (H : Multiset Holding) : Set Word := { f | ∃ h ∈ H, f ∈ h.frames }

section

-- `given` is what the slab allocator has handed out and not got back. Pages for the nodes of the vectors of the heap do
-- not count, nor do page tables.
variable {σ : Type} (Own : σ → Nodes → Prop) (given : σ → Multiset Holding)

/-- Exactly `H` has been handed out. -/
def Owned (H : Multiset Holding) (s : σ) (N : Nodes) : Prop := Own s N ∧ given s = H

/-- At least `H` has been handed out, and at least `n` blocks of the heap are in use. -/
def Books (H : Multiset Holding) (n : Nat) (s : HeapState σ) : Prop :=
  ∃ G used free, H ≤ G ∧ n ≤ Multiset.card used ∧ Metadata (Owned Own given G) s used free

/-- Everything is as it was. No freed block has been written to either: all free memory of the heap has the fill
pattern. -/
structure Undone (live : Multiset Block) (s s' : ProcessState (HeapState σ)) : Prop where
  usage : s'.heap.Used = s.heap.Used
  heap : ∃ free, HeapIntact Own s'.heap live free
  space : takenBytes (given s'.heap.vectors) = takenBytes (given s.heap.vectors)
  frames : takenFrames (given s'.heap.vectors) = takenFrames (given s.heap.vectors)
  pool : s'.Process_Pool = s.Process_Pool

/-- What `process_init` relies on. Pages stay with those who got them until they give them back, and a call that is refused
changes nothing. -/
structure SupplyLaws (services : Services σ) (frames : FrameServices σ) : Prop where
  process_create_address_space : ∀ {H n s}, Books Own given H n s → wp services.process_create_address_space
    (fun vect s' => (vect = 0 ∧ s' = s) ∨ (vect ≠ 0 ∧ ∃ F, Books Own given (kernelPages vect Page_Small F ::ₘ H) n s'))
    (fun _ => True) s
  region_vector_fini : ∀ {H n s vect F}, Books Own given (kernelPages vect Page_Small F ::ₘ H) n s →
    wp (services.region_vector_fini vect) (fun _ s' => Books Own given H n s') (fun _ => True) s
  fini_null : ∀ s, wp (services.region_vector_fini 0) (fun _ s' => s' = s) (fun _ => True) s
  slab_alloc : ∀ {H n s} bytes attributes, Books Own given H n s → wp (services.slab_alloc bytes attributes)
    (fun p s' => (p = 0 ∧ s' = s) ∨ (p ≠ 0 ∧ ∃ F, Books Own given (kernelPages p bytes F ::ₘ H) n s')) (fun _ => True) s
  slab_free : ∀ {H n s bytes p F}, Books Own given (kernelPages p bytes F ::ₘ H) n s →
    wp (services.slab_free bytes p) (fun _ s' => Books Own given H n s') (fun _ => True) s
  thread_user_stack_init : ∀ {H n s} thread proc entry_point, Books Own given H n s →
    wp (services.thread_user_stack_init thread proc entry_point) (fun r s' => if r.1 = .Ok then
      ∃ F, Books Own given (userPages r.2.1 Processes.Thread_Default_User_Stack_Size F ::ₘ H) n s' else Books Own given H n s')
    (fun _ => True) s
  slab_free_helper : ∀ {H n s bytes p F} vect, Books Own given (userPages p bytes F ::ₘ H) n s →
    wp (services.slab_free_helper bytes p vect) (fun _ s' => Books Own given H n s') (fun _ => True) s
  /-- An assertion compares `phys` with null. -/
  slab_alloc_phys : ∀ {H n s} phys attributes, Books Own given H n s → wp (frames.slab_alloc_phys phys attributes)
    (fun r s' => phys ≠ 0 ∧ ((r.1 = 0 ∧ s' = s) ∨ (r.1 ≠ 0 ∧ r.2 ∉ takenFrames (given s.vectors) ∧
      Books Own given (kernelPages r.1 Page_Small {r.2} ::ₘ H) n s'))) (fun _ => True) s
  slab_free_virt : ∀ {H n s p F}, Books Own given (kernelPages p Page_Small F ::ₘ H) n s →
    wp (frames.slab_free_virt Page_Small p) (fun _ s' => Books Own given (looseFrames F ::ₘ H) n s') (fun _ => True) s

end

section

variable {σ : Type} (nodes : NodeStore σ) (slab_alloc_locked : Word → Word → Kernel σ Word) (services : Services σ)

/-- The first three requests of `process_init`. The result says whether all of them were granted. -/
def firstRequests : Kernel (HeapState σ) Bool := do
  if (← kmalloc nodes slab_alloc_locked processSize) = 0 then pure false
  else if (← kcalloc nodes slab_alloc_locked Thread_Pool_Default_Size pointerSize) = 0 then pure false
  else return (← services.process_create_address_space) ≠ 0

/-- One of them is refused. -/
def RefusedEarly (s : HeapState σ) : Prop := ∃ s', (firstRequests nodes slab_alloc_locked services).run s = .ok (false, s')

end

end KernelOfTruth.Spec
