import KernelOfTruth.Code.Process
import KernelOfTruth.Spec.Hashtable
import KernelOfTruth.Spec.Heap
import KernelOfTruth.Spec.Strings

/-!
# What the pool of processes and the table of threads are for

An id belongs to one process, and the id of a thread is the number of its slot.
-/

open KernelOfTruth.Lib KernelOfTruth.Code KernelOfTruth.Code.Processes

namespace KernelOfTruth.Spec

section Pool

variable {τ : Type}

/-- The pool has the process under its id. -/
def Pooled (s : ProcessState τ) (p : Word) : Prop :=
  (pidKey (s.processes p).id, p) ∈ entries s.Process_Pool.size.toNat (tableCell s.Process_Pool)

/-- The states that adding to a new pool and removing from it come to, with the processes that were added and not
removed. In between, the rest of the kernel may do anything but change the pool or the id of one of these. -/
inductive PoolRun (kmalloc : Word → Kernel τ Word) (kfree : Word → Kernel τ Unit) : ProcessState τ → Set Word → Prop
  | init {s : ProcessState τ} {ht : Hashtable} {h : τ}
    (hrun : (hashtable_init kmalloc kfree Process_Pool_Default_Size process_hash_pid process_comp_pid).run s.heap =
      .ok (some ht, h)) : PoolRun kmalloc kfree { s with heap := h, Process_Pool := ht } ∅
  | add {s s' : ProcessState τ} {live : Set Word} {p : Word} {status : Status} (h : PoolRun kmalloc kfree s live)
    (hrun : (process_add_pool kmalloc kfree p).run s = .ok (status, s')) :
    PoolRun kmalloc kfree s' (if status = .Ok then insert p live else live)
  | remove {s s' : ProcessState τ} {live : Set Word} {p : Word} (h : PoolRun kmalloc kfree s live) (hp : Pooled s p)
    (hrun : (removeFromPool kmalloc kfree p).run s = .ok ((), s')) : PoolRun kmalloc kfree s' (live \ {p})
  | other {s s' : ProcessState τ} {live : Set Word} (h : PoolRun kmalloc kfree s live)
    (hpool : s'.Process_Pool = s.Process_Pool) (hnext : s'.next_pid = s.next_pid)
    (hids : ∀ p ∈ live, (s'.processes p).id = (s.processes p).id) : PoolRun kmalloc kfree s' live

end Pool

section Threads

variable {σ : Type}

/-- What is in the slot number `i` of the table of threads. -/
def slotOf (s : ProcessState (HeapState σ)) (proc : Word) (i : Nat) : Word :=
  wordAt s.heap.mem 8 (pointerSlot (s.processes proc).threads i)

/-- There is a free slot below the capacity. -/
def FindsSlot (s : ProcessState (HeapState σ)) (proc : Word) : Prop :=
  ∃ i < (s.processes proc).thread_capacity.toNat, slotOf s proc i = 0

/-- The threads that were added are where their ids say, and the ids are not the same. All slots that were read or
written are in one of the blocks `live` of the heap. -/
structure ThreadsRight (s : ProcessState (HeapState σ)) (proc : Word) (added : List Word) (live : Multiset Block) : Prop where
  placed : ∀ t ∈ added, slotOf s proc (s.threads t).id.toNat = t
  distinct : ∀ t ∈ added, ∀ t' ∈ added, t ≠ t' → (s.threads t).id ≠ (s.threads t').id
  inside : ∀ a ∈ s.touched, ∃ b ∈ live, b.ptr = a.1 ∧ 8 * (a.2.toNat + 1) ≤ b.bytes.toNat

/-- What a call may do to the table. -/
structure AddRight (s s' : ProcessState (HeapState σ)) (proc : Word) (status : Status) : Prop where
  kept : ∀ i < (s.processes proc).thread_capacity.toNat, slotOf s proc i ≠ 0 → slotOf s' proc i = slotOf s proc i
  no_memory : status = .Error_No_Memory → (s'.processes proc).threads = (s.processes proc).threads ∧
    (s'.processes proc).thread_capacity = (s.processes proc).thread_capacity

end Threads

end KernelOfTruth.Spec
