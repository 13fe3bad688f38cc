import KernelOfTruth.Code.Lock
import Mathlib.Logic.Function.Basic
import Mathlib.Logic.Relation

/-!
# Exclusion

Any number of threads share one lock. They take their steps in any order.
-/

open KernelOfTruth.Code

namespace KernelOfTruth.Spec

/-- The threads and their lock. -/
structure Threads (T : Type) where
  point : T → Point
  lock : Lock

/-- A step of one of the threads, with what the lock's code does not decide. -/
structure Event (T : Type) where
  thread : T
  call : Call
  spurious : Bool

section System

variable {T : Type}

def startThreads (T : Type) (lock : Lock) : Threads T := ⟨fun _ => .idle, lock⟩

/-- The thread has the lock for writing. It keeps it up to the last step of `lock_release_writer`. -/
def Writes (p : Point) : Prop := p = .writing ∨ p = .release_writer_load ∨ p = .release_writer_store

instance (p : Point) : Decidable (Writes p) := inferInstanceAs (Decidable (_ ∨ _))

/-- The thread has the lock for reading. -/
def Reads (p : Point) : Prop := p = .reading

instance (p : Point) : Decidable (Reads p) := inferInstanceAs (Decidable (_ = _))

structure Excluded (s : Threads T) : Prop where
  one_writer : ∀ t u, Writes (s.point t) → Writes (s.point u) → t = u
  no_reader : ∀ t u, Writes (s.point t) → ¬ Reads (s.point u)

variable [DecidableEq T]

def Threads.next (s : Threads T) (e : Event T) : Threads T :=
  let step := threadStep e.call e.spurious s.lock (s.point e.thread)
  ⟨Function.update s.point e.thread step.1, step.2⟩

/-- Some thread takes a step that `may` allows. -/
def Threads.Step (may : Threads T → Event T → Prop) (s s' : Threads T) : Prop := ∃ e, may s e ∧ s' = s.next e

/-- A step that finds the lock as the code takes it to be. -/
structure Careful (s : Threads T) (e : Event T) : Prop where
  clear_reader : ∀ expected, s.point e.thread = .acquire_reader expected → s.lock.writer = expected →
    e.spurious = false → s.lock.writer = false
  clear_writer : ∀ expected, s.point e.thread = .acquire_writer expected → s.lock.writer = expected →
    e.spurious = false → s.lock.writer = false ∧ s.lock.readers = 0
  room : s.point e.thread = .acquire_reader_add → s.lock.readers + 1 ≠ 0

end System

end KernelOfTruth.Spec
