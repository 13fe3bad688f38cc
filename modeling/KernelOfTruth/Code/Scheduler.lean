import KernelOfTruth.Code.Lock
import Mathlib.Logic.Function.Basic

/-!
# `kernel/core/scheduler.c`

Threads are named by their addresses. The lock of the scheduler is free at every call, and `thread_switch`
leaves the ring alone, so that neither is part of the state. Only `scheduler_fini` makes a call while it has the lock.
-/

namespace KernelOfTruth.Code

/-- `Current_Thread`, and the fields of all threads that the scheduler uses. -/
structure Scheduler where
  Current_Thread : Word
  next : Word → Word
  prev : Word → Word
  ref_count : Word → BitVec 32
  /-- The threads that `thread_free` has given back. -/
  freed : List Word

def setNext (thread v : Word) : Kernel Scheduler Unit :=
  modify fun s => { s with next := Function.update s.next thread v }

def setPrev (thread v : Word) : Kernel Scheduler Unit :=
  modify fun s => { s with prev := Function.update s.prev thread v }

/-! ## Reference counts -/

def setCount (thread : Word) (n : BitVec 32) : Kernel Scheduler Unit :=
  modify fun s => { s with ref_count := Function.update s.ref_count thread n }

def object_retain (thread : Word) : Kernel Scheduler Unit := do
  setCount thread ((← get).ref_count thread + 1)

/-- What `thread_free` of `process.c` does with the fields above. -/
def thread_free (thread : Word) : Kernel Scheduler Unit := do
  assert "thread_free" ((← get).next thread = 0)
  assert "thread_free" ((← get).prev thread = 0)
  modify fun s => { s with freed := thread :: s.freed }

/-- `thread_init` has set `free` to `thread_free`. -/
def object_release (thread : Word) : Kernel Scheduler Unit := do
  let count := (← get).ref_count thread
  setCount thread (count - 1)
  if count = 1 then thread_free thread else pure ()

/-! ## The functions -/

/-- The part of `struct process` that `scheduler_init` reads. -/
structure InitProcess where
  thread_count : Nat
  threads : Nat → Word

def scheduler_init (init : InitProcess) : Kernel Scheduler Status := do
  assert "scheduler_init" (init.thread_count > 0)
  modify fun s => { s with Current_Thread := init.threads 0 }
  setNext (init.threads 0) (init.threads 0)
  setPrev (init.threads 0) (init.threads 0)
  object_retain (init.threads 0)
  pure .Ok

/-- The result says whether `thread_switch` is called. -/
def scheduler_yield : Kernel Scheduler Bool := do
  let s ← get
  if s.Current_Thread = 0 then pure false
  else if s.Current_Thread ≠ s.next s.Current_Thread then do
    set { s with Current_Thread := s.next s.Current_Thread }
    pure true
  else pure false

/-- The branch of `scheduler_add_thread` for a ring that is not empty. -/
def insertThread (current thread : Word) : Kernel Scheduler Unit := do
  setNext thread ((← get).next current)
  setPrev thread current
  setPrev ((← get).next current) thread
  setNext current thread

/-- The other branch. -/
def startRing (thread : Word) : Kernel Scheduler Unit := do
  modify fun s => { s with Current_Thread := thread }
  setNext thread thread
  setPrev thread thread

def scheduler_add_thread (thread : Word) : Kernel Scheduler Unit := do
  assert "scheduler_add_thread" (thread ≠ 0)
  let current := (← get).Current_Thread
  (if current ≠ 0 then insertThread current thread else startRing thread)
  object_retain thread

/-- The `else` branch of `scheduler_remove_thread`. -/
def unlinkThread (thread : Word) : Kernel Scheduler Unit := do
  setNext ((← get).prev thread) ((← get).next thread)
  setPrev ((← get).next thread) ((← get).prev thread)

def scheduler_remove_thread (thread : Word) : Kernel Scheduler Unit := do
  assert "scheduler_remove_thread" (thread ≠ 0)
  (if (← get).next thread = thread then modify fun s => { s with Current_Thread := 0 } else unlinkThread thread)
  setNext thread 0
  setPrev thread 0
  object_release thread

/-! ## The end -/

/-- `scheduler_remove_thread`, with the lock. -/
def lockedRemoveThread (thread : Word) : Kernel (Locked Scheduler) Unit := do
  assert "scheduler_remove_thread" (thread ≠ 0)
  acquireLock
  onState (scheduler_remove_thread thread)
  releaseLock

/-- `thread->next`. `NULL` is not mapped. -/
def loadNext (thread : Word) : Kernel (Locked Scheduler) Word := do
  if thread = 0 then throw .page_fault
  pure ((← get).state.next thread)

/-- The loop of `scheduler_fini`, for so many rounds at most. -/
def finiLoop : Nat → Kernel (Locked Scheduler) Unit
  | 0 => throw .diverge
  | rounds + 1 => do
    let old := (← get).state.Current_Thread
    let next ← loadNext old
    if old ≠ next then do
      modify fun s => { s with state.Current_Thread := next }
      lockedRemoveThread old
      finiLoop rounds
    else pure ()

def scheduler_fini (rounds : Nat) : Kernel (Locked Scheduler) Unit := do
  acquireLock
  finiLoop rounds
  lockedRemoveThread (← get).state.Current_Thread
  releaseLock

end KernelOfTruth.Code
