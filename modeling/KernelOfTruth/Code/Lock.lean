import KernelOfTruth.Code.Types

/-!
# `kernel/core/lock.c`

The lock is shared, so that its functions are not programs over a state but the steps of threads: a thread
is at the atomic operation that it does next. Operations are sequentially consistent.
-/

namespace KernelOfTruth.Code

/-- `struct lock`. -/
structure Lock where
  readers : BitVec 32
  writer : Bool
  deriving DecidableEq

def Lock_Clear : Lock := ⟨0, false⟩

/-- The values of the compiler for `x86_64`. -/
def ATOMIC_BOOL_LOCK_FREE : BitVec 32 := 2
def ATOMIC_INT_LOCK_FREE : BitVec 32 := 2

def lock_clear (lock : Lock) : Lock :=
  { lock with writer := ATOMIC_BOOL_LOCK_FREE != 0, readers := ATOMIC_INT_LOCK_FREE }

/-- The result, and then what is in `object` and in `expected`. A weak exchange may fail for no reason. -/
def atomic_compare_exchange_weak (object expected desired spurious : Bool) : Bool × Bool × Bool :=
  if object = expected && !spurious then (true, desired, expected) else (false, object, object)

/-- Where a thread is. -/
inductive Point
  /-- In no function of the lock, and without it. -/
  | idle
  /-- At the exchange of `lock_acquire_reader`. -/
  | acquire_reader (expected : Bool)
  | acquire_reader_add
  | acquire_reader_store
  /-- `lock_acquire_reader` has returned, and the next step is `lock_release_reader`. -/
  | reading
  /-- At the exchange of `lock_acquire_writer`. -/
  | acquire_writer (expected_writer : Bool)
  /-- In the inner loop. -/
  | acquire_writer_load (expected_writer : Bool)
  /-- `lock_acquire_writer` has returned, and the next step is the first load of `lock_release_writer`. -/
  | writing
  | release_writer_load
  | release_writer_store
  /-- An assertion has failed. -/
  | panicked
  deriving DecidableEq

/-- What an idle thread calls. -/
inductive Call
  | lock_acquire_reader
  | lock_acquire_writer
  deriving DecidableEq

/-- One step of a thread. -/
def threadStep (call : Call) (spurious : Bool) (lock : Lock) : Point → Point × Lock
  | .idle =>
    match call with
    | .lock_acquire_reader => (.acquire_reader false, lock)
    | .lock_acquire_writer => (.acquire_writer false, lock)
  | .acquire_reader expected =>
    match atomic_compare_exchange_weak lock.writer expected true spurious with
    | (true, writer, _) => (.acquire_reader_add, { lock with writer := writer })
    | (false, writer, expected) => (.acquire_reader expected, { lock with writer := writer })
  | .acquire_reader_add => (.acquire_reader_store, { lock with readers := lock.readers + 1 })
  | .acquire_reader_store => (.reading, { lock with writer := false })
  | .reading => (.idle, { lock with readers := lock.readers - 1 })
  | .acquire_writer expected_writer =>
    match atomic_compare_exchange_weak lock.writer expected_writer true spurious with
    | (true, writer, _) => (.writing, { lock with writer := writer })
    | (false, writer, expected_writer) => (.acquire_writer_load expected_writer, { lock with writer := writer })
  | .acquire_writer_load expected_writer =>
    if lock.readers = 0 then (.acquire_writer_load expected_writer, lock) else (.acquire_writer expected_writer, lock)
  | .writing => if lock.writer = true then (.release_writer_load, lock) else (.panicked, lock)
  | .release_writer_load => if lock.readers = 0 then (.release_writer_store, lock) else (.panicked, lock)
  | .release_writer_store => (.idle, { lock with writer := false })
  | .panicked => (.panicked, lock)

/-! ## When no other thread runs -/

/-- The exchange fails when there is a writer. It is tried again if there are readers, and then with the value that was
found. -/
def lock_acquire_writer : Kernel Lock Unit := do
  let lock ← get
  if lock.writer ∧ lock.readers = 0 then throw .deadlock
  set { lock with writer := true }

def lock_release_writer : Kernel Lock Unit := do
  assert "lock_release_writer" (← get).writer
  assert "lock_release_writer" ((← get).readers = 0)
  modify fun lock => { lock with writer := false }

/-! ## What a lock guards -/

structure Locked (σ : Type) where
  lock : Lock
  state : σ

section Locked

variable {σ α : Type}

def acquireLock : Kernel (Locked σ) Unit := Lib.zoom Locked.lock (fun s lock => { s with lock := lock }) lock_acquire_writer

def releaseLock : Kernel (Locked σ) Unit := Lib.zoom Locked.lock (fun s lock => { s with lock := lock }) lock_release_writer

/-- A part of a function that does nothing with the lock. -/
def onState (p : Kernel σ α) : Kernel (Locked σ) α := Lib.zoom Locked.state (fun s state => { s with state := state }) p

end Locked

end KernelOfTruth.Code
