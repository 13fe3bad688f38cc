import KernelOfTruth.Code.Hashtable
import KernelOfTruth.Code.Heap
import KernelOfTruth.Code.Object

/-!
# `kernel/core/process.c`

Processes and threads are at addresses of their own, and the arrays of threads are in the heap. The lock of the pool is
free at every call.
-/

namespace KernelOfTruth.Code.Processes

/-- `struct thread`. An enumeration is stored as an integer. -/
structure Thread where
  user_space : Byte
  id : BitVec 32
  exit_code : BitVec 32
  state : BitVec 32
  user_stack_size : Word
  kernel_stack_size : Word
  user_stack : Word
  current_stack_pointer : Word
  kernel_stack : Word
  next : Word
  prev : Word
  process : Word
  obj : Object

def Thread_Running : BitVec 32 := 0

/-- `struct process` -/
structure Process where
  id : BitVec 32
  exit_code : BitVec 32
  state : BitVec 32
  thread_count : BitVec 32
  thread_capacity : BitVec 32
  child_count : Word
  child_capacity : Word
  children : Word
  parent : Word
  threads : Word
  page_table : Word
  address_space : Word
  obj : Object

def Process_Running : BitVec 32 := 0

def threadSize : Word := 104
def processSize : Word := 104

/-- A thread in a block that `kmalloc` has just returned. -/
def Thread.filled : Thread :=
  ⟨0xcc, 0xcccccccc, 0xcccccccc, 0xcccccccc, Heap_Red_Zone_Fill, Heap_Red_Zone_Fill, Heap_Red_Zone_Fill, Heap_Red_Zone_Fill,
    Heap_Red_Zone_Fill, Heap_Red_Zone_Fill, Heap_Red_Zone_Fill, Heap_Red_Zone_Fill, ⟨0xcccccccc, Heap_Red_Zone_Fill⟩⟩

def Process.filled : Process :=
  ⟨0xcccccccc, 0xcccccccc, 0xcccccccc, 0xcccccccc, 0xcccccccc, Heap_Red_Zone_Fill, Heap_Red_Zone_Fill, Heap_Red_Zone_Fill,
    Heap_Red_Zone_Fill, Heap_Red_Zone_Fill, Heap_Red_Zone_Fill, Heap_Red_Zone_Fill, ⟨0xcccccccc, Heap_Red_Zone_Fill⟩⟩

/-- The slots of arrays of threads that have been read or written are noted down, with the array. -/
structure ProcessState (τ : Type) where
  heap : τ
  processes : Word → Process
  threads : Word → Thread
  Process_Pool : Hashtable
  next_pid : BitVec 32
  touched : List (Word × Word)

section Access

variable {τ : Type}

def onHeap {α : Type} (p : Kernel τ α) : Kernel (ProcessState τ) α :=
  Lib.zoom ProcessState.heap (fun s h => { s with heap := h }) p

def modifyProcess (proc : Word) (f : Process → Process) : Kernel (ProcessState τ) Unit :=
  modify fun s => { s with processes := Function.update s.processes proc (f (s.processes proc)) }

def modifyThread (thread : Word) (f : Thread → Thread) : Kernel (ProcessState τ) Unit :=
  modify fun s => { s with threads := Function.update s.threads thread (f (s.threads thread)) }

end Access

/-! ## The pool -/

def Process_Pool_Default_Size : Word := 100

/-- `key.integer` is the lower half of the key. -/
def process_hash_pid (key : Word) : Word := (key.setWidth 32).setWidth 64

def process_comp_pid (a b : Word) : Partial := if a = b then .Partial_Equal else .Partial_Not_Equal

/-- The key for an id. -/
def pidKey (id : BitVec 32) : Word := id.setWidth 64

section Pool

variable {τ : Type} (kmalloc : Word → Kernel τ Word) (kfree : Word → Kernel τ Unit)

/-- The loop of `process_add_pool`. The result says whether there is an id that is not used. -/
def pidLoop (start_pid : BitVec 32) : Nat → Kernel (ProcessState τ) Bool
  | 0 => throw .diverge
  | fuel + 1 => do
    let s ← get
    if (← hashtable_get s.Process_Pool (pidKey s.next_pid)) = 0 then pure true
    else do
      modify fun s => { s with next_pid := s.next_pid + 1 }
      if (← get).next_pid = start_pid then pure false else pidLoop start_pid fuel

def process_add_pool (proc : Word) : Kernel (ProcessState τ) Status := do
  assert "process_add_pool" (proc ≠ 0)
  let start_pid := (← get).next_pid
  if ← pidLoop start_pid (2 ^ 32) then do
    let id := (← get).next_pid
    modifyProcess proc fun p => { p with id := id }
    let (status, pool) ← onHeap (hashtable_put kmalloc kfree (← get).Process_Pool (pidKey id) proc)
    modify fun s => { s with Process_Pool := pool }
    pure status
  else pure .Error_Full

/-- What `process_free` does with the pool. -/
def removeFromPool (proc : Word) : Kernel (ProcessState τ) Unit := do
  let s ← get
  let (_, pool) ← onHeap (hashtable_remove kmalloc kfree s.Process_Pool (pidKey (s.processes proc).id))
  modify fun s => { s with Process_Pool := pool }

end Pool

/-! ## Threads -/

def Thread_Pool_Default_Size : Word := 10
def Thread_Default_User_Stack_Size : Word := 16 * 0x400
def Thread_Default_Kernel_Stack_Size : Word := 8 * 0x400

variable {σ : Type}

/-- `threads[i]` -/
def loadSlot (threads i : Word) : Kernel (ProcessState (HeapState σ)) Word := do
  modify fun s => { s with touched := s.touched ++ [(threads, i)] }
  onHeap (onMem (Memory.load 8 (threads + pointerSize * i)))

def storeSlot (threads i thread : Word) : Kernel (ProcessState (HeapState σ)) Unit := do
  modify fun s => { s with touched := s.touched ++ [(threads, i)] }
  onHeap (onMem (Memory.store 8 (threads + pointerSize * i) thread))

variable (nodes : NodeStore σ) (slab_alloc_locked : Word → Word → Kernel σ Word)
  (slab_free_locked : Word → Word → Kernel σ Unit)

/-- The end of `process_add_thread`, where no slot is free. -/
def growThreads (proc thread : Word) : Kernel (ProcessState (HeapState σ)) Status := do
  let capacity := ((← get).processes proc).thread_capacity
  modifyThread thread fun t => { t with id := capacity }
  modifyProcess proc fun p => { p with thread_capacity := p.thread_capacity + 10 }
  let p := (← get).processes proc
  -- the capacity is not a number of bytes
  let threads ← onHeap (krealloc nodes slab_alloc_locked p.threads (p.thread_capacity.setWidth 64))
  modifyProcess proc fun p => { p with threads := threads }
  if threads = 0 then pure .Error_No_Memory
  else do
    storeSlot threads (capacity.setWidth 64) thread
    modifyProcess proc fun p => { p with obj := p.obj.object_retain }
    pure .Ok

/-- The loop of `process_add_thread`, with `left` slots left from number `i` on. -/
def addThreadLoop (proc thread : Word) : Nat → Word → Kernel (ProcessState (HeapState σ)) Status
  | 0, _ => growThreads nodes slab_alloc_locked proc thread
  | left + 1, i => do
    let threads := ((← get).processes proc).threads
    if (← loadSlot threads i) = 0 then do
      storeSlot threads i thread
      modifyThread thread fun t => { t with id := i.setWidth 32 }
      pure .Ok
    else addThreadLoop proc thread left (i + 1)

def process_add_thread (proc thread : Word) : Kernel (ProcessState (HeapState σ)) Status := do
  assert "process_add_thread" (proc ≠ 0)
  assert "process_add_thread" (thread ≠ 0)
  addThreadLoop nodes slab_alloc_locked proc thread ((← get).processes proc).thread_capacity.toNat 0

/-! ## New processes -/

/-- What the functions below call of other files. `thread_user_stack_init` returns the two pointers that it stores in the
thread. -/
structure Services (σ : Type) where
  slab_alloc : Word → Word → Kernel (HeapState σ) Word
  slab_free : Word → Word → Kernel (HeapState σ) Unit
  slab_free_helper : Word → Word → Word → Kernel (HeapState σ) Unit
  thread_user_stack_init : Word → Word → Word → Kernel (HeapState σ) (Status × Word × Word)
  process_create_address_space : Kernel (HeapState σ) Word
  region_vector_fini : Word → Kernel (HeapState σ) Unit
  page_table_init : Kernel (HeapState σ) Word
  scheduler_add_thread : Word → Kernel (HeapState σ) Unit

variable (services : Services σ)

/-- The address of `thread_free`. -/
def thread_free : Word := 0x1000

/-- The address of `process_free`. -/
def process_free : Word := 0x2000

/-- The stack for the user, or none. -/
def initUserStack (thread proc entry_point : Word) (user_space : Bool) : Kernel (ProcessState (HeapState σ)) Status :=
  if user_space then do
    modifyThread thread fun t => { t with user_stack_size := Thread_Default_User_Stack_Size }
    let (status, user_stack, stack_pointer) ← onHeap (services.thread_user_stack_init thread proc entry_point)
    modifyThread thread fun t => { t with user_stack := user_stack, current_stack_pointer := stack_pointer }
    pure status
  else do
    modifyThread thread fun t => { t with user_stack_size := 0, user_stack := 0, current_stack_pointer := 0 }
    pure .Ok

/-- The end of `thread_init`. When there is no slot the thread is given back, and used all the same. -/
def placeThread (proc thread : Word) : Kernel (ProcessState (HeapState σ)) Word := do
  let status ← process_add_thread nodes slab_alloc_locked proc thread
  (if status ≠ .Ok then do
    let t := (← get).threads thread
    onHeap (services.slab_free_helper t.user_stack_size t.user_stack ((← get).processes proc).address_space)
    onHeap (services.slab_free t.kernel_stack_size t.kernel_stack)
    onHeap (kfree nodes slab_alloc_locked slab_free_locked thread)
  else pure ())
  modifyThread thread fun t =>
    { t with exit_code := 0, state := Thread_Running, next := 0, prev := 0, process := proc, obj := object_clear thread_free }
  pure thread

def thread_init (proc entry_point : Word) (user_space : Bool) : Kernel (ProcessState (HeapState σ)) Word := do
  let thread ← onHeap (kmalloc nodes slab_alloc_locked threadSize)
  if thread = 0 then pure 0
  else do
    modifyThread thread fun _ =>
      { Thread.filled with user_space := if user_space then 1 else 0, kernel_stack_size := Thread_Default_Kernel_Stack_Size }
    let kernel_stack ← onHeap (services.slab_alloc Thread_Default_Kernel_Stack_Size Memory_Writable)
    modifyThread thread fun t => { t with kernel_stack := kernel_stack }
    if kernel_stack = 0 then do
      onHeap (kfree nodes slab_alloc_locked slab_free_locked thread)
      pure 0
    else do
      let status ← initUserStack services thread proc entry_point user_space
      if status ≠ .Ok then do
        onHeap (services.slab_free Thread_Default_Kernel_Stack_Size kernel_stack)
        onHeap (kfree nodes slab_alloc_locked slab_free_locked thread)
        pure 0
      else placeThread nodes slab_alloc_locked slab_free_locked services proc thread

/-- The part of `process_init` at `err`. -/
def giveUp (page_table vect thread_pool thread proc : Word) : Kernel (ProcessState (HeapState σ)) Word := do
  onHeap (kfree nodes slab_alloc_locked slab_free_locked page_table)
  onHeap (services.region_vector_fini vect)
  onHeap (kfree nodes slab_alloc_locked slab_free_locked thread_pool)
  onHeap (kfree nodes slab_alloc_locked slab_free_locked thread)
  onHeap (kfree nodes slab_alloc_locked slab_free_locked proc)
  pure 0

/-- The end of `process_init`, for a process in the pool. -/
def startProcess (proc thread : Word) : Kernel (ProcessState (HeapState σ)) Word := do
  modifyProcess proc fun p =>
    { p with
      exit_code := 0
      state := Process_Running
      thread_count := 1
      thread_capacity := Thread_Pool_Default_Size.setWidth 32
      child_count := 0
      child_capacity := 0
      children := 0
      parent := 0
      obj := (object_clear process_free).object_retain }
  onHeap (services.scheduler_add_thread thread)
  pure proc

def process_init (entry_point : Word) : Kernel (ProcessState (HeapState σ)) Word := do
  let giveUp := giveUp nodes slab_alloc_locked slab_free_locked services
  let proc ← onHeap (kmalloc nodes slab_alloc_locked processSize)
  if proc = 0 then giveUp 0 0 0 0 0
  else do
  modifyProcess proc fun _ => Process.filled
  let thread_pool ← onHeap (kcalloc nodes slab_alloc_locked Thread_Pool_Default_Size pointerSize)
  if thread_pool = 0 then giveUp 0 0 0 0 proc
  else do
  modifyProcess proc fun p => { p with threads := thread_pool }
  let vect ← onHeap services.process_create_address_space
  if vect = 0 then giveUp 0 0 thread_pool 0 proc
  else do
  modifyProcess proc fun p => { p with address_space := vect }
  let page_table ← onHeap services.page_table_init
  if page_table = 0 then giveUp 0 vect thread_pool 0 proc
  else do
  modifyProcess proc fun p => { p with page_table := page_table }
  let thread ← thread_init nodes slab_alloc_locked slab_free_locked services proc entry_point true
  if thread = 0 then giveUp page_table vect thread_pool 0 proc
  else do
  let status ← process_add_pool (kmalloc nodes slab_alloc_locked) (kfree nodes slab_alloc_locked slab_free_locked) proc
  if status ≠ .Ok then giveUp page_table vect thread_pool thread proc
  else startProcess services proc thread

end KernelOfTruth.Code.Processes
