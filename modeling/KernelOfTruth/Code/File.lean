import KernelOfTruth.Code.Heap
import KernelOfTruth.Code.Object

/-!
# `kernel/core/file.c`

Files are at addresses of their own, and the arrays of children are in the heap. A file has its name as a text. What no
function here looks at is left out: the type of the file, its permissions and its functions.
-/

namespace KernelOfTruth.Code

structure File where
  name : List Byte
  parent : Word
  child_capacity : Word
  child_count : Word
  children : Word
  obj : Object

/-- A call of the `free` function of an object is only noted down, with the file. No file of the kernel has one. -/
structure FileState (σ : Type) where
  heap : HeapState σ
  files : Word → File
  freed : List Word

section Access

variable {σ : Type}

def onHeap {α : Type} (p : Kernel (HeapState σ) α) : Kernel (FileState σ) α :=
  Lib.zoom FileState.heap (fun s h => { s with heap := h }) p

def loadFile (file : Word) : Kernel (FileState σ) File := do
  if file = 0 then throw .page_fault else return (← get).files file

def modifyFile (file : Word) (f : File → File) : Kernel (FileState σ) Unit :=
  if file = 0 then throw .page_fault
  else modify fun s => { s with files := Function.update s.files file (f (s.files file)) }

/-- `children[i]` -/
def loadChild (children i : Word) : Kernel (FileState σ) Word :=
  onHeap (onMem (Memory.load 8 (children + pointerSize * i)))

def storeChild (children i child : Word) : Kernel (FileState σ) Unit :=
  onHeap (onMem (Memory.store 8 (children + pointerSize * i) child))

def retainFile (file : Word) : Kernel (FileState σ) Unit :=
  modifyFile file fun f => { f with obj := f.obj.object_retain }

def releaseFile (file : Word) : Kernel (FileState σ) Unit := do
  let f ← loadFile file
  modifyFile file fun f => { f with obj := f.obj.object_release.1 }
  if f.obj.object_release.2 then modify fun s => { s with freed := s.freed ++ [file] }

end Access

variable {σ : Type}

/-! ## Paths -/

def slash : Byte := 0x2f

/-- The loop of `file_find_child_named`, with `left` children left from number `i` on. -/
def findChildLoop (file : Word) (name : Nat → Kernel (FileState σ) Byte) (n : Nat) : Nat → Word → Kernel (FileState σ) Word
  | 0, _ => pure 0
  | left + 1, i => do
    let f ← loadFile file
    let child ← loadChild f.children i
    let c ← loadFile child
    if (← strncmp name (constant c.name) n) = 0 then do
      retainFile child
      pure child
    else findChildLoop file name n left (i + 1)

def file_find_child_named (file : Word) (name : Nat → Kernel (FileState σ) Byte) (n : Nat) : Kernel (FileState σ) Word := do
  assert "file_find_child_named" (file ≠ 0)
  let f ← loadFile file
  findChildLoop file name n f.child_count.toNat 0

/-- The loop of `file_from_path` at the character number `i`, with the characters from there on and the number `start` of
the character at which the name starts. -/
def fromPathLoop (path : List Byte) : List Byte → Nat → Nat → Word → Kernel (FileState σ) Word
  | [], _, _, parent => pure parent
  | c :: rest, i, start, parent =>
    if c = 0 then pure parent
    else if c = slash then do
      -- a difference of pointers, taken as a `size_t`
      let n := BitVec.ofNat 64 start - BitVec.ofNat 64 i
      let parent ← file_find_child_named parent (constant (path.drop start)) n.toNat
      if parent = 0 then pure 0 else fromPathLoop path rest (i + 1) (i + 1) parent
    else fromPathLoop path rest (i + 1) start parent

def file_from_path (Root : Word) (path : List Byte) : Kernel (FileState σ) Word := fromPathLoop path path 0 0 Root

/-! ## Children -/

/-- The loop of `file_name_is_valid`. -/
def nameLoop : List Byte → Status
  | [] => .Ok
  | c :: rest => if c = 0 then .Ok else if c = slash then .Error_Invalid else nameLoop rest

def file_name_is_valid (path : List Byte) : Status :=
  if path.getD 0 0 = 0 then .Error_Invalid else nameLoop path

/-- The loop of `file_detach`, with `left` children left from number `i` on. -/
def detachLoop (parent child : Word) : Nat → Word → Kernel (FileState σ) Status
  | 0, _ => pure .Error_Absent
  | left + 1, i => do
    let p ← loadFile parent
    if (← loadChild p.children i) = child then do
      modifyFile parent fun p => { p with child_count := p.child_count - 1 }
      let last ← loadChild p.children (p.child_count - 1)
      storeChild p.children i last
      releaseFile parent
      pure .Ok
    else detachLoop parent child left (i + 1)

def file_detach (parent child : Word) : Kernel (FileState σ) Status := do
  assert "file_detach" (parent ≠ 0)
  assert "file_detach" (child ≠ 0)
  let p ← loadFile parent
  detachLoop parent child p.child_count.toNat 0

/-- The end of `file_attach`, where the array has room. -/
def attachChild (parent child : Word) : Kernel (FileState σ) Status := do
  let p ← loadFile parent
  storeChild p.children p.child_count child
  modifyFile parent fun p => { p with child_count := p.child_count + 1 }
  modifyFile child fun c => { c with parent := parent }
  retainFile parent
  pure .Ok

variable (nodes : NodeStore σ) (slab_alloc_locked : Word → Word → Kernel σ Word)

def file_attach (parent child : Word) : Kernel (FileState σ) Status := do
  assert "file_attach" (parent ≠ 0)
  assert "file_attach" (child ≠ 0)
  let c ← loadFile child
  let status := file_name_is_valid c.name
  if status ≠ .Ok then pure status
  else do
    let p ← loadFile parent
    if p.child_capacity = p.child_count then do
      modifyFile parent fun p => { p with child_capacity := p.child_capacity + 10 }
      let new_children ← onHeap (krealloc nodes slab_alloc_locked p.children ((p.child_capacity + 10) * pointerSize))
      if new_children = 0 then pure .Error_No_Memory
      else do
        modifyFile parent fun p => { p with children := new_children }
        attachChild parent child
    else attachChild parent child

def file_attach_path (Root : Word) (parent_path : List Byte) (child : Word) : Kernel (FileState σ) Status := do
  let parent ← file_from_path Root parent_path
  if parent = 0 then pure .Error_Invalid
  else do
    let _ ← file_attach nodes slab_alloc_locked parent child
    releaseFile parent
    pure .Ok

def file_system_init (Root Dev : Word) : Kernel (FileState σ) Status := file_attach nodes slab_alloc_locked Root Dev

end KernelOfTruth.Code
