import KernelOfTruth.Code.File
import KernelOfTruth.Spec.Heap
import KernelOfTruth.Spec.Strings

/-!
# What the tree of files is

A directory has a list of children, and a path is a list of names.
-/

open KernelOfTruth.Lib KernelOfTruth.Code

namespace KernelOfTruth.Spec

variable {σ : Type}

def childrenOf (s : FileState σ) (d : Word) : List Word :=
  (List.range (s.files d).child_count.toNat).map fun i => wordAt s.heap.mem 8 (pointerSlot (s.files d).children i)

/-- The entries of a directory can be read, and each of them is a file. -/
structure Listed (s : FileState σ) (d : Word) : Prop where
  mapped : ∀ i < (s.files d).child_count.toNat, Mapped s.heap.mem (pointerSlot (s.files d).children i) 8
  nonnull : ∀ c ∈ childrenOf s d, c ≠ 0

/-- The file `c` is in the tree below `d`, or `d` itself. -/
def Below (s : FileState σ) : Word → Word → Prop := Relation.ReflTransGen fun d c => c ∈ childrenOf s d

/-- The two states differ only in counts of references. -/
structure SameTables (s s' : FileState σ) : Prop where
  heap : s'.heap = s.heap
  files : ∀ d, ∃ obj, s'.files d = { s.files d with obj := obj }

/-! ## Paths -/

structure ValidName (name : List Byte) : Prop where
  nonempty : name ≠ []
  no_slash : slash ∉ name
  no_nul : 0 ∉ name

/-- The children of every directory have valid names that are not the same. -/
structure IsTree (s : FileState σ) (Root : Word) : Prop where
  root : Root ≠ 0
  root_no_child : ∀ d, Below s Root d → Root ∉ childrenOf s d
  listed : ∀ d, Below s Root d → Listed s d
  valid : ∀ d, Below s Root d → ∀ c ∈ childrenOf s d, ValidName (s.files c).name
  distinct : ∀ d, Below s Root d → ((childrenOf s d).map fun c => (s.files c).name).Nodup

/-- The path `/c1/c2/.../cn`, with a slash behind it or without. -/
def pathText (names : List (List Byte)) (trailing : Bool) : List Byte :=
  (names.flatMap fun name => slash :: name) ++ if trailing then [slash] else []

/-- From `d` to its child with the first name, from there to the child with the second, and so on. -/
def resolve (s : FileState σ) : Word → List (List Byte) → Option Word
  | d, [] => some d
  | d, name :: names =>
    ((childrenOf s d).find? fun c => (s.files c).name = name).bind fun c => resolve s c names

/-- The empty path, or a single name that is the first child's or is looked for where there are no children, or two
slashes or more in a path that leads nowhere. -/
def FindsRight (s : FileState σ) (Root : Word) (names : List (List Byte)) (trailing : Bool) : Prop :=
  match names, trailing with
  | [], trailing => trailing = false
  | [name], false => ∀ c ∈ (childrenOf s Root).head?, (s.files c).name = name
  | names, _ => resolve s Root names = none

/-! ## What the code looks for -/

/-- The first child that `strncmp` takes for the one with the name. -/
def childNamed (s : FileState σ) (d : Word) (text : List Byte) (n : Nat) : Word :=
  ((childrenOf s d).find? fun c => SameText (fun k => text.getD k 0) (fun k => (s.files c).name.getD k 0) n).getD 0

/-- What `file_from_path` comes to from the character number `i` on. -/
def targetFrom (s : FileState σ) (path : List Byte) : List Byte → Nat → Nat → Word → Word
  | [], _, _, parent => parent
  | c :: rest, i, start, parent =>
    if c = 0 then parent
    else if c = slash then
      let child := childNamed s parent (path.drop start) (BitVec.ofNat 64 start - BitVec.ofNat 64 i).toNat
      if child = 0 then 0 else targetFrom s path rest (i + 1) (i + 1) child
    else targetFrom s path rest (i + 1) start parent

def pathTarget (s : FileState σ) (Root : Word) (path : List Byte) : Word := targetFrom s path path 0 0 Root

/-! ## Tables of children -/

structure TableOk (live : Multiset Block) (f : File) : Prop where
  count_le : f.child_count.toNat ≤ f.child_capacity.toNat
  /-- The array has room for as many children as the capacity says. -/
  room : f.child_capacity = 0 ∧ f.children = 0 ∨ ∃ b ∈ live, b.ptr = f.children ∧ b.bytes.toNat = 8 * f.child_capacity.toNat

inductive FileOp
  | attach (parent child : Word)
  | detach (parent child : Word)
  | attach_path (parent_path : List Byte) (child : Word)

/-- The calls are not for NULL. -/
def FileOp.NonNull : FileOp → Prop
  | .attach parent child => parent ≠ 0 ∧ child ≠ 0
  | .detach parent child => parent ≠ 0 ∧ child ≠ 0
  | .attach_path _ child => child ≠ 0

section Calls

variable (nodes : NodeStore σ) (slab_alloc_locked : Word → Word → Kernel σ Word) (Root : Word)

def FileOp.call : FileOp → Kernel (FileState σ) Status
  | .attach parent child => file_attach nodes slab_alloc_locked parent child
  | .detach parent child => file_detach parent child
  | .attach_path parent_path child => file_attach_path nodes slab_alloc_locked Root parent_path child

/-- The array has room for one more child, or there is an array and memory for a larger one: `kmalloc` has a block, and
what the copy reads is mapped. -/
def CanAttach (s : FileState σ) (d : Word) : Prop :=
  (s.files d).child_count.toNat < (s.files d).child_capacity.toNat ∨
    (s.files d).children ≠ 0 ∧
      Mapped s.heap.mem (s.files d).children (((s.files d).child_capacity + 10) * pointerSize).toNat ∧
      ∃ p h, (kmalloc nodes slab_alloc_locked (((s.files d).child_capacity + 10) * pointerSize)).run s.heap = .ok (p, h) ∧
        p ≠ 0

/-- There is room for every child with a valid name, and the name of a child for a path that is found is valid. -/
def FileOp.Served (s : FileState σ) : FileOp → Prop
  | .attach parent child => file_name_is_valid (s.files child).name = .Ok → CanAttach nodes slab_alloc_locked s parent
  | .detach _ _ => True
  | .attach_path parent_path child => pathTarget s Root parent_path ≠ 0 →
      file_name_is_valid (s.files child).name = .Ok ∧ CanAttach nodes slab_alloc_locked s (pathTarget s Root parent_path)

end Calls

/-- The child is at the end of the directory, and nothing else is new. -/
structure Attached (s s' : FileState σ) (d c : Word) : Prop where
  added : childrenOf s' d = childrenOf s d ++ [c]
  parent : (s'.files c).parent = d
  others : ∀ d' ≠ 0, d' ≠ d → childrenOf s' d' = childrenOf s d'

/-- One occurrence of the child is gone, and nothing else. -/
structure Detached (s s' : FileState σ) (d c : Word) : Prop where
  present : c ∈ childrenOf s d
  removed : (childrenOf s' d).Perm ((childrenOf s d).erase c)
  others : ∀ d' ≠ 0, d' ≠ d → childrenOf s' d' = childrenOf s d'

/-- What a call may do, by the status that it returns. -/
def FileOp.Right (op : FileOp) (status : Status) (s s' : FileState σ) : Prop :=
  match op with
  | .attach parent child => if status = .Ok then Attached s s' parent child else s' = s
  | .detach parent child => if status = .Ok then Detached s s' parent child else s' = s
  | .attach_path _ child => if status = .Ok then ∃ d, Attached s s' d child else SameTables s s'

end KernelOfTruth.Spec
