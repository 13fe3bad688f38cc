import KernelOfTruth.Code.Lock

/-!
# `kernel/core/object.c`, and `container_of` from `include/truth/types.h`

An object counts the references to it. The functions take it as a value and return it. Its lock is left out, because
none of them uses it.
-/

namespace KernelOfTruth.Code

/-- `free` is a pointer to a function. -/
structure Object where
  ref_count : BitVec 32
  free : Word
  deriving DecidableEq, Repr

def object_clear (free_func : Word) : Object := ⟨ATOMIC_INT_LOCK_FREE, free_func⟩

def Object.object_set_free (obj : Object) (free_func : Word) : Object := { obj with free := free_func }

def Object.object_retain (obj : Object) : Object := { obj with ref_count := obj.ref_count + 1 }

/-- The second result says whether `free` is called. -/
def Object.object_release (obj : Object) : Object × Bool :=
  ({ obj with ref_count := obj.ref_count - 1 }, obj.ref_count == 1 && obj.free != 0)

/-! ## The owner of an object -/

/-- `sizeof(struct object)` -/
def objectSize : Word := 24

/-- `a - b` of two pointers to objects: the number of objects between them. -/
def objectDifference (a b : Word) : Word := (a - b).sdiv objectSize

/-- `container_of(child, .., obj)` for an owner in which `obj` has this offset: `&((parent_type)NULL)->obj` is a pointer
to an object at the offset. -/
def container_of (child offset : Word) : Word := objectDifference child offset

/-- The offset of `obj` in `struct process`. -/
def processObj : Word := 80

/-- The offset of `obj` in `struct thread`. -/
def threadObj : Word := 80

/-- The process that `process_free(obj)` frees. -/
def process_free_target (obj : Word) : Word := container_of obj processObj

/-- The thread that `thread_free(obj)` frees. -/
def thread_free_target (obj : Word) : Word := container_of obj threadObj

end KernelOfTruth.Code
