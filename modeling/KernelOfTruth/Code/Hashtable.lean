import KernelOfTruth.Code.Types
import Mathlib.Logic.Function.Basic

/-!
# `kernel/core/hashtable.c`

An open hash table with linear probing. A removed entry leaves a tombstone, which is not used again.
`hashtable_put` and `hashtable_rebalance` call each other: a table that gets too full is rebuilt by puts
into a table of twice the size. A table is passed and returned as a value, and `kmalloc` and `kfree` are
parameters.
-/

namespace KernelOfTruth.Code

inductive Partial
  | Partial_Equal
  | Partial_Not_Equal
  deriving DecidableEq, Repr

inductive HashdataState
  | Hashdata_Empty
  | Hashdata_Tombstone
  | Hashdata_Full
  deriving DecidableEq, Repr

/-- A key is a union of 64 bits. -/
structure Hashdata where
  state : HashdataState
  key : Word
  value : Word
  deriving DecidableEq, Repr

/-- `sizeof(struct hashdata)`. -/
def hashdataSize : Word := 24

/-- An array of `struct hashdata` in the heap. An index outside of it has no entry. -/
structure HashBuffer where
  address : Word
  entry : Nat → Option Hashdata

/-- A buffer of `bytes` bytes after `memset(.., 0, bytes)`. -/
def HashBuffer.zeroed (address bytes : Word) : HashBuffer where
  address := address
  entry i := if i < bytes.toNat / hashdataSize.toNat then some ⟨.Hashdata_Empty, 0, 0⟩ else none

structure Hashtable where
  used : Word
  size : Word
  hash : Word → Word
  comp : Word → Word → Partial
  data : HashBuffer

variable {σ : Type}

/-- `ht->data[s]`, which has no meaning outside of the array. -/
def Hashtable.load (ht : Hashtable) (s : Word) : Kernel σ Hashdata :=
  match ht.data.entry s.toNat with
  | some d => pure d
  | none => throw .page_fault

def Hashtable.store (ht : Hashtable) (s : Word) (d : Hashdata) : Hashtable :=
  { ht with data := { ht.data with entry := Function.update ht.data.entry s.toNat (some d) } }

def hashtable_init (kmalloc : Word → Kernel σ Word) (kfree : Word → Kernel σ Unit) (size : Word)
    (hf : Word → Word) (hc : Word → Word → Partial) : Kernel σ (Option Hashtable) := do
  let table ← kmalloc 40
  if table = 0 then pure none else
  let data ← kmalloc (size * hashdataSize)
  if data = 0 then do
    kfree table
    pure none
  else
    pure (some ⟨0, size, hf, hc, .zeroed data (size * hashdataSize)⟩)

/-! ## Probing -/

/-- The `for` loop of `hashtable_seek`, at the slot `s`. -/
def seekLoop (ht : Hashtable) (key hash : Word) : Nat → Word → Kernel σ (Option Word)
  | 0, _ => throw .diverge
  | fuel + 1, s =>
    -- Not_Reached
    if s = hash then throw (.panic "hashtable_seek") else do
    let d ← ht.load s
    match d.state with
    | .Hashdata_Empty => pure none
    | .Hashdata_Tombstone => seekLoop ht key hash fuel ((s + 1) % ht.size)
    | .Hashdata_Full =>
      if ht.comp key d.key = .Partial_Equal then pure (some s)
      else seekLoop ht key hash fuel ((s + 1) % ht.size)

def hashtable_seek (ht : Hashtable) (key : Word) : Kernel σ (Option Word) := do
  let hash := ht.hash key % ht.size
  let d ← ht.load hash
  if d.state = .Hashdata_Full ∧ ht.comp key d.key = .Partial_Equal then pure (some hash)
  else seekLoop ht key hash ht.size.toNat ((hash + 1) % ht.size)

/-- The `for` loop of `hashtable_seek_empty`, at the slot `s`. -/
def seekEmptyLoop (ht : Hashtable) (hash : Word) : Nat → Word → Kernel σ (Word × Hashtable)
  | 0, _ => throw .diverge
  | fuel + 1, s =>
    -- Not_Reached
    if s = hash then throw (.panic "hashtable_seek_empty") else do
    let d ← ht.load s
    if d.state = .Hashdata_Empty then pure (s, ht.store s { d with state := .Hashdata_Full })
    else seekEmptyLoop ht hash fuel ((s + 1) % ht.size)

def hashtable_seek_empty (ht : Hashtable) (key : Word) : Kernel σ (Word × Hashtable) := do
  let hash := ht.hash key % ht.size
  let d ← ht.load hash
  if d.state = .Hashdata_Empty then pure (hash, ht)
  else seekEmptyLoop ht hash ht.size.toNat ((hash + 1) % ht.size)

/-! ## Growth -/

def should_grow (size used : Word) : Bool := size - used < size / 4

def should_shrink (size used : Word) : Bool := used < size / 4 && size < 32

section Grow

variable (kmalloc : Word → Kernel σ Word) (kfree : Word → Kernel σ Unit)
  (put : Hashtable → Word → Word → Kernel σ (Status × Hashtable))

/-- The `for` loop of `hashtable_rebalance`, with `n` slots of the old table left from the slot `s` on. -/
def rebalanceLoop (ht : Hashtable) : Nat → Word → Hashtable → Kernel σ (Status × Hashtable)
  | 0, _, new => pure (.Ok, new)
  | n + 1, s, new => do
    let d ← ht.load s
    if d.state ≠ .Hashdata_Empty ∧ d.state ≠ .Hashdata_Tombstone then do
      let (error, new) ← put new d.key d.value
      if error = .Ok then rebalanceLoop ht n (s + 1) new else pure (error, new)
    else rebalanceLoop ht n (s + 1) new

def hashtable_rebalance (ht : Hashtable) (new_size : Word) : Kernel σ (Status × Hashtable) := do
  assert "hashtable_rebalance" (new_size > ht.size)
  let data ← kmalloc (new_size * hashdataSize)
  if data = 0 then pure (.Error_No_Memory, ht) else
  let (error, new) ← rebalanceLoop put ht ht.size.toNat 0
    { ht with used := 0, size := new_size, data := .zeroed data (new_size * hashdataSize) }
  if error ≠ .Ok then pure (error, ht) else do
  kfree ht.data.address
  pure (.Ok, { ht with data := new.data, used := new.used, size := new.size })

end Grow

variable (kmalloc : Word → Kernel σ Word) (kfree : Word → Kernel σ Unit)

/-- `hashtable_put` up to the test for growth. -/
def putSlot (ht : Hashtable) (key value : Word) : Kernel σ Hashtable := do
  let (s, ht) ← hashtable_seek_empty ht key
  pure { ht.store s ⟨.Hashdata_Full, key, value⟩ with used := ht.used + 1 }

/-- `hashtable_put` with at most `depth` calls of it inside each other. -/
def putNested : Nat → Hashtable → Word → Word → Kernel σ (Status × Hashtable)
  | 0, _, _, _ => throw .diverge
  | depth + 1, ht, key, value => do
    let ht ← putSlot ht key value
    if should_grow ht.size ht.used then hashtable_rebalance kmalloc kfree (putNested depth) ht (ht.size * 2)
    else pure (.Ok, ht)

/-- Each call inside another is on a table of twice the size, and a size has 64 bits. -/
def hashtable_put (ht : Hashtable) (key value : Word) : Kernel σ (Status × Hashtable) :=
  putNested kmalloc kfree 65 ht key value

/-- `hashtable_remove` up to the test for shrinking, once the slot `s` is found. -/
def removeSlot (ht : Hashtable) (s : Word) : Kernel σ Hashtable := do
  let d ← ht.load s
  pure { ht.store s { d with state := .Hashdata_Tombstone } with used := ht.used - 1 }

def hashtable_remove (ht : Hashtable) (key : Word) : Kernel σ (Status × Hashtable) := do
  match ← hashtable_seek ht key with
  -- a store through NULL
  | none => throw .page_fault
  | some s =>
    let ht ← removeSlot ht s
    if should_shrink ht.size ht.used then
      hashtable_rebalance kmalloc kfree (hashtable_put kmalloc kfree) ht (ht.size / 2)
    else pure (.Ok, ht)

def hashtable_get (ht : Hashtable) (key : Word) : Kernel σ Word := do
  match ← hashtable_seek ht key with
  | some s => return (← ht.load s).value
  | none => pure 0

end KernelOfTruth.Code
