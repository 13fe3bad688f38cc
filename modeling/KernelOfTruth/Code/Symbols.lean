import KernelOfTruth.Code.Hashtable
import KernelOfTruth.Code.Strings

/-!
# `kernel/core/symbols.c`

The symbol table is a hash table with pointers to strings as keys.
-/

namespace KernelOfTruth.Code

/-- What the functions on symbols work on: memory with the images, the symbol table, and the heap. -/
structure SymbolState (σ : Type) where
  memory : Memory
  symbol_table : Hashtable
  heap : σ

variable {σ : Type}

def inMemory {α : Type} (p : Kernel Memory α) : Kernel (SymbolState σ) α :=
  Lib.zoom SymbolState.memory (fun s memory => { s with memory := memory }) p

def inHeap {α : Type} (p : Kernel σ α) : Kernel (SymbolState σ) α :=
  Lib.zoom SymbolState.heap (fun s heap => { s with heap := heap }) p

def negative_golden_ratio : Word := 0x61C88647

/-- The loop of `hash_str`, from character number `i` on. A text without a NUL in all of memory has no end. -/
def hashStrLoop (cstr : Word) : Nat → Word → Word → Kernel Memory Word
  | 0, _, _ => throw .diverge
  | fuel + 1, i, hash => do
    let c ← Memory.loadByte (cstr + i)
    if c = 0 then pure hash
    else hashStrLoop cstr fuel (i + 1) (hash ^^^ (c.signExtend 64 + hash <<< 5 + hash >>> 2))

/-- The hash of the table, from `kernel/core/hashtable.c`. -/
def hash_str (str : Word) : Kernel Memory Word := hashStrLoop str (2 ^ 64) 0 negative_golden_ratio

/-- The comparison of the table, from `kernel/core/hashtable.c`. -/
def hash_str_comp (key_a key_b : Word) : Kernel Memory Partial := do
  if (← strncmp (pointer key_a) (pointer key_b) Page_Small.toNat) ≠ 0 then pure .Partial_Not_Equal
  else pure .Partial_Equal

def symbol_get (symbol : Word) : Kernel (SymbolState σ) Word := do
  inHeap (hashtable_get (← get).symbol_table symbol)

/-- `symbol_get` as far as it reads the name, where `table` is what the table has for it. Comparisons read no more of the
name than the hash. -/
def symbolLookup (table : Memory → Word → Word) (symbol : Word) : Kernel Memory Word := do
  let _hash ← hash_str symbol
  return table (← get) symbol

variable (kmalloc : Word → Kernel σ Word) (kfree : Word → Kernel σ Unit)

def symbol_put (symbol location : Word) : Kernel (SymbolState σ) Status := do
  let (status, symbol_table) ← inHeap (hashtable_put kmalloc kfree (← get).symbol_table symbol location)
  modify fun s => { s with symbol_table := symbol_table }
  pure status

def symbol_remove (symbol : Word) : Kernel (SymbolState σ) Status := do
  let (status, symbol_table) ← inHeap (hashtable_remove kmalloc kfree (← get).symbol_table symbol)
  modify fun s => { s with symbol_table := symbol_table }
  pure status

end KernelOfTruth.Code
