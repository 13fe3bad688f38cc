import KernelOfTruth.Code.Hashtable
import KernelOfTruth.Lib.Probing
import Mathlib.Data.Finmap

/-!
# What a hash table is for

A finite map. Its keys are the classes of the keys that compare equal.
-/

open KernelOfTruth.Lib KernelOfTruth.Code

namespace KernelOfTruth.Spec

/-- The hash function and the comparison fit together. -/
structure Consistent (hash : Word → Word) (comp : Word → Word → Partial) : Prop where
  equal : Equivalence fun a b => comp a b = .Partial_Equal
  hash_eq : ∀ {a b}, comp a b = .Partial_Equal → hash a = hash b

variable {σ : Type} {hash : Word → Word} {comp : Word → Word → Partial} (fit : Consistent hash comp)

def Consistent.setoid : Setoid Word := ⟨_, fit.equal⟩

abbrev KeyClass := Quotient fit.setoid

instance : DecidableEq (KeyClass fit) :=
  @Quotient.decidableEq _ fit.setoid fun a b => inferInstanceAs (Decidable (comp a b = .Partial_Equal))

def classOf (key : Word) : KeyClass fit := Quotient.mk fit.setoid key

/-- A map from keys to values. -/
abbrev Map := Finmap fun _ : KeyClass fit => Word

/-! ## The table as a table with linear probing -/

def hashCell (d : Hashdata) : Cell Word Word :=
  match d.state with
  | .Hashdata_Empty => .empty
  | .Hashdata_Tombstone => .deleted
  | .Hashdata_Full => .full d.key d.value

/-- Nothing is put in, or found, outside of the buffer. -/
def tableCell (ht : Hashtable) (p : Nat) : Cell Word Word := (ht.data.entry p).elim .deleted hashCell

def tableHome (ht : Hashtable) (key : Word) : Nat := (ht.hash key % ht.size).toNat

/-- A table with the hash function `hash` and the comparison `comp`, which has the entries `es`. -/
structure IsHashtable (hash : Word → Word) (comp : Word → Word → Partial) (ht : Hashtable)
    (es : Multiset (Word × Word)) : Prop where
  hash_eq : ht.hash = hash
  comp_eq : ht.comp = comp
  size_pos : 0 < ht.size.toNat
  placed : Placed ht.size.toNat (tableHome ht) (tableCell ht)
  entries_eq : entries ht.size.toNat (tableCell ht) = es
  used_eq : ht.used.toNat = Multiset.card es

/-! ## Runs -/

variable (kmalloc : Word → Kernel σ Word) (kfree : Word → Kernel σ Unit)

def NeverFails : Prop := ∀ bytes s p s', (kmalloc bytes).run s = .ok (p, s') → p ≠ 0

/-- A table that `hashtable_init` has made and on which `hashtable_put` and `hashtable_remove` have worked, with the map
that it should be. Between two of them the rest of the kernel may do anything but change the table:
`hashtable_get`, which returns no new table, is no step of its own. -/
inductive MapRun (size : Word) : Hashtable → Map fit → Prop
  | init {ht : Hashtable} {s s' : σ} (hrun : (hashtable_init kmalloc kfree size hash comp).run s = .ok (some ht, s')) :
    MapRun size ht ∅
  | put {ht ht' : Hashtable} {M : Map fit} {key value : Word} {status : Status} {s s' : σ} (h : MapRun size ht M)
    (habsent : classOf fit key ∉ M) (hvalue : value ≠ 0)
    (hrun : (hashtable_put kmalloc kfree ht key value).run s = .ok ((status, ht'), s')) :
    MapRun size ht' (M.insert (classOf fit key) value)
  | remove {ht ht' : Hashtable} {M : Map fit} {key : Word} {status : Status} {s s' : σ} (h : MapRun size ht M)
    (hpresent : classOf fit key ∈ M)
    (hrun : (hashtable_remove kmalloc kfree ht key).run s = .ok ((status, ht'), s')) :
    MapRun size ht' (M.erase (classOf fit key))

/-! ## Removals of any key -/

/-- A table to which keys were added that it did not have, and from which keys were removed, with the map that it
should be. -/
inductive DistinctRun (size : Word) : Hashtable → Map fit → Prop
  | init {ht : Hashtable} {s s' : σ} (hrun : (hashtable_init kmalloc kfree size hash comp).run s = .ok (some ht, s')) :
    DistinctRun size ht ∅
  | put {ht ht' : Hashtable} {M : Map fit} {key value : Word} {status : Status} {s s' : σ} (h : DistinctRun size ht M)
    (habsent : classOf fit key ∉ M)
    (hrun : (hashtable_put kmalloc kfree ht key value).run s = .ok ((status, ht'), s')) :
    DistinctRun size ht' (M.insert (classOf fit key) value)
  | remove {ht ht' : Hashtable} {M : Map fit} {key : Word} {status : Status} {s s' : σ} (h : DistinctRun size ht M)
    (hrun : (hashtable_remove kmalloc kfree ht key).run s = .ok ((status, ht'), s')) :
    DistinctRun size ht' (M.erase (classOf fit key))

/-- The slots of the table have the keys of the map with their values, each of them once. -/
def HasMap (ht : Hashtable) (M : Map fit) : Prop :=
  M.entries = (entries ht.size.toNat (tableCell ht)).map fun e => ⟨classOf fit e.1, e.2⟩

/-- The removal returns. The table is then without the key, and all others still yield their values; a key that was not
there has changed nothing. -/
def RemovesKey (ht : Hashtable) (M : Map fit) (key : Word) (s : σ) : Prop :=
  ∃ status ht' s', (hashtable_remove kmalloc kfree ht key).run s = .ok ((status, ht'), s') ∧
    (classOf fit key ∈ M → HasMap fit ht' (M.erase (classOf fit key)) ∧
      ∀ key' value, (M.erase (classOf fit key)).lookup (classOf fit key') = some value →
        ∀ t : σ, (hashtable_get ht' key').run t = .ok (value, t)) ∧
    (classOf fit key ∉ M → ht' = ht)

/-! ## The end of a search -/

/-- The assertion behind the loop of `hashtable_seek` or `hashtable_seek_empty` has failed. -/
def NotReached (e : Halt) : Prop := e = .panic "hashtable_seek" ∨ e = .panic "hashtable_seek_empty"

def EmptySlot (ht : Hashtable) (p : Nat) : Prop := p < ht.size.toNat ∧ tableCell ht p = .empty

/-- What the heap does is not the failure of a search. -/
def QuietHeap : Prop :=
  (∀ bytes s e, (kmalloc bytes).run s = .error e → ¬ NotReached e) ∧
    ∀ p s e, (kfree p).run s = .error e → ¬ NotReached e

/-! ## Puts that fail -/

/-- A table on which puts and removals have worked, whatever their keys and results were. -/
inductive TableRun (hash : Word → Word) (comp : Word → Word → Partial) : Hashtable → Prop
  | init {size : Word} {ht : Hashtable} {s s' : σ}
    (hrun : (hashtable_init kmalloc kfree size hash comp).run s = .ok (some ht, s')) : TableRun hash comp ht
  | put {ht ht' : Hashtable} {key value : Word} {status : Status} {s s' : σ} (h : TableRun hash comp ht)
    (hrun : (hashtable_put kmalloc kfree ht key value).run s = .ok ((status, ht'), s')) : TableRun hash comp ht'
  | remove {ht ht' : Hashtable} {key : Word} {status : Status} {s s' : σ} (h : TableRun hash comp ht)
    (hrun : (hashtable_remove kmalloc kfree ht key).run s = .ok ((status, ht'), s')) : TableRun hash comp ht'

/-- A table between two calls, or one in the middle of a put, which has stored its entry and may now let it grow. -/
inductive GrowingTable (hash : Word → Word) (comp : Word → Word → Partial) : Hashtable → Prop
  | between {ht : Hashtable} (h : TableRun kmalloc kfree hash comp ht) : GrowingTable hash comp ht
  | within {ht ht' : Hashtable} {key value : Word} {s s' : σ} (h : TableRun kmalloc kfree hash comp ht)
    (hrun : (putSlot ht key value).run s = .ok (ht', s')) : GrowingTable hash comp ht'

/-- When the put returns an error, all lookups and the number of entries are as before, and the table is still one. -/
def FailedPutUndone (ht : Hashtable) (key value : Word) (s : σ) : Prop :=
  ∀ status ht' s', (hashtable_put kmalloc kfree ht key value).run s = .ok ((status, ht'), s') → status ≠ .Ok →
    (∀ key' (t : σ), (hashtable_get ht' key').run t = (hashtable_get ht key').run t) ∧ ht'.used = ht.used ∧
    ∃ es, IsHashtable ht.hash ht.comp ht' es

/-- A lookup of the key returns the same value from both tables. -/
def SameLookup (σ : Type) (ht ht' : Hashtable) (key : Word) : Prop :=
  ∃ value, ∀ t : σ, (hashtable_get ht key).run t = .ok (value, t) ∧ (hashtable_get ht' key).run t = .ok (value, t)

/-- The key is in the table, or an empty slot is that is not its home slot. -/
def LookupEnds (ht : Hashtable) (key : Word) : Prop :=
  (∃ p < ht.size.toNat, ∃ k v, tableCell ht p = .full k v ∧ ht.comp key k = .Partial_Equal) ∨
    ∃ p, EmptySlot ht p ∧ p ≠ tableHome ht key

/-- The values of the entries with the key, in the order of a search that starts at the slot `h`. -/
def valuesFrom (ht : Hashtable) (key : Word) (h : Nat) : List Word :=
  found ht.size.toNat (tableCell ht) (fun k => ht.comp key k = .Partial_Equal) h

/-- The way from the home slot of the key comes to an empty slot, and does not leave the buffer before. -/
def EmptyAhead (ht : Hashtable) (key : Word) : Prop :=
  ∃ i < ht.size.toNat, tableCell ht (probe ht.size.toNat (tableHome ht key) i) = .empty ∧
    ∀ j < i, ∃ d, ht.data.entry (probe ht.size.toNat (tableHome ht key) j) = some d ∧ d.state ≠ .Hashdata_Empty

end KernelOfTruth.Spec
