import KernelOfTruth.Code.Object
import Mathlib.Data.Multiset.AddSub

/-!
# What it means to count references

Holders have references and give them back in any order. Each call of `object_retain` and `object_release` is one step,
because each of them does one atomic operation on the count.
-/

open KernelOfTruth.Code

namespace KernelOfTruth.Spec

inductive RefEvent (H : Type)
  | retain (holder : H)
  | release (holder : H)

/-- The object, the holders with one entry for each reference, and the calls of the object's `free`: for each of them the
number of references that are still held. -/
structure Sharing (H : Type) where
  object : Object
  held : Multiset H
  calls : List Nat

section Runs

variable {H : Type} [DecidableEq H]

/-- After `object_clear` by a creator with the only reference. -/
def Sharing.start (free_func : Word) (creator : H) : Sharing H := ⟨object_clear free_func, {creator}, []⟩

def Sharing.next (w : Sharing H) : RefEvent H → Sharing H
  | .retain holder => ⟨w.object.object_retain, holder ::ₘ w.held, w.calls⟩
  | .release holder =>
    ⟨w.object.object_release.1, w.held.erase holder,
      if w.object.object_release.2 then w.calls ++ [Multiset.card (w.held.erase holder)] else w.calls⟩

def Sharing.run (w : Sharing H) (es : List (RefEvent H)) : Sharing H := es.foldl Sharing.next w

/-- A new reference comes from one that is held, and what is given back is held. -/
def Sharing.May (w : Sharing H) : RefEvent H → Prop
  | .retain _ => w.held ≠ 0
  | .release holder => holder ∈ w.held

def Sharing.Valid (w : Sharing H) : List (RefEvent H) → Prop
  | [] => True
  | e :: es => w.May e ∧ (w.next e).Valid es

/-- `free` is called once, by the release that gives back the last reference. -/
def Sharing.FreedOnce (w : Sharing H) : Prop := w.calls = if w.held = 0 then [0] else []

/-- A call of `free` works on the owner that has the object in it: on the process if it is `process_free`, and on the
thread if it is `thread_free`. -/
def Sharing.FreesOwner (w : Sharing H) (owner : Word) : Prop :=
  w.calls ≠ [] → process_free_target (owner + processObj) = owner ∧ thread_free_target (owner + threadObj) = owner

/-- Some reference is kept to the end, and none is given back while a multiple of 2^32 of them are held. -/
def Sharing.KeepsOne (w : Sharing H) : List (RefEvent H) → Prop
  | [] => w.held ≠ 0
  | .retain holder :: es => (w.next (.retain holder)).KeepsOne es
  | .release holder :: es => ¬ 2 ^ 32 ∣ Multiset.card w.held ∧ (w.next (.release holder)).KeepsOne es

end Runs

end KernelOfTruth.Spec
