import KernelOfTruth.Code.SortedList
import KernelOfTruth.Lib.ListSegment

/-!
# What a sorted list is for

A list holds the entries that have been inserted and not removed, in order.
-/

open KernelOfTruth.Code KernelOfTruth.Lib

namespace KernelOfTruth.Spec

def reversed : Order → Order
  | .Order_Equal => .Order_Equal
  | .Order_Greater => .Order_Less
  | .Order_Less => .Order_Greater

structure TotalPreorder (compare : Word → Word → Order) : Prop where
  swap : ∀ a b, compare b a = reversed (compare a b)
  trans : ∀ a b c, compare a b ≠ .Order_Greater → compare b c ≠ .Order_Greater → compare a c ≠ .Order_Greater

/-- The links lead through exactly these entries. -/
def ListOf (s : SortedListState) (l : List Word) : Prop := Segment id 0 s.next s.entries l 0

inductive ListCall
  | insert (entry : Word)
  | remove (entry : Word)

variable (compare : Word → Word → Order) (wrong : Order)

/-- The list is `l`. No entry compares in the wrong way with one behind it: `Order_Greater` is wrong in an
ascending list and `Order_Less` in a descending one. -/
structure HoldsSorted (s : SortedListState) (l : List Word) : Prop where
  list : ListOf s l
  sorted : l.Pairwise fun x y => compare x y ≠ wrong
  contains : ∀ entry, ∃ rounds found, (sorted_list_contains compare rounds entry).run s = .ok (found, s) ∧
    (found = true ↔ ∃ x ∈ l, compare entry x = .Order_Equal)

/-- The list without the first entry that compares equal. -/
def withoutFirst (entry : Word) (l : List Word) : List Word := l.eraseP fun x => compare entry x = .Order_Equal

/-- Each of the calls returns and does its work on the list, which is `l` at first. -/
def ServesCalls : List ListCall → SortedListState → List Word → Prop
  | [], s, l => HoldsSorted compare wrong s l
  | .insert entry :: calls, s, l => HoldsSorted compare wrong s l ∧
    (entry ∉ l → ∃ rounds s' l', (sorted_list_insert compare rounds entry).run s = .ok ((), s') ∧
      l'.Perm (entry :: l) ∧ ServesCalls calls s' l')
  | .remove entry :: calls, s, l => HoldsSorted compare wrong s l ∧
    ∃ rounds s', (sorted_list_remove compare rounds entry).run s = .ok ((), s') ∧
      ServesCalls calls s' (withoutFirst compare entry l)

/-- Every entry is inserted into an empty list. -/
def InsertsIntoEmpty : List ListCall → List Word → Prop
  | [], _ => True
  | .insert entry :: calls, l => entry ∉ l → l = [] ∧ InsertsIntoEmpty calls [entry]
  | .remove entry :: calls, l => InsertsIntoEmpty calls (withoutFirst compare entry l)

end KernelOfTruth.Spec
