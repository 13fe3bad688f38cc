import KernelOfTruth.Code.Types
import Mathlib.Logic.Function.Basic

/-!
# `kernel/core/sorted_list.c`

The loops run for so many rounds at most, because a list can come to have no end.
-/

namespace KernelOfTruth.Code

inductive Order
  | Order_Equal
  | Order_Greater
  | Order_Less
  deriving DecidableEq, Repr

/-- A list and the entries in memory, each with its link. There is no entry at `NULL`. -/
structure SortedListState where
  entries : Word
  next : Word → Option Word

namespace SortedListState

def loadLink (entry : Word) : Kernel SortedListState Word := do
  match (← get).next entry with
  | some next => pure next
  | none => throw .page_fault

def storeLink (entry next : Word) : Kernel SortedListState Unit := do
  match (← get).next entry with
  | some _ => modify fun s => { s with next := Function.update s.next entry (some next) }
  | none => throw .page_fault

end SortedListState

open SortedListState

variable (compare : Word → Word → Order)

def sortedContainsLoop (entry : Word) : Nat → Word → Kernel SortedListState Bool
  | 0, _ => throw .diverge
  | rounds + 1, cur =>
    if cur = 0 then pure false
    else if compare entry cur = .Order_Equal then pure true
    else do sortedContainsLoop entry rounds (← loadLink cur)

def sorted_list_contains (rounds : Nat) (entry : Word) : Kernel SortedListState Bool := do
  sortedContainsLoop compare entry rounds (← get).entries

/-- The entry from which the loop of `sorted_list_insert` takes its next step. -/
def sortedInsertStep (entry cur : Word) : Kernel SortedListState Word :=
  if compare entry cur = .Order_Less then loadLink cur
  else do
    storeLink entry (← loadLink cur)
    storeLink cur entry
    pure cur

def sortedInsertLoop (entry : Word) : Nat → Word → Kernel SortedListState Unit
  | 0, _ => throw .diverge
  | rounds + 1, cur =>
    if cur = 0 then pure ()
    else do
      let cur ← sortedInsertStep compare entry cur
      sortedInsertLoop entry rounds (← loadLink cur)

def sorted_list_insert (rounds : Nat) (entry : Word) : Kernel SortedListState Unit := do
  let cur := (← get).entries
  if cur = 0 then modify fun s => { s with entries := entry }
  sortedInsertLoop compare entry rounds cur
  storeLink entry 0

def sortedRemoveLoop (entry prev : Word) : Nat → Word → Kernel SortedListState Unit
  | 0, _ => throw .diverge
  | rounds + 1, cur =>
    if cur = 0 then pure ()
    else if compare entry cur = .Order_Equal then do
      let next ← loadLink cur
      if prev ≠ 0 then storeLink prev next
      else modify fun s => { s with entries := next }
      storeLink cur 0
    else do sortedRemoveLoop entry prev rounds (← loadLink cur)

def sorted_list_remove (rounds : Nat) (entry : Word) : Kernel SortedListState Unit := do
  sortedRemoveLoop compare entry 0 rounds (← get).entries

end KernelOfTruth.Code
