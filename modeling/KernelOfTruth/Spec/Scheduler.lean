import KernelOfTruth.Code.Scheduler
import KernelOfTruth.Lib.Ring
import Mathlib.Data.Set.Insert
import Mathlib.Order.BooleanAlgebra.Set
import Mathlib.Logic.Relation

/-!
# What the scheduler's links mean

The scheduled threads are a ring, and `Current_Thread` is one of them.
-/

open KernelOfTruth.Lib KernelOfTruth.Code

namespace KernelOfTruth.Spec

/-- `Current_Thread` is `NULL` if nothing is scheduled. Else it is in a ring of all scheduled threads: from
it `next` goes once to each of them and then back, and `prev` the other way. -/
structure InRing (s : Scheduler) (scheduled : Set Word) : Prop where
  null : s.Current_Thread = 0 ↔ scheduled = ∅
  ring : s.Current_Thread ≠ 0 → ∃ others, Ring s.next s.prev s.Current_Thread others ∧
    ∀ t, t ∈ scheduled ↔ t ∈ s.Current_Thread :: others

/-! ## Runs -/

/-- The scheduler, with the threads that have been added and not removed since. -/
structure Scheduling where
  state : Scheduler
  scheduled : Set Word

/-- An empty scheduler, or one after `scheduler_init` with a thread. -/
inductive Scheduling.Start : Scheduling → Prop
  | empty {s : Scheduler} (hnull : s.Current_Thread = 0) : Start ⟨s, ∅⟩
  | init {s s' : Scheduler} {init : InitProcess} (hthread : init.threads 0 ≠ 0)
    (hrun : (scheduler_init init).run s = .ok (.Ok, s')) : Start ⟨s', {init.threads 0}⟩

/-- One call that returns. Threads are only removed when `may` allows it. -/
inductive Scheduling.Step (may : Scheduler → Word → Prop) (w : Scheduling) : Scheduling → Prop
  | add {thread : Word} {s' : Scheduler} (hnew : thread ∉ w.scheduled)
    (hrun : (scheduler_add_thread thread).run w.state = .ok ((), s')) : Step may w ⟨s', insert thread w.scheduled⟩
  | remove {thread : Word} {s' : Scheduler} (hold : thread ∈ w.scheduled) (hmay : may w.state thread)
    (hrun : (scheduler_remove_thread thread).run w.state = .ok ((), s')) : Step may w ⟨s', w.scheduled \ {thread}⟩
  | yield {switched : Bool} {s' : Scheduler} (hrun : scheduler_yield.run w.state = .ok (switched, s')) :
    Step may w ⟨s', w.scheduled⟩

/-! ## Turns -/

/-- The threads that are current after each of so many calls of `scheduler_yield`. -/
def turns : Nat → Kernel Scheduler (List Word)
  | 0 => pure []
  | n + 1 => do
    let _ ← scheduler_yield
    let current := (← get).Current_Thread
    return current :: (← turns n)

/-- The thread is not the current one, or is the only one. -/
def NotUnderCursor (s : Scheduler) (thread : Word) : Prop := thread = s.Current_Thread → s.next thread = thread

/-! ## The end -/

/-- `scheduler_fini` returns, with no thread in the ring, one reference less to each of them and the lock free. -/
def ShutsDown (s : Scheduler) (scheduled : Set Word) : Prop :=
  ∃ rounds s', (scheduler_fini rounds).run ⟨Lock_Clear, s⟩ = .ok ((), ⟨Lock_Clear, s'⟩) ∧ s'.Current_Thread = 0 ∧
    ∀ t ∈ scheduled, s'.next t = 0 ∧ s'.prev t = 0 ∧ s'.ref_count t = s.ref_count t - 1

end KernelOfTruth.Spec
