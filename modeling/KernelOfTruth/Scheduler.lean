import KernelOfTruth.Rules
import KernelOfTruth.Spec.Scheduler
import Mathlib.Data.Set.Card

/-!
# The ring of scheduled threads

Adding, removing and yielding are insertion, erasure and rotation of a ring, unless the thread under the
cursor is removed: then `Current_Thread` still points to it.
-/

open KernelOfTruth.Lib KernelOfTruth.Code KernelOfTruth.Spec KernelOfTruth.Rules

namespace KernelOfTruth.Scheduling

variable {E : Halt → Prop} {s s' : Scheduler} {t : Word} {scheduled : Set Word}

/-! ## What each function does -/

/-- The ring is as it was, whatever has happened to the reference counts. -/
structure SameLinks (s s' : Scheduler) : Prop where
  current : s'.Current_Thread = s.Current_Thread
  next : s'.next = s.next
  prev : s'.prev = s.prev

theorem wp_object_retain {Q : Unit → Scheduler → Prop} (h : ∀ s', SameLinks s s' → Q () s') :
    wp (object_retain t) Q E s := by
  unfold object_retain setCount
  rw [wp_bind, wp_get, wp_modify]
  exact h _ ⟨rfl, rfl, rfl⟩

theorem wp_object_release {Q : Unit → Scheduler → Prop} (hnext : s.next t = 0) (hprev : s.prev t = 0)
    (h : ∀ s', SameLinks s s' → Q () s') : wp (object_release t) Q E s := by
  unfold object_release setCount
  rw [wp_bind, wp_get, wp_bind, wp_modify, wp_ite]
  split
  · unfold thread_free
    rw [wp_bind, wp_get, wp_bind, wp_assert_decide hnext, wp_bind, wp_get, wp_bind, wp_assert_decide hprev, wp_modify]
    exact h _ ⟨rfl, rfl, rfl⟩
  · rw [wp_pure]
    exact h _ ⟨rfl, rfl, rfl⟩

theorem inRing_of_same (h : InRing s scheduled) (hsame : SameLinks s s') : InRing s' scheduled := by
  obtain ⟨hcurrent, hnext, hprev⟩ := hsame
  refine ⟨by rw [hcurrent]; exact h.null, ?_⟩
  rw [hcurrent, hnext, hprev]
  exact h.ring

/-! ## Starting a ring -/

theorem inRing_single (ht : t ≠ 0) : InRing
    { s with Current_Thread := t, next := Function.update s.next t t, prev := Function.update s.prev t t } {t} := by
  refine ⟨iff_of_false ht (Set.singleton_ne_empty t), fun _ => ⟨[], ring_single t, ?_⟩⟩
  simp

theorem wp_scheduler_init {init : InitProcess} (hpanic : E (.panic "scheduler_init")) (ht : init.threads 0 ≠ 0) :
    wp (scheduler_init init) (fun _ s' => InRing s' {init.threads 0}) E s := by
  unfold scheduler_init Code.assert
  rw [wp_bind, wp_check]
  split
  · unfold setNext setPrev
    rw [wp_bind, wp_modify, wp_bind, wp_modify, wp_bind, wp_modify, wp_bind]
    refine wp_object_retain fun s' hsame => ?_
    rw [wp_pure]
    exact inRing_of_same (inRing_single ht) hsame
  · exact hpanic

/-! ## The three operations -/

theorem inRing_insert (h : InRing s scheduled) (hcurrent : s.Current_Thread ≠ 0) (ht : t ∉ scheduled) : InRing
    { s with
      next := Function.update (Function.update s.next t (s.next s.Current_Thread)) s.Current_Thread t
      prev := Function.update (Function.update s.prev t s.Current_Thread) (s.next s.Current_Thread) t }
    (insert t scheduled) := by
  obtain ⟨others, hring, hmem⟩ := h.ring hcurrent
  refine ⟨iff_of_false hcurrent (Set.insert_nonempty t scheduled).ne_empty,
    fun _ => ⟨t :: others, ring_insert hring (mt (hmem t).mpr ht), ?_⟩⟩
  intro u
  rw [Set.mem_insert_iff, hmem]
  simp only [List.mem_cons]
  tauto

theorem wp_scheduler_add_thread (hpanic : E (.panic "scheduler_add_thread")) (h : InRing s scheduled)
    (ht : t ∉ scheduled) :
    wp (scheduler_add_thread t) (fun _ s' => InRing s' (insert t scheduled) ∧ s'.next s'.Current_Thread = t) E s := by
  unfold scheduler_add_thread Code.assert
  rw [wp_bind, wp_check]
  split
  · rename_i hne
    have ht0 : t ≠ 0 := by simpa using hne
    rw [wp_bind, wp_get, wp_bind]
    by_cases hcurrent : s.Current_Thread = 0
    · rw [if_neg (not_not_intro hcurrent)]
      have hempty := h.null.mp hcurrent
      unfold startRing setNext setPrev
      rw [wp_bind, wp_modify, wp_bind, wp_modify, wp_modify]
      refine wp_object_retain fun s' hsame => ?_
      rw [hempty, insert_empty_eq, hsame.current, hsame.next]
      exact ⟨inRing_of_same (inRing_single ht0) hsame, Function.update_self ..⟩
    · rw [if_pos hcurrent]
      obtain ⟨others, -, hmem⟩ := h.ring hcurrent
      have hne : s.Current_Thread ≠ t := by
        rintro rfl
        exact ht ((hmem _).mpr (by simp))
      unfold insertThread setNext setPrev
      rw [wp_bind, wp_get, wp_bind, wp_modify, wp_bind, wp_modify, wp_bind, wp_get, wp_bind, wp_modify, wp_modify]
      simp only [Function.update_of_ne hne]
      refine wp_object_retain fun s' hsame => ⟨inRing_of_same (inRing_insert h hcurrent ht) hsame, ?_⟩
      rw [hsame.current, hsame.next]
      exact Function.update_self ..
  · exact hpanic

theorem wp_scheduler_yield (h : InRing s scheduled) (h0 : 0 ∉ scheduled) :
    wp scheduler_yield (fun _ s' => InRing s' scheduled) E s := by
  unfold scheduler_yield
  rw [wp_bind, wp_get, wp_ite]
  split
  · exact (wp_pure ..).mpr h
  · rename_i hcurrent
    rw [wp_ite]
    split
    · rename_i hmore
      obtain ⟨others, hring, hmem⟩ := h.ring hcurrent
      rw [wp_bind, wp_set, wp_pure]
      cases others with
      | nil => exact absurd hring.path.1.symm hmore
      | cons y others =>
        obtain rfl : s.next s.Current_Thread = y := hring.path.1
        have hy : s.next s.Current_Thread ∈ scheduled := (hmem _).mpr (by simp)
        refine ⟨iff_of_false (fun e => h0 (e ▸ hy)) (Set.nonempty_of_mem hy).ne_empty, fun _ => ?_⟩
        refine ⟨_, ring_rotate hring, fun u => ?_⟩
        rw [hmem]
        simp only [List.mem_cons, List.mem_append, List.not_mem_nil, or_false]
        tauto
    · exact (wp_pure ..).mpr h

theorem current_of_mem (h : InRing s scheduled) (ht : t ∈ scheduled) : s.Current_Thread ≠ 0 := by
  intro hnull
  rw [h.null.mp hnull] at ht
  exact ht

/-- A thread that is its own successor is alone in the ring. -/
theorem inRing_last (h : InRing s scheduled) (ht : t ∈ scheduled) (hlast : s.next t = t) : scheduled = {t} := by
  obtain ⟨others, hring, hmem⟩ := h.ring (current_of_mem h ht)
  obtain ⟨hcurrent, rfl⟩ := ring_self hring ((hmem t).mp ht) hlast
  ext u
  rw [hmem, hcurrent]
  simp

theorem thread_ne_prev (h : InRing s scheduled) (ht : t ∈ scheduled) (hne : t ≠ s.Current_Thread) : t ≠ s.prev t := by
  obtain ⟨others, hring, hmem⟩ := h.ring (current_of_mem h ht)
  have hother : t ∈ others := (List.mem_cons.mp ((hmem t).mp ht)).resolve_left hne
  obtain ⟨ys, zs, rfl⟩ := List.append_of_mem hother
  exact ring_prev_ne hring

theorem inRing_erase (h : InRing s scheduled) (ht : t ∈ scheduled) (hne : t ≠ s.Current_Thread) : InRing
    { s with
      next := Function.update (Function.update s.next (s.prev t) (s.next t)) t 0
      prev := Function.update (Function.update s.prev (s.next t) (s.prev t)) t 0 }
    (scheduled \ {t}) := by
  have hcurrent := current_of_mem h ht
  obtain ⟨others, hring, hmem⟩ := h.ring hcurrent
  have hother : t ∈ others := (List.mem_cons.mp ((hmem t).mp ht)).resolve_left hne
  obtain ⟨ys, zs, rfl⟩ := List.append_of_mem hother
  have hkept : s.Current_Thread ∈ scheduled \ {t} := ⟨(hmem _).mpr (by simp), fun e => hne e.symm⟩
  refine ⟨iff_of_false hcurrent (Set.nonempty_of_mem hkept).ne_empty, fun _ => ⟨ys ++ zs, ring_erase hring, ?_⟩⟩
  have hnot := (List.nodup_cons.mp (ring_nodup_middle hring)).1
  intro u
  rw [Set.mem_sdiff, hmem, Set.mem_singleton_iff]
  simp only [List.mem_cons, List.mem_append] at hnot ⊢
  constructor
  · tauto
  · rintro hu
    refine ⟨by tauto, ?_⟩
    rintro rfl
    exact hnot hu

theorem inRing_empty (hnull : s.Current_Thread = 0) : InRing s ∅ :=
  ⟨iff_of_true hnull rfl, fun hne => absurd hnull hne⟩

theorem wp_scheduler_remove_thread (hpanic : E (.panic "scheduler_remove_thread")) (h : InRing s scheduled)
    (ht : t ∈ scheduled) (hmay : NotUnderCursor s t) :
    wp (scheduler_remove_thread t) (fun _ s' => InRing s' (scheduled \ {t})) E s := by
  unfold scheduler_remove_thread Code.assert
  rw [wp_bind, wp_check]
  split
  · rw [wp_bind, wp_get, wp_bind]
    by_cases hlast : s.next t = t
    · rw [if_pos hlast, wp_modify]
      unfold setNext setPrev
      rw [wp_bind, wp_modify, wp_bind, wp_modify]
      refine wp_object_release (Function.update_self ..) (Function.update_self ..) fun s' hsame => ?_
      rw [inRing_last h ht hlast, sdiff_self]
      exact inRing_of_same (inRing_empty rfl) hsame
    · have hne : t ≠ s.Current_Thread := fun e => hlast (hmay e)
      rw [if_neg hlast]
      unfold unlinkThread setNext setPrev
      rw [wp_bind, wp_get, wp_bind, wp_get, wp_bind, wp_modify, wp_bind, wp_get, wp_bind, wp_get, wp_modify, wp_bind,
        wp_modify, wp_bind, wp_modify]
      have hprev := thread_ne_prev h ht hne
      refine wp_object_release (Function.update_self ..) (Function.update_self ..) fun s' hsame => ?_
      simp only [Function.update_of_ne hprev] at hsame
      exact inRing_of_same (inRing_erase h ht hne) hsame
  · exact hpanic

/-! ## Runs -/

/-- What holds between two calls. -/
structure Inv (w : Spec.Scheduling) : Prop where
  ring : InRing w.state w.scheduled
  threads : 0 ∉ w.scheduled

theorem start_inv {w : Spec.Scheduling} (h : w.Start) : Inv w := by
  cases h with
  | empty hnull => exact ⟨inRing_empty hnull, fun h => h⟩
  | init hthread hrun =>
    have hring := wp_ok (wp_scheduler_init (E := fun _ => True) trivial hthread) hrun
    exact ⟨hring, fun h => hthread h.symm⟩

theorem step_inv {w w' : Spec.Scheduling} (h : Inv w) (hstep : Spec.Scheduling.Step NotUnderCursor w w') : Inv w' := by
  cases hstep with
  | add hnew hrun =>
    obtain ⟨hring, -⟩ := wp_ok (wp_scheduler_add_thread (E := fun _ => True) trivial h.ring hnew) hrun
    refine ⟨hring, ?_⟩
    rintro (rfl | hmem)
    · cases hrun
    · exact h.threads hmem
  | remove hold hmay hrun =>
    have hring := wp_ok (wp_scheduler_remove_thread (E := fun _ => True) trivial h.ring hold hmay) hrun
    exact ⟨hring, fun hmem => h.threads hmem.1⟩
  | yield hrun =>
    have hring := wp_ok (wp_scheduler_yield (E := fun _ => True) h.ring h.threads) hrun
    exact ⟨hring, h.threads⟩

theorem run_inv {w w' : Spec.Scheduling} (hstart : w.Start)
    (hrun : Relation.ReflTransGen (Spec.Scheduling.Step NotUnderCursor) w w') : Inv w' := by
  induction hrun with
  | refl => exact start_inv hstart
  | tail _ hstep ih => exact step_inv ih hstep

/-- In every run that does not remove the thread under the cursor while there are others, the scheduled
threads are a ring with `Current_Thread` in it. -/
theorem threads_stay_in_ring {w w' : Spec.Scheduling} (hstart : w.Start)
    (hrun : Relation.ReflTransGen (Spec.Scheduling.Step NotUnderCursor) w w') : InRing w'.state w'.scheduled :=
  (run_inv hstart hrun).ring

/-- No threads, and two references to each of those to come. -/
def emptyScheduler : Scheduler := ⟨0, fun _ => 0, fun _ => 0, fun _ => 2, []⟩

def after (call : Kernel Scheduler Unit) (s : Scheduler) : Scheduler :=
  match call.run s with
  | .ok result => result.2
  | .error _ => s

def oneThread : Scheduler := after (scheduler_add_thread 0x1000) emptyScheduler

/-- The thread that was added first is the current one. -/
def twoThreads : Scheduler := after (scheduler_add_thread 0x2000) oneThread

theorem reaches_twoThreads (may : Scheduler → Word → Prop) :
    Relation.ReflTransGen (Spec.Scheduling.Step may) ⟨emptyScheduler, ∅⟩ ⟨twoThreads, {0x2000, 0x1000}⟩ := by
  have hone : Spec.Scheduling.Step may ⟨emptyScheduler, ∅⟩ ⟨oneThread, insert 0x1000 ∅⟩ := .add (fun h => h) rfl
  have htwo : Spec.Scheduling.Step may ⟨oneThread, insert 0x1000 ∅⟩ ⟨twoThreads, insert 0x2000 (insert 0x1000 ∅)⟩ :=
    .add (by simp) rfl
  exact .tail (.single hone) (by simpa using htwo)

theorem second_thread_removed : ∃ w : Spec.Scheduling, Spec.Scheduling.Start ⟨emptyScheduler, ∅⟩ ∧
    Relation.ReflTransGen (Spec.Scheduling.Step NotUnderCursor) ⟨emptyScheduler, ∅⟩ w ∧ InRing w.state w.scheduled := by
  have hremove : Spec.Scheduling.Step NotUnderCursor ⟨twoThreads, {0x2000, 0x1000}⟩
      ⟨after (scheduler_remove_thread 0x2000) twoThreads, {0x2000, 0x1000} \ {0x2000}⟩ :=
    .remove (by simp) (fun h => absurd h (by decide)) rfl
  have hrun := (reaches_twoThreads NotUnderCursor).tail hremove
  exact ⟨_, .empty rfl, hrun, threads_stay_in_ring (.empty rfl) hrun⟩

/-- The current thread is removed, and stays the current one. -/
theorem current_thread_removed : ∃ w : Spec.Scheduling, Spec.Scheduling.Start ⟨emptyScheduler, ∅⟩ ∧
    Relation.ReflTransGen (Spec.Scheduling.Step fun _ _ => True) ⟨emptyScheduler, ∅⟩ w ∧
    ¬ InRing w.state w.scheduled := by
  have hremove : Spec.Scheduling.Step (fun _ _ => True) ⟨twoThreads, {0x2000, 0x1000}⟩
      ⟨after (scheduler_remove_thread 0x1000) twoThreads, {0x2000, 0x1000} \ {0x1000}⟩ :=
    .remove (by simp) trivial rfl
  refine ⟨_, .empty rfl, (reaches_twoThreads _).tail hremove, fun h => ?_⟩
  obtain ⟨others, -, hmem⟩ := h.ring (by decide)
  have hcurrent := (hmem 0x1000).mpr (List.mem_cons_self ..)
  exact hcurrent.2 rfl

/-! ## Round robin -/

/-- A thread that is alone stays current, since it is its own successor. -/
theorem wp_scheduler_yield_next (hcurrent : s.Current_Thread ≠ 0) :
    wp scheduler_yield (fun _ s' => s' = { s with Current_Thread := s.next s.Current_Thread }) E s := by
  unfold scheduler_yield
  rw [wp_bind, wp_get, if_neg hcurrent, wp_ite]
  split
  · rw [wp_bind, wp_set, wp_pure]
  · rename_i halone
    rw [wp_pure, ← not_not.mp halone]

-- by induction on the threads between the current one and `b`
theorem wp_turns {b : Word} {xs : List Word} (h : Path s.next s.prev s.Current_Thread xs b)
    (hcurrent : s.Current_Thread ≠ 0) (hxs : 0 ∉ xs) :
    wp (turns (xs.length + 1)) (fun order s' => order = xs ++ [b] ∧ s' = { s with Current_Thread := b }) E s := by
  induction xs generalizing s with
  | nil =>
    simp only [List.length_nil, turns, wp_bind, wp_get, wp_pure]
    refine wp_imp (wp_scheduler_yield_next hcurrent) ?_
    rintro _ _ rfl
    simp only [h.1, List.nil_append, and_self]
  | cons x xs ih =>
    obtain ⟨hx, -, hpath⟩ := h
    rw [List.mem_cons, not_or] at hxs
    unfold turns
    simp only [wp_bind, wp_get, wp_pure]
    refine wp_imp (wp_scheduler_yield_next hcurrent) ?_
    rintro _ _ rfl
    rw [hx]
    refine wp_imp (ih (s := { s with Current_Thread := x }) hpath (Ne.symm hxs.1) hxs.2) ?_
    rintro _ _ ⟨rfl, rfl⟩
    exact ⟨rfl, rfl⟩

theorem ncard_of_ring {x : Word} {others : List Word} (hring : Ring s.next s.prev x others)
    (hmem : ∀ t, t ∈ scheduled ↔ t ∈ x :: others) : scheduled.ncard = others.length + 1 := by
  have hset : scheduled = ((x :: others).toFinset : Set Word) := by
    ext t
    rw [hmem, List.coe_toFinset, Set.mem_ofPred_eq]
  rw [hset, Set.ncard_coe_finset, List.toFinset_card_of_nodup hring.nodup, List.length_cons]

/-- As many yields as there are threads make each of them current once, the one that is current now as the last. A
new thread is the next one. -/
theorem threads_take_turns {w w' : Spec.Scheduling} (hstart : w.Start)
    (hrun : Relation.ReflTransGen (Spec.Scheduling.Step NotUnderCursor) w w') :
    (w'.scheduled.Nonempty → ∃ order s', (turns w'.scheduled.ncard).run w'.state = .ok (order, s') ∧
      order.Nodup ∧ (∀ t, t ∈ order ↔ t ∈ w'.scheduled) ∧ s'.Current_Thread = w'.state.Current_Thread ∧
      order.getLast? = some w'.state.Current_Thread) ∧
    ∀ t ∉ w'.scheduled, ∀ s', (scheduler_add_thread t).run w'.state = .ok ((), s') →
      ∃ switched s'', scheduler_yield.run s' = .ok (switched, s'') ∧ s''.Current_Thread = t := by
  obtain ⟨h, hnull⟩ := run_inv hstart hrun
  refine ⟨fun hnonempty => ?_, fun t ht s' hadd => ?_⟩
  · obtain ⟨t, ht⟩ := hnonempty
    have hcurrent := current_of_mem h ht
    obtain ⟨others, hring, hmem⟩ := h.ring hcurrent
    have hothers : 0 ∉ others := fun h0 => hnull ((hmem 0).mpr (List.mem_cons_of_mem _ h0))
    obtain ⟨order, s', hturns, rfl, rfl⟩ := wp_total (wp_turns hring.path hcurrent hothers)
    have hperm : (others ++ [w'.state.Current_Thread]).Perm (w'.state.Current_Thread :: others) :=
      List.perm_append_singleton _ _
    rw [ncard_of_ring hring hmem]
    refine ⟨_, _, hturns, hperm.nodup_iff.mpr hring.nodup, fun t => ?_, rfl, List.getLast?_concat⟩
    rw [hmem, hperm.mem_iff]
  · obtain ⟨hring, hnext⟩ := wp_ok (wp_scheduler_add_thread (E := fun _ => True) trivial h ht) hadd
    have hcurrent := current_of_mem hring (Set.mem_insert t w'.scheduled)
    obtain ⟨switched, s'', hyield, rfl⟩ := wp_total (wp_scheduler_yield_next hcurrent)
    exact ⟨switched, _, hyield, hnext⟩

theorem twoThreads_take_turns : ∃ order s', Spec.Scheduling.Start ⟨emptyScheduler, ∅⟩ ∧
    Relation.ReflTransGen (Spec.Scheduling.Step NotUnderCursor) ⟨emptyScheduler, ∅⟩ ⟨twoThreads, {0x2000, 0x1000}⟩ ∧
    (turns 2).run twoThreads = .ok (order, s') ∧ order.Nodup ∧ 0x1000 ∈ order ∧ 0x2000 ∈ order ∧
    s'.Current_Thread = 0x1000 := by
  have hrun := reaches_twoThreads NotUnderCursor
  obtain ⟨order, s', hturns, hnodup, hmem, hlast, -⟩ := (threads_take_turns (.empty rfl) hrun).1 ⟨0x1000, by simp⟩
  rw [Set.ncard_pair (by decide)] at hturns
  exact ⟨order, s', .empty rfl, hrun, hturns, hnodup, (hmem _).mpr (by simp), (hmem _).mpr (by simp), hlast⟩

/-! ## The end -/

theorem wp_lockedRemoveThread_held {Q : Unit → Locked Scheduler → Prop} (ht : t ≠ 0) :
    wp (lockedRemoveThread t) Q E ⟨heldLock, s⟩ ↔ E .deadlock := by
  unfold lockedRemoveThread
  rw [wp_bind, wp_assert_decide ht, wp_bind, wp_acquireLock_held]

theorem wp_loadNext {Q : Word → Locked Scheduler → Prop} {lock : Lock} (ht : t ≠ 0) :
    wp (loadNext t) Q E ⟨lock, s⟩ ↔ Q (s.next t) ⟨lock, s⟩ := by
  unfold loadNext
  rw [if_neg ht, wp_bind, wp_get, wp_pure]

/-- Whether the loop has a round or not, the first call of `scheduler_remove_thread` waits for the lock. -/
theorem wp_scheduler_fini {Q : Unit → Locked Scheduler → Prop} {rounds : Nat} (hcurrent : s.Current_Thread ≠ 0) :
    wp (scheduler_fini (rounds + 1)) Q E ⟨Lock_Clear, s⟩ ↔ E .deadlock := by
  unfold scheduler_fini finiLoop
  rw [wp_bind, wp_acquireLock, wp_bind, wp_bind, wp_get, wp_bind, wp_loadNext hcurrent, wp_ite]
  split
  · rw [wp_bind, wp_modify, wp_bind, wp_lockedRemoveThread_held hcurrent]
  · rw [wp_pure, wp_bind, wp_get, wp_bind, wp_lockedRemoveThread_held hcurrent]

theorem not_shutsDown (hcurrent : s.Current_Thread ≠ 0) : ¬ ShutsDown s scheduled := by
  rintro ⟨rounds, s', hrun, -⟩
  cases rounds with
  | zero =>
    have hdiverge : wp (scheduler_fini 0) (fun _ _ => False) (fun _ => True) ⟨Lock_Clear, s⟩ := by
      unfold scheduler_fini finiLoop
      rw [wp_bind, wp_acquireLock, wp_bind, wp_throw]
      trivial
    exact wp_ok hdiverge hrun
  | succ rounds =>
    have hdeadlock : wp (scheduler_fini (rounds + 1)) (fun _ _ => False) (fun _ => True) ⟨Lock_Clear, s⟩ :=
      (wp_scheduler_fini hcurrent).mpr trivial
    exact wp_ok hdeadlock hrun

/-- No scheduler with a thread in its ring is shut down. -/
theorem never_shuts_down (h : InRing s scheduled) (hnonempty : scheduled.Nonempty) : ¬ ShutsDown s scheduled := by
  obtain ⟨t, ht⟩ := hnonempty
  exact not_shutsDown (current_of_mem h ht)

theorem twoThreads_inRing : InRing twoThreads {0x2000, 0x1000} :=
  (run_inv (.empty rfl) (reaches_twoThreads NotUnderCursor)).ring

theorem twoThreads_not_shut_down : InRing twoThreads {0x2000, 0x1000} ∧ ¬ ShutsDown twoThreads {0x2000, 0x1000} :=
  ⟨twoThreads_inRing, never_shuts_down twoThreads_inRing ⟨0x1000, by simp⟩⟩

theorem shutdown_deadlocks : InRing twoThreads {0x2000, 0x1000} ∧
    (scheduler_fini 2).run ⟨Lock_Clear, twoThreads⟩ = .error .deadlock ∧ ¬ ShutsDown twoThreads {0x2000, 0x1000} :=
  ⟨twoThreads_inRing, rfl, not_shutsDown (by decide)⟩

end KernelOfTruth.Scheduling
