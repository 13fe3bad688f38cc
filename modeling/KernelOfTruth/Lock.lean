import KernelOfTruth.Spec.Lock
import Mathlib.Data.Finset.Card

/-!
# Exclusion of the lock

The flag `writer` has one owner at most, and `readers` is at least the number of threads that have counted
themselves, as long as every step finds the lock as the code takes it to be. Without that, a thread can
get the lock twice over: the code writes what it has seen into `expected` and then expects it.
-/

open KernelOfTruth.Code KernelOfTruth.Spec

namespace KernelOfTruth.Locks

variable {T : Type} {s s' : Threads T}

/-! ## The invariant -/

/-- The thread has set the flag, and is the one to clear it. -/
def Holds (p : Point) : Prop := p = .acquire_reader_add ∨ p = .acquire_reader_store ∨ Writes p

/-- The thread is one of `readers`. -/
def Counts (p : Point) : Prop := p = .acquire_reader_store ∨ Reads p

instance (p : Point) : Decidable (Counts p) := inferInstanceAs (Decidable (_ ∨ _))

theorem holds_of_writes {p : Point} (h : Writes p) : Holds p := .inr (.inr h)

structure Inv (s : Threads T) : Prop where
  one : ∀ t u, Holds (s.point t) → Holds (s.point u) → t = u
  flag : ∀ t, Holds (s.point t) → s.lock.writer = true
  counted : ∃ C : Finset T, (∀ t, t ∈ C ↔ Counts (s.point t)) ∧ C.card ≤ s.lock.readers.toNat
  alone : ∀ t u, Writes (s.point t) → ¬ Counts (s.point u)

theorem inv_start (lock : Lock) : Inv (startThreads T lock) where
  one := by simp [startThreads, Holds, Writes]
  flag := by simp [startThreads, Holds, Writes]
  counted := ⟨∅, by simp [startThreads, Counts, Reads]⟩
  alone := by simp [startThreads, Writes]

theorem excluded_of_inv (h : Inv s) : Excluded s where
  one_writer t u ht hu := h.one t u (holds_of_writes ht) (holds_of_writes hu)
  no_reader t u ht hu := h.alone t u ht (.inr hu)

/-- No flag, no owner. -/
theorem Inv.free (h : Inv s) (hflag : s.lock.writer = false) (t : T) : ¬ Holds (s.point t) := by
  intro ht
  rw [h.flag t ht] at hflag
  cases hflag

theorem Inv.uncounted (h : Inv s) (hreaders : s.lock.readers = 0) (t : T) : ¬ Counts (s.point t) := by
  obtain ⟨C, hmem, hcard⟩ := h.counted
  rw [hreaders, show (0 : BitVec 32).toNat = 0 from rfl, Nat.le_zero, Finset.card_eq_zero] at hcard
  simp [← hmem, hcard]

/-! ## Steps -/

section Step

/-- What the step of a thread from `s.point a` to `p` has to keep, for all other threads. -/
structure Keeps (s : Threads T) (a : T) (p : Point) (lock : Lock) : Prop where
  sole : Holds p → ∀ u, u ≠ a → ¬ Holds (s.point u)
  flag : Holds p → lock.writer = true
  others : ∀ u, u ≠ a → Holds (s.point u) → lock.writer = true
  readers : s.lock.readers.toNat + (if Counts p then 1 else 0) ≤
    lock.readers.toNat + (if Counts (s.point a) then 1 else 0)
  writes : Writes p → ¬ Counts p ∧ ∀ u, u ≠ a → ¬ Counts (s.point u)
  counts : Counts p → ∀ u, u ≠ a → ¬ Writes (s.point u)

/-- A step that leaves the lock alone, to a point where the thread has no more of it. -/
theorem Inv.quiet {a : T} {p : Point} (h : Inv s) (hholds : Holds p → Holds (s.point a))
    (hcounts : Counts p ↔ Counts (s.point a)) (hwrites : Writes p → Writes (s.point a)) : Keeps s a p s.lock where
  sole hp u hua hu := hua (h.one u a hu (hholds hp))
  flag hp := h.flag a (hholds hp)
  others u _ hu := h.flag u hu
  readers := by simp only [hcounts, le_refl]
  writes hp := ⟨fun hc => h.alone a a (hwrites hp) (hcounts.mp hc), fun u _ => h.alone a u (hwrites hp)⟩
  counts hp u _ hu := h.alone u a hu (hcounts.mp hp)

/-- The owner of the flag clears it. -/
theorem Inv.clears {a : T} {p : Point} (h : Inv s) (hholds : Holds (s.point a)) (hp : ¬ Holds p)
    (hcounts : Counts p ↔ Counts (s.point a)) : Keeps s a p { s.lock with writer := false } where
  sole hp' := absurd hp' hp
  flag hp' := absurd hp' hp
  others u hua hu := absurd (h.one u a hu hholds) hua
  readers := by simp only [hcounts, le_refl]
  writes hp' := absurd (holds_of_writes hp') hp
  counts hp u _ hu := h.alone u a hu (hcounts.mp hp)

/-- A thread takes the flag when nobody has it. -/
theorem Inv.takes {a : T} {p : Point} (h : Inv s) (hfree : s.lock.writer = false) (hp : ¬ Counts p)
    (hcounts : ¬ Counts (s.point a)) (hwrites : Writes p → ∀ u, ¬ Counts (s.point u)) :
    Keeps s a p { s.lock with writer := true } where
  sole _ u _ := h.free hfree u
  flag _ := rfl
  others _ _ _ := rfl
  readers := by simp only [hp, hcounts, le_refl]
  writes hw := ⟨hp, fun u _ => hwrites hw u⟩
  counts hc := absurd hc hp

theorem Inv.adds {a : T} (h : Inv s) (ha : s.point a = .acquire_reader_add) (hroom : s.lock.readers + 1 ≠ 0) :
    Keeps s a .acquire_reader_store { s.lock with readers := s.lock.readers + 1 } where
  sole _ u hua hu := hua (h.one u a hu (.inl ha))
  flag _ := h.flag a (.inl ha)
  others u _ hu := h.flag u hu
  readers := by
    rw [if_pos (by decide), ha, if_neg (by decide)]
    bv_omega
  writes hw := absurd hw (by decide)
  counts _ u hua hu := hua (h.one u a (holds_of_writes hu) (.inl ha))

theorem Inv.leaves {a : T} (h : Inv s) (ha : s.point a = .reading) :
    Keeps s a .idle { s.lock with readers := s.lock.readers - 1 } where
  sole hp := absurd hp (by simp [Holds, Writes])
  flag hp := absurd hp (by simp [Holds, Writes])
  others u _ hu := h.flag u hu
  readers := by
    rw [if_neg (by decide), ha, if_pos (by decide)]
    bv_omega
  writes hw := absurd hw (by decide)
  counts hc := absurd hc (by decide)

theorem exchange_done {object expected desired spurious : Bool} (h : object = expected ∧ spurious = false) :
    atomic_compare_exchange_weak object expected desired spurious = (true, desired, expected) := by
  simp [atomic_compare_exchange_weak, h.1, h.2]

theorem exchange_failed {object expected desired spurious : Bool} (h : ¬ (object = expected ∧ spurious = false)) :
    atomic_compare_exchange_weak object expected desired spurious = (false, object, object) :=
  if_neg (by simpa using h)

theorem Inv.exchange_reader {e : Event T} {expected : Bool} (h : Inv s) (he : Careful s e)
    (hp : s.point e.thread = .acquire_reader expected) :
    Keeps s e.thread (threadStep e.call e.spurious s.lock (.acquire_reader expected)).1
      (threadStep e.call e.spurious s.lock (.acquire_reader expected)).2 := by
  by_cases hok : s.lock.writer = expected ∧ e.spurious = false
  · have hfree := he.clear_reader expected hp hok.1 hok.2
    simp only [threadStep, exchange_done hok]
    exact h.takes hfree (by decide) (by simp [hp, Counts, Reads]) fun hw => absurd hw (by decide)
  · simp only [threadStep, exchange_failed hok]
    exact h.quiet (by simp [Holds, Writes]) (by simp [hp, Counts, Reads]) (by simp [Writes])

theorem Inv.exchange_writer {e : Event T} {expected : Bool} (h : Inv s) (he : Careful s e)
    (hp : s.point e.thread = .acquire_writer expected) :
    Keeps s e.thread (threadStep e.call e.spurious s.lock (.acquire_writer expected)).1
      (threadStep e.call e.spurious s.lock (.acquire_writer expected)).2 := by
  by_cases hok : s.lock.writer = expected ∧ e.spurious = false
  · obtain ⟨hfree, hreaders⟩ := he.clear_writer expected hp hok.1 hok.2
    simp only [threadStep, exchange_done hok]
    exact h.takes hfree (by decide) (by simp [hp, Counts, Reads]) fun _ => h.uncounted hreaders
  · simp only [threadStep, exchange_failed hok]
    exact h.quiet (by simp [Holds, Writes]) (by simp [hp, Counts, Reads]) (by simp [Writes])

/-- One case for each point of the code. -/
theorem keeps_next {e : Event T} (h : Inv s) (he : Careful s e) :
    Keeps s e.thread (threadStep e.call e.spurious s.lock (s.point e.thread)).1
      (threadStep e.call e.spurious s.lock (s.point e.thread)).2 := by
  cases hp : s.point e.thread with
  | acquire_reader expected => exact h.exchange_reader he hp
  | acquire_writer expected => exact h.exchange_writer he hp
  | acquire_reader_add => exact h.adds hp (he.room hp)
  | acquire_reader_store =>
    simp only [threadStep]
    exact h.clears (by simp [hp, Holds]) (by simp [Holds, Writes]) (by simp [hp, Counts, Reads])
  | reading => exact h.leaves hp
  | release_writer_store =>
    simp only [threadStep]
    exact h.clears (by simp [hp, Holds, Writes]) (by simp [Holds, Writes]) (by simp [hp, Counts, Reads])
  | idle =>
    simp only [threadStep]
    cases e.call <;> refine h.quiet ?_ ?_ ?_ <;> simp [hp, Holds, Writes, Counts, Reads]
  | acquire_writer_load | writing | release_writer_load =>
    simp only [threadStep]
    split <;> refine h.quiet ?_ ?_ ?_ <;> simp [hp, Holds, Writes, Counts, Reads]
  | panicked =>
    simp only [threadStep]
    refine h.quiet ?_ ?_ ?_ <;> simp [hp]

variable [DecidableEq T]

theorem counted_update {a : T} {p : Point} {lock : Lock} (h : Inv s) (hk : Keeps s a p lock) :
    ∃ C : Finset T, (∀ t, t ∈ C ↔ Counts (Function.update s.point a p t)) ∧ C.card ≤ lock.readers.toNat := by
  obtain ⟨C, hmem, hcard⟩ := h.counted
  have hreaders := hk.readers
  simp only [← hmem a] at hreaders
  have herase : (C.erase a).card + (if a ∈ C then 1 else 0) = C.card := by
    by_cases ha : a ∈ C
    · rw [if_pos ha, Finset.card_erase_add_one ha]
    · rw [if_neg ha, Finset.erase_eq_of_notMem ha, Nat.add_zero]
  refine ⟨if Counts p then insert a (C.erase a) else C.erase a, fun t => ?_, ?_⟩
  · by_cases ht : t = a
    · subst ht
      rw [Function.update_self]
      split <;> simp_all
    · rw [Function.update_of_ne ht, ← hmem t]
      split <;> simp [ht]
  · split
    · rename_i hp
      rw [if_pos hp] at hreaders
      rw [Finset.card_insert_of_notMem (Finset.notMem_erase a C)]
      omega
    · rename_i hp
      rw [if_neg hp] at hreaders
      omega

theorem inv_update {a : T} {p : Point} {lock : Lock} (h : Inv s) (hk : Keeps s a p lock) :
    Inv ⟨Function.update s.point a p, lock⟩ where
  one t u ht hu := by
    by_cases hta : t = a <;> by_cases hua : u = a <;> simp only [Function.update_apply, hta, hua, if_true, if_false] at ht hu ⊢
    · exact absurd hu (hk.sole ht u hua)
    · exact absurd ht (hk.sole hu t hta)
    · exact h.one t u ht hu
  flag t ht := by
    by_cases hta : t = a <;> simp only [Function.update_apply, hta, if_true, if_false] at ht
    · exact hk.flag ht
    · exact hk.others t hta ht
  counted := counted_update h hk
  alone t u ht hu := by
    by_cases hta : t = a <;> by_cases hua : u = a <;> simp only [Function.update_apply, hta, hua, if_true, if_false] at ht hu
    · exact (hk.writes ht).1 hu
    · exact (hk.writes ht).2 u hua hu
    · exact hk.counts hu t hta ht
    · exact h.alone t u ht hu

theorem run_inv (h : Inv s) (hrun : Relation.ReflTransGen (Threads.Step Careful) s s') : Inv s' := by
  induction hrun with
  | refl => exact h
  | tail _ hstep ih =>
    obtain ⟨e, he, rfl⟩ := hstep
    exact inv_update ih (keeps_next ih he)

/-- Whatever is in the lock at first, so for `Lock_Clear` and for `lock_clear`: writers exclude each other
and all readers in every state that careful steps reach. -/
theorem lock_excludes {lock : Lock} (hrun : Relation.ReflTransGen (Threads.Step Careful) (startThreads T lock) s) :
    Excluded s :=
  excluded_of_inv (run_inv (inv_start lock) hrun)

/-- A writer among other threads. -/
theorem writer_excludes : ∃ s, Relation.ReflTransGen (Threads.Step Careful) (startThreads (Fin 2) Lock_Clear) s ∧
    s.point 0 = .writing ∧ Excluded s := by
  let call : Event (Fin 2) := ⟨0, .lock_acquire_writer, false⟩
  have hcall : Careful (startThreads (Fin 2) Lock_Clear) call := ⟨by decide, by decide, by decide⟩
  have hexchange : Careful ((startThreads (Fin 2) Lock_Clear).next call) call := ⟨by decide, by decide, by decide⟩
  have hrun : Relation.ReflTransGen (Threads.Step Careful) (startThreads (Fin 2) Lock_Clear)
      (((startThreads (Fin 2) Lock_Clear).next call).next call) := .tail (.single ⟨call, hcall, rfl⟩) ⟨call, hexchange, rfl⟩
  exact ⟨_, hrun, rfl, lock_excludes hrun⟩

/-! ## Runs of the code -/

/-- Threads that take any steps. -/
theorem reaches_run (events : List (Event T)) :
    Relation.ReflTransGen (Threads.Step fun _ _ => True) s (events.foldl Threads.next s) := by
  induction events generalizing s with
  | nil => exact .refl
  | cons e events ih => exact .head ⟨e, trivial, rfl⟩ ih

/-- Thread 0 reads. Thread 1 gets the lock though there is a reader. Thread 2 fails once, and then expects
the flag that thread 1 has set. -/
def sharedRun : List (Event (Fin 3)) :=
  List.replicate 4 ⟨0, .lock_acquire_reader, false⟩ ++ List.replicate 2 ⟨1, .lock_acquire_writer, false⟩ ++
    List.replicate 4 ⟨2, .lock_acquire_writer, false⟩

theorem lock_shared : ∃ s, Relation.ReflTransGen (Threads.Step fun _ _ => True) (startThreads (Fin 3) Lock_Clear) s ∧
    s.point 0 = .reading ∧ s.point 1 = .writing ∧ s.point 2 = .writing ∧ ¬ Excluded s := by
  refine ⟨_, reaches_run sharedRun, by decide, by decide, by decide, fun h => ?_⟩
  exact h.no_reader 1 0 (by decide) (by decide)

end Step

end KernelOfTruth.Locks
