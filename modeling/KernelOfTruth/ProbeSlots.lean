import KernelOfTruth.Hashtable

/-!
# A search of the hash table ends

Only an empty slot ends a search for a key that is not in the table, and a put never takes a tombstone. The
table grows by the number of its entries, so that nothing keeps tombstones from taking all of its slots.
-/

open KernelOfTruth.Lib KernelOfTruth.Code KernelOfTruth.Spec KernelOfTruth.Hashtables

namespace KernelOfTruth.ProbeSlots

variable {σ : Type} {hash : Word → Word} {comp : Word → Word → Partial} {ht : Hashtable}
  {es : Multiset (Word × Word)} {kmalloc : Word → Kernel σ Word} {kfree : Word → Kernel σ Unit}

theorem EmptySlot.not_taken {p : Nat} (h : EmptySlot ht p) : ¬ Taken ht p := fun htaken => htaken.not_empty h.2

theorem not_seekRound_of_empty {key : Word} {p : Nat} (h : EmptySlot ht p) (hne : p ≠ tableHome ht key) :
    ¬ SeekRound ht key := fun hround => EmptySlot.not_taken h ((hround p h.1).2 hne)

theorem not_seekEmptyRound {p : Nat} (h : EmptySlot ht p) : ¬ SeekEmptyRound ht :=
  fun hround => EmptySlot.not_taken h (hround p h.1)

theorem wp_kmalloc (hmalloc : NeverFails kmalloc) (hquiet : QuietHeap kmalloc kfree) (bytes : Word) (s : σ) :
    wp (kmalloc bytes) (fun p _ => p ≠ 0) (fun e => ¬ NotReached e) s :=
  wp_intro (hmalloc bytes s) (hquiet.1 bytes s)

theorem wp_kfree (hquiet : QuietHeap kmalloc kfree) (p : Word) (s : σ) :
    wp (kfree p) (fun _ _ => True) (fun e => ¬ NotReached e) s :=
  wp_intro (fun _ _ _ => trivial) (hquiet.2 p s)

theorem not_notReached_page_fault : ¬ NotReached .page_fault := by simp [NotReached]

theorem not_notReached_rebalance : ¬ NotReached (.panic "hashtable_rebalance") := by simp [NotReached]

theorem oneBuffer_neverFails : NeverFails oneBuffer := by
  intro _ _ _ _ h
  cases h
  decide

/-- The keys below `n` are put in and removed, one after the other. -/
def churn : Nat → Option Hashtable
  | 0 => some wordTable
  | n + 1 => do
    let ht ← churn n
    let ((_, ht'), _) ← ((hashtable_put oneBuffer keepBuffer ht (BitVec.ofNat 64 n) 1).run ()).toOption
    let ((_, ht''), _) ← ((hashtable_remove oneBuffer keepBuffer ht' (BitVec.ofNat 64 n)).run ()).toOption
    pure ht''

theorem ok_of_toOption {ε α : Type} {r : Except ε α} {a : α} (h : r.toOption = some a) : r = .ok a := by
  cases r with
  | error _ => cases h
  | ok _ => exact congrArg Except.ok (Option.some.inj h)

theorem churn_run {n : Nat} (h : churn n = some ht) :
    ∃ M : Map wordFit, MapRun wordFit oneBuffer keepBuffer 32 ht M ∧ ∀ c, c ∉ M := by
  induction n generalizing ht with
  | zero =>
    obtain rfl : wordTable = ht := Option.some.inj h
    exact ⟨∅, .init (s := ()) rfl, fun _ => Finmap.notMem_empty⟩
  | succ n ih =>
    obtain ⟨ht₀, h₀, h⟩ := Option.bind_eq_some_iff.mp h
    obtain ⟨⟨⟨status, ht₁⟩, _⟩, hput, h⟩ := Option.bind_eq_some_iff.mp h
    obtain ⟨⟨⟨status', ht₂⟩, _⟩, hremove, h⟩ := Option.bind_eq_some_iff.mp h
    obtain rfl : ht₂ = ht := Option.some.inj h
    obtain ⟨M, hrun, hempty⟩ := ih h₀
    have hput' := hrun.put (hempty _) (by decide : (1 : Word) ≠ 0) (ok_of_toOption hput)
    have hremove' := hput'.remove (Finmap.mem_insert.mpr (.inl rfl)) (ok_of_toOption hremove)
    refine ⟨_, hremove', fun c hc => ?_⟩
    obtain ⟨hne, hc⟩ := Finmap.mem_erase.mp hc
    rcases Finmap.mem_insert.mp hc with rfl | hc
    · exact hne rfl
    · exact hempty c hc

def tombstones : Hashtable := (churn 32).getD wordTable

end KernelOfTruth.ProbeSlots
