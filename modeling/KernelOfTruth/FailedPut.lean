import KernelOfTruth.LookupOrder

/-!
# A put that fails

`hashtable_put` stores the entry before it asks for a larger buffer, and nothing takes the entry back when there
is none.
-/

open KernelOfTruth.Lib KernelOfTruth.Code KernelOfTruth.Spec KernelOfTruth.Rules KernelOfTruth.Hashtables
  KernelOfTruth.LookupOrder

namespace KernelOfTruth.FailedPut

variable {σ : Type} {hash : Word → Word} {comp : Word → Word → Partial} {ht : Hashtable} {E : Halt → Prop} {st : σ}
  {kmalloc : Word → Kernel σ Word} {kfree : Word → Kernel σ Unit} {key : Word}

/-! ## The tables of a run -/

/-- A table without slots, which no call can use, or one with its entries. -/
def RunTable (hash : Word → Word) (comp : Word → Word → Partial) (ht : Hashtable) : Prop :=
  (ht.size = 0 ∧ ∀ p, ht.data.entry p = none) ∨ ∃ es, IsHashtable hash comp ht es

theorem wp_load_none {s : Word} {Q : Hashdata → σ → Prop} (h : ∀ p, ht.data.entry p = none) :
    wp (ht.load s) Q E st ↔ E .page_fault := by
  unfold Hashtable.load
  rw [h]
  exact wp_throw ..

theorem wp_putSlot_none {Q : Hashtable → σ → Prop} (hfault : E .page_fault) (h : ∀ p, ht.data.entry p = none)
    (key value : Word) : wp (putSlot ht key value) Q E st := by
  unfold putSlot hashtable_seek_empty
  simp only [wp_bind, wp_load_none h]
  exact hfault

theorem init_runTable {size : Word} {s s' : σ}
    (hrun : (hashtable_init kmalloc kfree size hash comp).run s = .ok (some ht, s')) : RunTable hash comp ht := by
  by_cases hsize : size = 0
  · subst hsize
    obtain ⟨data, rfl⟩ := init_eq hrun
    exact .inl ⟨rfl, fun _ => rfl⟩
  · have hpos : 0 < size.toNat := Nat.pos_of_ne_zero fun h => hsize (BitVec.eq_of_toNat_eq h)
    exact .inr ⟨0, (init_table hpos hrun).2.1⟩

theorem wp_hashtable_put_any (h : RunTable hash comp ht) (key value : Word) :
    wp (hashtable_put kmalloc kfree ht key value) (fun r _ => RunTable hash comp r.2) (fun _ => True) st := by
  rcases h with ⟨-, hnone⟩ | ⟨es, htable⟩
  · unfold hashtable_put putNested
    rw [wp_bind]
    exact wp_putSlot_none trivial hnone key value
  · refine wp_hashtable_put_exact trivial htable key value (fun _ => trivial) trivial ?_ ?_
    · exact fun p hslot => .inr ⟨_, hslot.table htable value⟩
    · intro p hslot _ _
      have htable' := hslot.table htable value
      refine wp_any (fun data s₁ => ?_) fun _ => trivial
      split
      · exact .inr ⟨_, htable'⟩
      · exact wp_any (fun _ _ new hnew => .inr ⟨_, hnew.table htable'⟩) fun _ => trivial

theorem wp_hashtable_remove_any (h : RunTable hash comp ht) (key : Word) :
    wp (hashtable_remove kmalloc kfree ht key) (fun r _ => RunTable hash comp r.2) (fun _ => True) st := by
  apply wp_hashtable_remove_of_seek
  rcases h with ⟨-, hnone⟩ | ⟨es, htable⟩
  · unfold hashtable_seek
    simp only [wp_bind, wp_load_none hnone]
  · refine wp_imp (wp_hashtable_seek_result htable.size_pos (fun _ => trivial) fun _ => trivial) ?_
    rintro (_ | p) _ ⟨rfl, hr, -⟩
    · trivial
    · obtain ⟨hp, k, v, hfull, -⟩ := Hits.found hr
      obtain ⟨es', -, htable'⟩ := removedAt_table htable hp hfull
      refine ⟨k, v, hfull, ?_⟩
      split
      · trivial
      · exact .inr ⟨es', htable'⟩

theorem tableRun_table (h : TableRun kmalloc kfree hash comp ht) : RunTable hash comp ht := by
  induction h with
  | init hrun => exact init_runTable hrun
  | put _ hrun ih =>
    have htable := wp_ok (wp_hashtable_put_any ih _ _) hrun
    exact htable
  | remove _ hrun ih =>
    have htable := wp_ok (wp_hashtable_remove_any ih _) hrun
    exact htable

/-! ## The slot of a new entry -/

theorem hashtable_load_eq {s : Word} {d : Hashdata} (h : ht.data.entry s.toNat = some d) :
    (ht.load s : Kernel σ Hashdata) = pure d := by
  unfold Hashtable.load
  rw [h]

theorem entry_of_cell_empty {p : Nat} (h : tableCell ht p = .empty) :
    ∃ d, ht.data.entry p = some d ∧ d.state = .Hashdata_Empty := by
  unfold tableCell at h
  cases hd : ht.data.entry p with
  | none => simp [hd] at h
  | some d =>
    simp only [hd, Option.elim_some] at h
    exact ⟨d, rfl, (hashCell_empty_iff d).mp h⟩

-- by induction on the fuel, with the empty slot at number `i` still ahead
theorem wp_seekEmptyLoop_finds {h s : Word} {fuel j i : Nat} (hh : h.toNat < ht.size.toNat) (hi : i < ht.size.toNat)
    (hempty : tableCell ht (probe ht.size.toNat h.toNat i) = .empty)
    (hbefore : ∀ j < i, Taken ht (probe ht.size.toNat h.toNat j)) (hj : 0 < j) (hji : j ≤ i) (hfuel : i < fuel + j)
    (hs : s.toNat = probe ht.size.toNat h.toNat j) :
    wp (seekEmptyLoop ht h fuel s) (fun r st' => st' = st ∧ r.2.used = ht.used ∧ r.2.size = ht.size) E st := by
  induction fuel generalizing j s with
  | zero => omega
  | succ fuel ih =>
    have hlt : s.toNat < ht.size.toNat := hs ▸ probe_lt (by omega) j
    have hne : s ≠ h := by
      rintro rfl
      exact probe_ne hh hj (by omega) hs.symm
    unfold seekEmptyLoop
    rw [if_neg hne, wp_bind]
    rcases Nat.lt_or_eq_of_le hji with hlt' | rfl
    · obtain ⟨d, hd, hfull⟩ := hbefore j hlt'
      rw [hashtable_load_eq (hs ▸ hd), wp_pure, if_neg hfull]
      refine ih (by omega) hlt' (by omega) ?_
      rw [toNat_next hlt, hs, probe_succ]
    · obtain ⟨d, hd, hstate⟩ := entry_of_cell_empty hempty
      rw [hashtable_load_eq (hs ▸ hd), wp_pure, if_pos hstate, wp_pure]
      exact ⟨rfl, rfl, rfl⟩

theorem wp_hashtable_seek_empty_finds (h : EmptyAhead ht key) :
    wp (hashtable_seek_empty ht key) (fun r st' => st' = st ∧ r.2.used = ht.used ∧ r.2.size = ht.size) E st := by
  obtain ⟨i, hi, hempty, hbefore⟩ := h
  have hsize : 0 < ht.size.toNat := Nat.zero_lt_of_lt hi
  have hh := tableHome_lt hsize key
  have hzero := probe_zero hh
  unfold hashtable_seek_empty
  rw [wp_bind]
  rcases Nat.eq_zero_or_pos i with rfl | hpos
  · rw [hzero] at hempty
    obtain ⟨d, hd, hstate⟩ := entry_of_cell_empty hempty
    rw [hashtable_load_eq hd, wp_pure, if_pos hstate, wp_pure]
    exact ⟨rfl, rfl, rfl⟩
  · obtain ⟨d, hd, hfull⟩ := hbefore 0 hpos
    rw [hzero] at hd
    rw [hashtable_load_eq hd, wp_pure, if_neg hfull]
    exact wp_seekEmptyLoop_finds hh hi hempty hbefore one_pos hpos (by omega) (toNat_second hsize key)

theorem wp_putSlot_finds (h : EmptyAhead ht key) (value : Word) :
    wp (putSlot ht key value) (fun ht' st' => st' = st ∧ ht'.used = ht.used + 1 ∧ ht'.size = ht.size) E st := by
  unfold putSlot
  rw [wp_bind]
  refine wp_imp (wp_hashtable_seek_empty_finds h) ?_
  rintro ⟨p, ht'⟩ _ ⟨rfl, hused, hsize⟩
  exact (wp_pure ..).mpr ⟨rfl, congrArg (· + 1) hused, hsize⟩

/-! ## The result of a put -/

/-- The entry has its slot, and the table must grow for it, which fails. -/
def PutFails (kmalloc : Word → Kernel σ Word) (ht : Hashtable) (key : Word) (st : σ) : Prop :=
  EmptyAhead ht key ∧ should_grow ht.size (ht.used + 1) = true ∧ GrowthFails kmalloc ht st

/-- The put returns an error and the entry is counted. -/
theorem wp_hashtable_put_counted (kfree : Word → Kernel σ Unit) (h : PutFails kmalloc ht key st) (value : Word) :
    wp (hashtable_put kmalloc kfree ht key value) (fun r _ => r.1 = .Error_No_Memory ∧ r.2.used = ht.used + 1) E st := by
  obtain ⟨hfinds, hgrows, hlt, st', hmalloc⟩ := h
  unfold hashtable_put putNested
  rw [wp_bind]
  refine wp_imp (wp_putSlot_finds hfinds value) ?_
  rintro ht' _ ⟨rfl, hused, hsize⟩
  rw [hused, hsize, if_pos hgrows]
  unfold hashtable_rebalance
  rw [hsize, wp_bind, wp_assert_decide hlt, wp_bind, wp_of_run hmalloc, if_pos rfl, wp_pure]
  exact ⟨rfl, hused⟩

theorem wp_hashtable_put_fails {es : Multiset (Word × Word)} (h : IsHashtable hash comp ht es) (key value : Word) :
    wp (hashtable_put kmalloc kfree ht key value) (fun r _ => r.1 ≠ .Ok → PutFails kmalloc ht key st) (fun _ => True) st := by
  unfold hashtable_put putNested
  rw [wp_bind]
  refine wp_imp (wp_putSlot (fun _ => trivial) (fun _ => trivial) h.size_pos key value) ?_
  rintro _ _ ⟨rfl, p, hslot, rfl⟩
  rw [wp_ite]
  split
  · rename_i hgrows
    refine wp_hashtable_rebalance trivial (hslot.table h value) 63 double_of_lt trivial fun hlt => ?_
    refine wp_partial.mpr fun data st₁ hmalloc => ?_
    split
    · rename_i hzero
      subst hzero
      exact fun _ => ⟨hslot.emptyAhead, hgrows, hlt, st₁, hmalloc⟩
    · exact wp_any (fun _ _ _ _ hr => absurd rfl hr) fun _ => trivial
  · exact (wp_pure ..).mpr fun hr => absurd rfl hr

theorem failed_put_undone_iff (hrun : TableRun kmalloc kfree hash comp ht) (key value : Word) (st : σ) :
    FailedPutUndone kmalloc kfree ht key value st ↔
      ¬ (EmptyAhead ht key ∧ should_grow ht.size (ht.used + 1) = true ∧ GrowthFails kmalloc ht st) := by
  constructor
  · intro hundone hfails
    obtain ⟨⟨status, ht'⟩, st', hput, hstatus, hused⟩ := wp_total (wp_hashtable_put_counted kfree hfails value)
    obtain rfl : status = .Error_No_Memory := hstatus
    have hkept := (hundone _ ht' st' hput (by decide)).2.1
    rw [show ht'.used = ht.used + 1 from hused] at hkept
    exact absurd hkept (by simp)
  · intro hnot status ht' st' hput hstatus
    rcases tableRun_table hrun with ⟨-, hnone⟩ | ⟨es, htable⟩
    · have hstop : wp (hashtable_put kmalloc kfree ht key value) (fun _ _ => False) (fun _ => True) st := by
        unfold hashtable_put putNested
        rw [wp_bind]
        exact wp_putSlot_none trivial hnone key value
      exact (wp_ok hstop hput).elim
    · exact absurd (wp_ok (wp_hashtable_put_fails htable key value) hput hstatus) hnot

/-! ## A table of four slots -/

/-- The table of `n` keys, each with the value 7, in four slots. -/
def fourSlots : Nat → Hashtable
  | 0 => ⟨0, 4, id, wordComp, .zeroed 0x1000 (4 * hashdataSize)⟩
  | n + 1 => putAt (fourSlots n) (BitVec.ofNat 64 n) (BitVec.ofNat 64 n) 7

/-- A heap without a buffer for eight slots. -/
def lowHeap (bytes : Word) : Kernel Unit Word := pure (if bytes < 192 then 0x1000 else 0)

theorem fourSlots_put : ∀ n : Fin 3, (hashtable_put lowHeap keepBuffer (fourSlots n) (BitVec.ofNat 64 n) 7).run () =
    .ok ((.Ok, fourSlots (n + 1)), ())
  | 0 => rfl
  | 1 => rfl
  | 2 => rfl

theorem fourSlots_run {n : Nat} (hn : n ≤ 3) : TableRun lowHeap keepBuffer id wordComp (fourSlots n) := by
  induction n with
  | zero =>
    have hinit : (hashtable_init lowHeap keepBuffer 4 id wordComp).run () = .ok (some (fourSlots 0), ()) := rfl
    exact .init hinit
  | succ n ih => exact (ih (Nat.le_of_succ_le hn)).put (fourSlots_put ⟨n, hn⟩)

/-- The fourth put returns an error, and the next lookup finds its value. -/
theorem fourSlots_failed_put : ∃ ht', TableRun lowHeap keepBuffer id wordComp (fourSlots 3) ∧
    (hashtable_put lowHeap keepBuffer (fourSlots 3) 4 9).run () = .ok ((.Error_No_Memory, ht'), ()) ∧
    (hashtable_get (fourSlots 3) 4).run () = .ok (0, ()) ∧ (hashtable_get ht' 4).run () = .ok (9, ()) ∧
    (fourSlots 3).used = 3 ∧ ht'.used = 4 :=
  ⟨_, fourSlots_run le_rfl, rfl, rfl, rfl, rfl, rfl⟩

theorem fourSlots_put_undone : TableRun lowHeap keepBuffer id wordComp (fourSlots 2) ∧
    FailedPutUndone lowHeap keepBuffer (fourSlots 2) 4 9 () := by
  have hrun := fourSlots_run (show 2 ≤ 3 by decide)
  refine ⟨hrun, (failed_put_undone_iff hrun 4 9 ()).mpr ?_⟩
  rintro ⟨-, hgrows, -⟩
  exact absurd hgrows (by decide)

end KernelOfTruth.FailedPut
