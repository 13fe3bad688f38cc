import KernelOfTruth.FailedPut

/-!
# A key is removed

`hashtable_remove` does not ask whether the key was found. A small table that becomes nearly empty is rebuilt in half of
its slots, which `hashtable_rebalance` does not allow.
-/

open KernelOfTruth.Lib KernelOfTruth.Code KernelOfTruth.Spec KernelOfTruth.Hashtables KernelOfTruth.ProbeSlots
  KernelOfTruth.FailedPut

namespace KernelOfTruth.Removal

variable {σ : Type} {hash : Word → Word} {comp : Word → Word → Partial} {ht : Hashtable} {es : Multiset (Word × Word)}
  {E : Halt → Prop} {st : σ} {kmalloc : Word → Kernel σ Word} {kfree : Word → Kernel σ Unit} {key : Word}

/-! ## Entries that a search finds in the buffer

The buffer of a table with very many slots has fewer of them, because its number of bytes wraps around. -/

/-- A slot of the buffer. A search does not come behind a slot that is not in it. -/
def bufferCell (ht : Hashtable) (p : Nat) : Cell Word Word := (ht.data.entry p).elim .empty hashCell

/-- The way from its home slot to an entry is in the buffer. -/
def InBuffer (ht : Hashtable) : Prop := Placed ht.size.toNat (tableHome ht) (bufferCell ht)

theorem Taken.in_buffer {p : Nat} (h : Taken ht p) : bufferCell ht p ≠ .empty := by
  obtain ⟨d, hd, hne⟩ := h
  unfold bufferCell
  rw [hd, Option.elim_some, ne_eq, hashCell_empty_iff]
  exact hne

theorem bufferCell_store (ht : Hashtable) (s : Word) (d : Hashdata) :
    bufferCell (ht.store s d) = Function.update (bufferCell ht) s.toNat (hashCell d) := by
  funext p
  unfold bufferCell Hashtable.store
  by_cases hp : p = s.toNat
  · subst hp
    simp
  · simp [hp]

theorem InBuffer.putAt {p : Word} (h : InBuffer ht) (hslot : NewSlot ht key p) (value : Word) :
    InBuffer (putAt ht p key value) := by
  have hplaced : Placed ht.size.toNat (tableHome ht) (bufferCell (ht.store p ⟨.Hashdata_Full, key, value⟩)) := by
    rw [bufferCell_store]
    refine h.update (by simp [hashCell]) ?_
    rintro k v hfull
    cases hfull
    obtain ⟨i, hi, hp, hbefore⟩ := hslot.path
    exact ⟨i, hi, hp, fun j hj => Taken.in_buffer (hbefore j hj)⟩
  exact hplaced

theorem InBuffer.removedAt (h : InBuffer ht) (p k v : Word) : InBuffer (removedAt ht p k v) := by
  have hplaced : Placed ht.size.toNat (tableHome ht) (bufferCell (ht.store p ⟨.Hashdata_Tombstone, k, v⟩)) := by
    rw [bufferCell_store]
    refine h.update (by simp [hashCell]) ?_
    rintro _ _ hfull
    cases hfull
  exact hplaced

theorem zeroed_inBuffer {data bytes : Word} (hdata : ht.data = .zeroed data bytes) : InBuffer ht := by
  refine placed_of_not_full fun p _ k v => ?_
  unfold bufferCell
  rw [hdata]
  simp only [HashBuffer.zeroed]
  split <;> simp [hashCell]

theorem Copied.inBuffer {start new : Hashtable} {i : Nat} (h : Copied ht start i new) (hstart : InBuffer start) :
    InBuffer new := by
  induction h with
  | start => exact hstart
  | skip _ _ _ ih => exact ih
  | put _ _ hslot ih => exact ih.putAt hslot _

theorem Rebuilt.inBuffer {new_size data : Word} {new : Hashtable} (h : Rebuilt ht new_size data new) : InBuffer new :=
  Copied.inBuffer h.2 (zeroed_inBuffer rfl)

/-- The search for a key that is there ends at its entry, or before. -/
theorem InBuffer.stays (h : InBuffer ht) (fit : Consistent hash comp) (htable : IsHashtable hash comp ht es)
    (hpresent : ∃ e ∈ es, comp key e.1 = .Partial_Equal) : ¬ SeekLeaves ht key := by
  rintro ⟨m, hm, hnone, hbefore⟩
  obtain ⟨e, he, heq⟩ := hpresent
  rw [← htable.entries_eq] at he
  obtain ⟨p, hp, hfull⟩ := mem_entries.mp he
  have hentry := entry_of_cell_full hfull
  have hcell : bufferCell ht p = .full e.1 e.2 := by
    unfold bufferCell
    rw [hentry]
    rfl
  obtain ⟨j, -, hj, hway⟩ := h p hp _ _ hcell
  rw [← LookupOrder.tableHome_eq fit htable heq] at hj hway
  rcases Nat.lt_trichotomy m j with hlt | rfl | hgt
  · refine hway m hlt ?_
    unfold bufferCell
    rw [hnone]
    rfl
  · rw [hj, hentry] at hnone
    cases hnone
  · rw [← hj] at hfull
    exact (hbefore j hgt).1 ⟨_, _, hfull, htable.comp_eq ▸ heq⟩

/-! ## Runs -/

variable {fit : Consistent hash comp} {M : Map fit} {size : Word}

/-- The table has the entries of the map, and a search finds them. -/
structure Holds (fit : Consistent hash comp) (ht : Hashtable) (M : Map fit) : Prop where
  table : ∃ es, IsHashtable hash comp ht es ∧ Represents fit M es
  placed : InBuffer ht

theorem Holds.hasMap (h : Holds fit ht M) : HasMap fit ht M := by
  obtain ⟨es, htable, hmap⟩ := h.table
  unfold HasMap
  rw [htable.entries_eq]
  exact hmap

theorem Holds.get_eq (h : Holds fit ht M) {value : Word} (hvalue : M.lookup (classOf fit key) = some value) (st : σ) :
    (hashtable_get ht key).run st = .ok (value, st) := by
  obtain ⟨es, htable, hmap⟩ := h.table
  have hmem : classOf fit key ∈ M := Finmap.mem_of_lookup_eq_some hvalue
  obtain ⟨⟨k, v⟩, he, heq⟩ := (represents_mem hmap).mp hmem
  have hunique : ∀ e ∈ es, comp key e.1 = .Partial_Equal → e.2 = value := by
    intro e he heq
    exact Option.some.inj ((represents_lookup hmap he heq).symm.trans hvalue)
  obtain rfl : v = value := hunique _ he heq
  exact hashtable_get_of_mem fit htable (h.placed.stays fit htable ⟨_, he, heq⟩) he heq hunique st

theorem Holds.put (h : Holds fit ht M) (habsent : classOf fit key ∉ M) (value : Word) :
    wp (hashtable_put kmalloc kfree ht key value) (fun r _ => Holds fit r.2 (M.insert (classOf fit key) value))
      (fun _ => True) st := by
  obtain ⟨es, htable, hmap⟩ := h.table
  have hmap' := represents_insert hmap habsent value
  refine wp_hashtable_put_exact trivial htable key value (fun _ => trivial) trivial ?_ ?_
  · intro p hslot
    exact ⟨⟨_, hslot.table htable value, hmap'⟩, h.placed.putAt hslot value⟩
  · intro p hslot _ _
    have htable' := hslot.table htable value
    refine wp_any (fun data s₁ => ?_) fun _ => trivial
    split
    · exact ⟨⟨_, htable', hmap'⟩, h.placed.putAt hslot value⟩
    · exact wp_any (fun _ _ new hnew => ⟨⟨_, hnew.table htable', hmap'⟩, Rebuilt.inBuffer hnew⟩) fun _ => trivial

/-- The table is not rebuilt when one of its entries is removed. -/
def Stays (ht : Hashtable) : Prop := 32 ≤ ht.size.toNat ∨ ht.size.toNat / 4 < ht.used.toNat

theorem stays_iff (hused : 0 < ht.used.toNat) : Stays ht ↔ ¬ should_shrink ht.size (ht.used - 1) = true := by
  unfold Stays
  rw [should_shrink_iff, BitVec.toNat_sub_of_le (by rw [BitVec.le_def]; exact hused), show (1 : Word).toNat = 1 from rfl]
  omega

theorem Holds.remove (h : Holds fit ht M) (habsent : classOf fit key ∉ M → E .page_fault ∧ E (.panic "hashtable_seek"))
    (hshrinks : ¬ Stays ht → E (.panic "hashtable_rebalance")) :
    wp (hashtable_remove kmalloc kfree ht key) (fun r _ => classOf fit key ∈ M ∧ Stays ht ∧
      Holds fit r.2 (M.erase (classOf fit key))) E st := by
  obtain ⟨es, htable, hmap⟩ := h.table
  have hmem : classOf fit key ∈ M ↔ ∃ e ∈ es, comp key e.1 = .Partial_Equal := represents_mem hmap
  have hleaves : SeekLeaves ht key → E .page_fault := by
    refine fun hleaves => (habsent fun hpresent => ?_).1
    exact h.placed.stays fit htable (hmem.mp hpresent) hleaves
  have hround : SeekRound ht key → E (.panic "hashtable_seek") := by
    refine fun hround => (habsent fun hpresent => ?_).2
    exact not_seekRound htable (hmem.mp hpresent) hround
  apply wp_hashtable_remove_of_seek
  refine wp_imp (wp_hashtable_seek htable hleaves (fun _ _ heq => fit.hash_eq heq) hround) ?_
  rintro (_ | p) _ ⟨rfl, hr, -⟩
  · refine (habsent fun hpresent => ?_).1
    obtain ⟨e, he, heq⟩ := hmem.mp hpresent
    exact hr e he heq
  · obtain ⟨hp, k, v, hfull, heq⟩ := Hits.found hr
    obtain ⟨es', rfl, htable'⟩ := removedAt_table htable hp hfull
    rw [htable.comp_eq] at heq
    have hused : 0 < ht.used.toNat := by
      rw [htable.used_eq, Multiset.card_cons]
      exact Nat.succ_pos _
    refine ⟨k, v, hfull, ?_⟩
    split
    · rename_i hshrink
      exact hshrinks fun hstays => (stays_iff hused).mp hstays hshrink
    · rename_i hstays
      exact ⟨hmem.mpr ⟨_, Multiset.mem_cons_self _ _, heq⟩, (stays_iff hused).mpr hstays,
        ⟨es', htable', represents_erase hmap heq⟩, h.placed.removedAt p k v⟩

theorem holds_of_init {s s' : σ} (hsize : 0 < size.toNat)
    (hrun : (hashtable_init kmalloc kfree size hash comp).run s = .ok (some ht, s')) : Holds fit ht ∅ := by
  obtain ⟨-, htable, -⟩ := init_table hsize hrun
  obtain ⟨data, rfl⟩ := init_eq hrun
  exact ⟨⟨0, htable, represents_empty⟩, zeroed_inBuffer rfl⟩

theorem run_holds (hsize : 0 < size.toNat) (hrun : DistinctRun fit kmalloc kfree size ht M) : Holds fit ht M := by
  induction hrun with
  | init hrun => exact holds_of_init hsize hrun
  | put _ habsent hrun ih =>
    have hput := wp_ok (ih.put habsent _) hrun
    exact hput
  | remove _ hrun ih =>
    have hremove := wp_ok (ih.remove (E := fun _ => True) (fun _ => ⟨trivial, trivial⟩) fun _ => trivial) hrun
    exact hremove.2.2

/-- A removal does what it is for exactly when the key is there, and the table is not to become smaller. -/
theorem removes_key_iff (hsize : 0 < size.toNat) (hrun : DistinctRun fit kmalloc kfree size ht M) (key : Word) (st : σ) :
    RemovesKey fit kmalloc kfree ht M key st ↔
      classOf fit key ∈ M ∧ (32 ≤ ht.size.toNat ∨ ht.size.toNat / 4 < ht.used.toNat) := by
  have hholds := run_holds hsize hrun
  constructor
  · rintro ⟨status, ht', st', hremove, -⟩
    have hresult := wp_ok (hholds.remove (E := fun _ => True) (fun _ => ⟨trivial, trivial⟩) fun _ => trivial) hremove
    exact ⟨hresult.1, hresult.2.1⟩
  · rintro ⟨hmem, hstays⟩
    have hremove : wp (hashtable_remove kmalloc kfree ht key) _ (fun _ => False) st :=
      hholds.remove (fun habsent => absurd hmem habsent) fun hshrinks => absurd hstays hshrinks
    obtain ⟨⟨status, ht'⟩, st', hrun', -, -, hholds'⟩ := wp_total hremove
    exact ⟨status, ht', st', hrun', fun _ => ⟨hholds'.hasMap, fun key' value hvalue t => hholds'.get_eq hvalue t⟩,
      fun habsent => absurd hmem habsent⟩

/-- A key in a table of four slots, and one that is not there. -/
theorem fourSlots_not_removed : ∃ M : Map wordFit, NeverFails oneBuffer ∧
    DistinctRun wordFit oneBuffer keepBuffer 4 (fourSlots 1) M ∧ classOf wordFit 0 ∈ M ∧
    (hashtable_remove oneBuffer keepBuffer (fourSlots 1) 0).run () = .error (.panic "hashtable_rebalance") ∧
    classOf wordFit 1 ∉ M ∧ (hashtable_remove oneBuffer keepBuffer (fourSlots 1) 1).run () = .error .page_fault := by
  have hinit : DistinctRun wordFit oneBuffer keepBuffer 4 (fourSlots 0) ∅ := .init (s := ()) rfl
  have hput : (hashtable_put oneBuffer keepBuffer (fourSlots 0) 0 7).run () = .ok ((.Ok, fourSlots 1), ()) := rfl
  refine ⟨_, oneBuffer_neverFails, hinit.put Finmap.notMem_empty hput, Finmap.mem_insert.mpr (.inl rfl), rfl, ?_, rfl⟩
  intro hmem
  rcases Finmap.mem_insert.mp hmem with heq | hmem
  · exact absurd (classOf_eq.mp heq) (by decide)
  · exact Finmap.notMem_empty hmem

theorem wordTable_removes_key : ∃ M : Map wordFit,
    DistinctRun wordFit oneBuffer keepBuffer 32 (putAt wordTable 5 5 7) M ∧
    RemovesKey wordFit oneBuffer keepBuffer (putAt wordTable 5 5 7) M 5 () := by
  have hinit : DistinctRun wordFit oneBuffer keepBuffer 32 wordTable ∅ := .init (s := ()) rfl
  have hput : (hashtable_put oneBuffer keepBuffer wordTable 5 7).run () = .ok ((.Ok, putAt wordTable 5 5 7), ()) := rfl
  have hrun := hinit.put Finmap.notMem_empty hput
  exact ⟨_, hrun, (removes_key_iff (by decide) hrun 5 ()).mpr ⟨Finmap.mem_insert.mpr (.inl rfl), .inl (by decide)⟩⟩

end KernelOfTruth.Removal
