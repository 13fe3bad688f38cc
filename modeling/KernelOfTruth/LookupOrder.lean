import KernelOfTruth.ProbeSlots

/-!
# The order of equal keys

A table may have several entries with keys that compare equal. A lookup finds the one that was put in first, and a removal
takes that one out.
-/

open KernelOfTruth.Lib KernelOfTruth.Code KernelOfTruth.Spec KernelOfTruth.Hashtables KernelOfTruth.ProbeSlots

namespace KernelOfTruth.LookupOrder

variable {σ : Type} {hash : Word → Word} {comp : Word → Word → Partial} {ht : Hashtable} {es : Multiset (Word × Word)}
  {E : Halt → Prop} {st : σ} {key key' p k v : Word}

/-- The values of all entries with the key, in the order in which a search finds them. -/
def lookups (ht : Hashtable) (key : Word) : List Word :=
  found ht.size.toNat (tableCell ht) (fun k => ht.comp key k = .Partial_Equal) (tableHome ht key)

def freeSlots (ht : Hashtable) : Nat := freeCells ht.size.toNat (tableCell ht)

/-- The number of entries that the table takes before it grows. -/
def spare (ht : Hashtable) : Nat := ht.size.toNat - ht.size.toNat / 4 - ht.used.toNat

/-- A table with slots for `n` more entries, and in which all searches end after that. -/
structure HasRoom (hash : Word → Word) (comp : Word → Word → Partial) (ht : Hashtable) (n : Nat) : Prop where
  table : ∃ es, IsHashtable hash comp ht es
  covered : Covered ht
  big : 32 ≤ ht.size.toNat
  free : n + 2 ≤ freeSlots ht

theorem HasRoom.mono {n m : Nat} (h : HasRoom hash comp ht n) (hm : m ≤ n) : HasRoom hash comp ht m :=
  ⟨h.table, h.covered, h.big, Nat.le_trans (Nat.add_le_add_right hm 2) h.free⟩

/-- The buffer of a table of twice the size cannot be had. -/
def GrowthFails (kmalloc : Word → Kernel σ Word) (ht : Hashtable) (st : σ) : Prop :=
  ht.size < ht.size * 2 ∧ ∃ st', (kmalloc (ht.size * 2 * hashdataSize)).run st = .ok (0, st')

theorem tableHome_eq (fit : Consistent hash comp) (h : IsHashtable hash comp ht es) (heq : comp key key' = .Partial_Equal) :
    tableHome ht key = tableHome ht key' := by
  unfold tableHome
  rw [h.hash_eq, fit.hash_eq heq]

/-! ## Lookups -/

theorem find_eq_none {p : Nat} :
    (tableCell ht p).find (fun k => ht.comp key k = .Partial_Equal) = none ↔ ¬ Matches ht key p := by
  unfold Matches
  cases hcell : tableCell ht p with
  | empty => simp [Cell.find]
  | deleted => simp [Cell.find]
  | full k v => simp [Cell.find]

theorem find_eq_some {p : Nat} (hfull : tableCell ht p = .full k v) (heq : ht.comp key k = .Partial_Equal) :
    (tableCell ht p).find (fun k => ht.comp key k = .Partial_Equal) = some v := by
  rw [hfull]
  simp [Cell.find, heq]

/-- The first value is in the slot that a search finds. -/
theorem lookups_of_hits (hits : Hits ht key (tableHome ht key) 0 p.toNat) (hfull : tableCell ht p.toNat = .full k v) :
    ∃ rest, lookups ht key = v :: rest := by
  obtain ⟨-, k', v', hfull', heq⟩ := hits.found
  obtain ⟨i, -, hi, hp, -, hnone⟩ := hits
  rw [hfull] at hfull'
  cases hfull'
  rw [← hp] at hfull
  exact ⟨_, found_remove hi (fun j hj => find_eq_none.mpr (hnone j (Nat.zero_le _) hj)) (find_eq_some hfull heq)
    (c := .deleted) rfl⟩

theorem lookups_eq_nil (h : IsHashtable hash comp ht es) (hnone : ∀ e ∈ es, comp key e.1 ≠ .Partial_Equal) :
    lookups ht key = [] := by
  refine List.filterMap_eq_nil_iff.mpr fun i hi => find_eq_none.mpr ?_
  rintro ⟨k, v, hfull, heq⟩
  refine hnone (k, v) ?_ (h.comp_eq ▸ heq)
  rw [← h.entries_eq]
  exact mem_entries.mpr ⟨_, probe_lt h.size_pos i, hfull⟩

theorem exists_of_lookups (h : IsHashtable hash comp ht es) (hne : lookups ht key ≠ []) :
    ∃ e ∈ es, comp key e.1 = .Partial_Equal := by
  by_contra hnone
  exact hne (lookups_eq_nil h fun e he heq => hnone ⟨e, he, heq⟩)

/-- A lookup returns the first value, if it returns. -/
theorem wp_hashtable_get_first (fit : Consistent hash comp) (h : IsHashtable hash comp ht es)
    (hleaves : SeekLeaves ht key → E .page_fault) (hround : SeekRound ht key → E (.panic "hashtable_seek")) :
    wp (hashtable_get ht key) (fun a st' => (a = (lookups ht key).headD 0 ∧ st' = st) ∧ ¬ SeekLeaves ht key ∧
      ¬ SeekRound ht key) E st := by
  unfold hashtable_get
  rw [wp_bind]
  refine wp_imp (wp_hashtable_seek h hleaves (fun _ _ heq => fit.hash_eq heq) hround) ?_
  rintro (_ | p) _ ⟨rfl, hr, hends⟩
  · rw [lookups_eq_nil h hr]
    exact (wp_pure ..).mpr ⟨⟨rfl, rfl⟩, hends⟩
  · obtain ⟨-, k, v, hfull, -⟩ := Hits.found hr
    obtain ⟨rest, hlookups⟩ := lookups_of_hits hr hfull
    simp only [wp_bind, wp_load_full hfull, wp_pure]
    exact ⟨⟨by rw [hlookups]; rfl, trivial⟩, hends⟩

theorem hashtable_get_first (fit : Consistent hash comp) (h : IsHashtable hash comp ht es) (hstays : ¬ SeekLeaves ht key)
    (hends : ¬ SeekRound ht key) (st : σ) : (hashtable_get ht key).run st = .ok ((lookups ht key).headD 0, st) := by
  have hget : wp (hashtable_get ht key) _ (fun _ => False) st :=
    wp_hashtable_get_first fit h (fun hleaves => absurd hleaves hstays) fun hround => absurd hround hends
  obtain ⟨a, st', hrun, ⟨rfl, rfl⟩, -⟩ := wp_total hget
  exact hrun

theorem hashtable_get_eq (fit : Consistent hash comp) {n : Nat} (h : HasRoom hash comp ht n) (key : Word) (st : σ) :
    (hashtable_get ht key).run st = .ok ((lookups ht key).headD 0, st) := by
  obtain ⟨es, htable⟩ := h.table
  have hfree : 2 ≤ freeSlots ht := Nat.le_trans (Nat.le_add_left 2 n) h.free
  obtain ⟨q, hq, hne, hempty⟩ := exists_free_ne (tableHome ht key) hfree
  exact hashtable_get_first fit htable h.covered.not_leaves (not_seekRound_of_empty ⟨hq, hempty⟩ hne) st

/-! ## Puts -/

theorem tableCell_putAt : tableCell (putAt ht p k v) = Function.update (tableCell ht) p.toNat (.full k v) :=
  tableCell_store ht p _

theorem freeSlots_putAt (hp : p.toNat < ht.size.toNat) (hempty : tableCell ht p.toNat = .empty) :
    freeSlots (putAt ht p k v) + 1 = freeSlots ht := by
  have hupdate := freeCells_update (tableCell ht) hp (.full k v)
  unfold freeSlots
  rw [hempty] at hupdate
  rw [tableCell_putAt]
  simp only [Cell.free, putAt, Hashtable.store] at hupdate ⊢
  omega

/-- Nothing with the key is behind an empty slot. -/
theorem not_matches_behind (h : IsHashtable hash comp ht es) (fit : Consistent hash comp) {i j : Nat} (hi : i < ht.size.toNat)
    (hj : j < i) (hempty : tableCell ht (probe ht.size.toNat (tableHome ht key) j) = .empty) :
    ¬ Matches ht key (probe ht.size.toNat (tableHome ht key) i) := by
  rintro ⟨k, v, hfull, heq⟩
  rw [h.comp_eq] at heq
  have hhome := tableHome_eq fit h (fit.equal.symm heq)
  obtain ⟨i', hi', hsame⟩ := h.placed.before_empty (j := j) (probe_lt h.size_pos i) hfull (by rw [hhome]; exact hempty)
  rw [hhome] at hsame
  have := probe_injective (by omega) hi hsame
  omega

theorem lookups_putAt (fit : Consistent hash comp) (h : IsHashtable hash comp ht es) (hslot : NewSlot ht k p) (key : Word) :
    lookups (putAt ht p k v) key = lookups ht key ++ if comp key k = .Partial_Equal then [v] else [] := by
  have hlookups : lookups (putAt ht p k v) key = found ht.size.toNat (Function.update (tableCell ht) p.toNat (.full k v))
      (fun k => ht.comp key k = .Partial_Equal) (tableHome ht key) := by
    rw [← tableCell_putAt]
    rfl
  have hempty := hslot.empty
  rw [hlookups]
  split
  · rename_i heq
    have hreach := hslot.reaches
    rw [← tableHome_eq fit h heq] at hreach
    obtain ⟨j, hj, hpj, -⟩ := hreach
    rw [← hpj] at hempty ⊢
    rw [found_put hj hempty fun i hji hi => find_eq_none.mpr (not_matches_behind h fit hi hji hempty)]
    simp [Cell.find, h.comp_eq, heq, lookups]
  · rename_i hne
    rw [List.append_nil]
    refine found_update_other ?_
    rw [hempty]
    simp [Cell.find, h.comp_eq, hne]

/-! ## Removals -/

theorem tableCell_removedAt : tableCell (removedAt ht p k v) = Function.update (tableCell ht) p.toNat .deleted :=
  tableCell_store ht p _

theorem freeSlots_removedAt (hp : p.toNat < ht.size.toNat) (hfull : tableCell ht p.toNat = .full k v) :
    freeSlots (removedAt ht p k v) = freeSlots ht := by
  have hupdate := freeCells_update (tableCell ht) hp .deleted
  unfold freeSlots
  rw [hfull] at hupdate
  rw [tableCell_removedAt]
  simp only [Cell.free, removedAt, Hashtable.store] at hupdate ⊢
  omega

theorem lookups_removedAt (fit : Consistent hash comp) (h : IsHashtable hash comp ht es)
    (hits : Hits ht key (tableHome ht key) 0 p.toNat) (hfull : tableCell ht p.toNat = .full k v) (key' : Word) :
    lookups ht key' = (if comp key' key = .Partial_Equal then [v] else []) ++ lookups (removedAt ht p k v) key' := by
  have hlookups : lookups (removedAt ht p k v) key' = found ht.size.toNat (Function.update (tableCell ht) p.toNat .deleted)
      (fun k => ht.comp key' k = .Partial_Equal) (tableHome ht key') := by
    rw [← tableCell_removedAt]
    rfl
  obtain ⟨-, k', v', hfull', hk⟩ := hits.found
  rw [hfull] at hfull'
  cases hfull'
  rw [h.comp_eq] at hk
  rw [hlookups]
  split
  · rename_i heq
    obtain ⟨i, -, hi, hp, -, hnone⟩ := hits
    rw [← tableHome_eq fit h heq] at hp hnone
    rw [← hp] at hfull ⊢
    refine found_remove hi (fun j hj => find_eq_none.mpr ?_) (find_eq_some hfull ?_) rfl
    · rintro ⟨k'', v'', hfull'', heq''⟩
      rw [h.comp_eq] at heq''
      exact hnone j (Nat.zero_le _) hj ⟨k'', v'', hfull'', h.comp_eq ▸ fit.equal.trans (fit.equal.symm heq) heq''⟩
    · rw [h.comp_eq]
      exact fit.equal.trans heq hk
  · rename_i hne
    refine (found_update_other ?_).symm
    rw [hfull]
    simp only [Cell.find, h.comp_eq]
    rw [if_neg]
    exact fun heq => hne (fit.equal.trans (of_decide_eq_true heq) (fit.equal.symm hk))

/-! ## The operations -/

variable {kmalloc : Word → Kernel σ Word} {kfree : Word → Kernel σ Unit} {n : Nat}

/-- A table that has got one more entry, which is found after all others with its key. -/
structure PutLast (hash : Word → Word) (comp : Word → Word → Partial) (ht ht' : Hashtable) (key value : Word) (n : Nat) :
    Prop where
  room : HasRoom hash comp ht' n
  used : ht'.used.toNat = ht.used.toNat + 1
  size : ht'.size = ht.size
  lookups_eq : ∀ key', lookups ht' key' = lookups ht key' ++ if comp key' key = .Partial_Equal then [value] else []

theorem wp_putSlot_room (fit : Consistent hash comp) (h : HasRoom hash comp ht (n + 1)) (key value : Word) :
    wp (putSlot ht key value) (fun ht' st' => st' = st ∧ PutLast hash comp ht ht' key value n) E st := by
  obtain ⟨es, htable⟩ := h.table
  have hfree := h.free
  have hround : ¬ SeekEmptyRound ht := by
    obtain ⟨q, hq, -, hempty⟩ := exists_free_ne 0 (show 2 ≤ freeSlots ht by omega)
    exact not_seekEmptyRound ⟨hq, hempty⟩
  refine wp_imp (wp_putSlot (absurd h.covered) (fun hrounds => absurd hrounds hround) htable.size_pos key value) ?_
  rintro _ _ ⟨rfl, p, hslot, rfl⟩
  have htable' := hslot.table htable value
  have hfree' := freeSlots_putAt (k := key) (v := value) hslot.lt hslot.empty
  refine ⟨rfl, ⟨⟨_, htable'⟩, (kept_store ..).covered h.covered, h.big, by omega⟩, ?_, rfl, lookups_putAt fit htable hslot⟩
  rw [htable'.used_eq, htable.used_eq, Multiset.card_cons]

theorem PutLast.grows_iff {ht' : Hashtable} (h : PutLast hash comp ht ht' key v n) :
    should_grow ht'.size ht'.used = true ↔ spare ht = 0 := by
  obtain ⟨es, htable⟩ := h.room.table
  have hle := card_entries_le ht'.size.toNat (tableCell ht')
  rw [htable.entries_eq, ← htable.used_eq] at hle
  have hused := h.used
  rw [should_grow_iff hle, h.size]
  rw [h.size] at hle
  unfold spare
  omega

theorem PutLast.spare_eq {ht' : Hashtable} (h : PutLast hash comp ht ht' key v n) : spare ht' = spare ht - 1 := by
  unfold spare
  rw [h.size, h.used]
  omega

theorem wp_hashtable_put_room (fit : Consistent hash comp) (h : HasRoom hash comp ht (n + 1)) (hspare : 0 < spare ht)
    (key value : Word) :
    wp (hashtable_put kmalloc kfree ht key value) (fun r st' => st' = st ∧ r.1 = .Ok ∧ PutLast hash comp ht r.2 key value n)
      E st := by
  unfold hashtable_put putNested
  rw [wp_bind]
  refine wp_imp (wp_putSlot_room fit h key value) ?_
  rintro ht' _ ⟨rfl, hput⟩
  rw [if_neg fun hgrows => by have := hput.grows_iff.mp hgrows; omega, wp_pure]
  exact ⟨rfl, rfl, hput⟩

/-- The entry is in the table also when `hashtable_put` returns an error. -/
theorem wp_hashtable_put_failing (fit : Consistent hash comp) (h : HasRoom hash comp ht (n + 1)) (hspare : spare ht = 0)
    (hgrowth : GrowthFails kmalloc ht st) (key value : Word) :
    wp (hashtable_put kmalloc kfree ht key value) (fun r _ => r.1 = .Error_No_Memory ∧ PutLast hash comp ht r.2 key value n)
      E st := by
  obtain ⟨hlt, st', hmalloc⟩ := hgrowth
  unfold hashtable_put putNested
  rw [wp_bind]
  refine wp_imp (wp_putSlot_room fit h key value) ?_
  rintro ht' _ ⟨rfl, hput⟩
  rw [if_pos (hput.grows_iff.mpr hspare)]
  unfold hashtable_rebalance
  rw [hput.size]
  rw [wp_bind, Rules.wp_assert_decide hlt, wp_bind, wp_of_run hmalloc, if_pos rfl, wp_pure]
  exact ⟨rfl, hput⟩

theorem wp_hashtable_remove_room (fit : Consistent hash comp) (h : HasRoom hash comp ht n) (key : Word)
    (hpresent : lookups ht key ≠ []) :
    wp (hashtable_remove kmalloc kfree ht key) (fun r st' => st' = st ∧ r.1 = .Ok ∧ HasRoom hash comp r.2 n ∧
      ∃ v, ∀ key', lookups ht key' = (if comp key' key = .Partial_Equal then [v] else []) ++ lookups r.2 key') E st := by
  obtain ⟨es, htable⟩ := h.table
  refine wp_imp (wp_hashtable_remove_at (fun hleaves => absurd hleaves h.covered.not_leaves) fit htable h.big
    (exists_of_lookups htable hpresent)) ?_
  rintro ⟨status, _⟩ _ ⟨hok, rfl, p, k, v, rfl, hits, hfull⟩
  obtain ⟨es', -, htable'⟩ := removedAt_table htable hits.found.1 hfull
  have hroom : HasRoom hash comp (removedAt ht p k v) n := by
    refine ⟨⟨es', htable'⟩, (kept_store ..).covered h.covered, h.big, ?_⟩
    rw [freeSlots_removedAt hits.found.1 hfull]
    exact h.free
  exact ⟨rfl, hok, hroom, v, lookups_removedAt fit htable hits hfull⟩

/-- The removal of a key that is not there stores through NULL. -/
theorem wp_hashtable_remove_absent (fit : Consistent hash comp) (h : HasRoom hash comp ht n) (key : Word)
    (habsent : lookups ht key = []) :
    wp (hashtable_remove kmalloc kfree ht key) (fun _ _ => False) (fun _ => True) st := by
  obtain ⟨es, htable⟩ := h.table
  apply wp_hashtable_remove_of_seek
  refine wp_imp (wp_hashtable_seek htable (fun _ => trivial) (fun _ _ heq => fit.hash_eq heq) fun _ => trivial) ?_
  rintro (_ | p) _ ⟨rfl, hr, -⟩
  · trivial
  · obtain ⟨-, k, v, hfull, -⟩ := Hits.found hr
    obtain ⟨rest, hlookups⟩ := lookups_of_hits hr hfull
    rw [habsent] at hlookups
    cases hlookups

end KernelOfTruth.LookupOrder
