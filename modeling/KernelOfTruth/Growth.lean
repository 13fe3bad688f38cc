import KernelOfTruth.Removal

/-!
# A table grows

`hashtable_rebalance` puts the entries into the new table in the order of their slots. A search finds them in the order of
the slots from the home slot of the key on, so that two entries with the same key change places when only one of them has
come past the last slot.
-/

open KernelOfTruth.Lib KernelOfTruth.Code KernelOfTruth.Spec KernelOfTruth.Hashtables KernelOfTruth.ProbeSlots
  KernelOfTruth.LookupOrder KernelOfTruth.FailedPut KernelOfTruth.Removal

namespace KernelOfTruth.Growth

variable {σ : Type} {hash : Word → Word} {comp : Word → Word → Partial} {ht ht' : Hashtable} {es : Multiset (Word × Word)}
  {kmalloc : Word → Kernel σ Word} {kfree : Word → Kernel σ Unit} {st st' : σ} {key : Word}

/-! ## The order in the new table -/

section Copied

variable {start new : Hashtable} {i : Nat}

theorem copied_covered (h : Copied ht start i new) : ∀ p < i, (ht.data.entry p).isSome := by
  induction h with
  | start => exact fun p hp => absurd hp (Nat.not_lt_zero p)
  | skip _ hd _ ih | put _ hd _ ih =>
    intro p hp
    rcases Nat.lt_succ_iff_lt_or_eq.mp hp with hlt | rfl
    · exact ih p hlt
    · rw [hd, Option.isSome_some]

/-- The entries are found in the order in which they were put in, which is the order of their slots. -/
theorem copied_lookups (fit : Consistent hash comp) (h : Copied ht start i new) (hcomp : ht.comp = comp)
    (hstart : IsHashtable hash comp start 0) (key : Word) :
    lookups new key = (List.range i).filterMap fun p => (tableCell ht p).find fun k => ht.comp key k = .Partial_Equal := by
  induction h with
  | start => exact lookups_eq_nil hstart (by simp)
  | @skip i _ _ _ hd hstate ih =>
    have hnone : ¬ Matches ht key i := by
      rintro ⟨k, v, hfull, -⟩
      rw [entry_of_cell_full hfull] at hd
      cases hd
      exact hstate rfl
    rw [ih, List.range_succ, List.filterMap_append]
    simp only [List.filterMap_cons, List.filterMap_nil, find_eq_none.mpr hnone, List.append_nil]
  | put hcopied hd hslot ih =>
    rw [lookups_putAt fit (hcopied.table hstart) hslot, ih, List.range_succ, List.filterMap_append]
    simp only [List.filterMap_cons, List.filterMap_nil, cell_of_entry hd, hashCell, Cell.find, hcomp]
    split <;> simp_all

end Copied

section Rebuilt

variable {new_size data : Word} {new : Hashtable}

theorem rebuilt_covers (h : Rebuilt ht new_size data new) : Covered ht := copied_covered h.2

theorem rebuilt_lookups (fit : Consistent hash comp) (h : Rebuilt ht new_size data new) (htable : IsHashtable hash comp ht es)
    (key : Word) : lookups new key = valuesFrom ht key 0 := by
  rw [copied_lookups fit h.2 htable.comp_eq (emptied_table htable h.1 data), valuesFrom, found_zero]

end Rebuilt

theorem valuesFrom_eq_nil {h h' : Nat} (hh : h < ht.size.toNat) (hh' : h' < ht.size.toNat) :
    valuesFrom ht key h = [] ↔ valuesFrom ht key h' = [] := by
  unfold valuesFrom
  rw [found_eq_nil hh, found_eq_nil hh']

theorem head?_eq_of_headD {l l' : List Word} {a : Word} (hnil : l = [] ↔ l' = []) (h : l.headD a = l'.headD a) :
    l.head? = l'.head? := by
  cases l with
  | nil => rw [hnil.mp rfl]
  | cons b l =>
    cases l' with
    | nil => cases hnil.mpr rfl
    | cons b' l' => exact congrArg some h

/-! ## Lookups that end -/

theorem not_seekRound_iff (hcovered : Covered ht) : ¬ SeekRound ht key ↔ LookupEnds ht key := by
  constructor
  · intro hends
    by_contra hnot
    refine hends fun p hp => ⟨fun hmatch => hnot (.inl ⟨p, hp, hmatch⟩), fun hne => ?_⟩
    obtain ⟨d, hd⟩ := Option.isSome_iff_exists.mp (hcovered p hp)
    refine ⟨d, hd, fun hempty => hnot (.inr ⟨p, ⟨hp, ?_⟩, hne⟩)⟩
    rw [cell_of_entry hd, hashCell_empty_iff]
    exact hempty
  · rintro (⟨p, hp, hmatch⟩ | ⟨p, hempty, hne⟩) hround
    · exact (hround p hp).1 hmatch
    · exact not_seekRound_of_empty hempty hne hround

/-- A table with fewer than all but one of its slots full ends every search. -/
theorem not_seekRound_of_card (hno : NoTombstones ht) (h : IsHashtable hash comp ht es)
    (hcard : Multiset.card es + 1 < ht.size.toNat) : ¬ SeekRound ht key := by
  intro hround
  have hhome := tableHome_lt h.size_pos key
  have hfull : ∀ p < ht.size.toNat, ∃ k v, Function.update (tableCell ht) (tableHome ht key) (.full 0 0) p = .full k v := by
    intro p hp
    by_cases hne : p = tableHome ht key
    · exact ⟨0, 0, by rw [hne, Function.update_self]⟩
    · rw [Function.update_of_ne hne]
      exact hno.full_of_taken ((hround p hp).2 hne)
  have hall := card_entries_of_full hfull
  have hupdate := congrArg Multiset.card (entries_update (tableCell ht) hhome (.full 0 0))
  rw [Multiset.card_add, Multiset.card_add, h.entries_eq, hall] at hupdate
  have hone := (Cell.full (0 : Word) (0 : Word)).card_entry_le
  omega

/-! ## Growth -/

theorem growing_table (h : GrowingTable kmalloc kfree hash comp ht) : RunTable hash comp ht := by
  cases h with
  | between h => exact tableRun_table h
  | within h hrun =>
    rcases tableRun_table h with ⟨-, hnone⟩ | ⟨es, htable⟩
    · exact (wp_ok (wp_putSlot_none (E := fun _ => True) (Q := fun _ _ => False) trivial hnone _ _) hrun).elim
    · obtain ⟨-, p, hslot, rfl⟩ :=
        wp_ok (wp_putSlot (E := fun _ => True) (fun _ => trivial) (fun _ => trivial) htable.size_pos _ _) hrun
      exact .inr ⟨_, hslot.table htable _⟩

/-- A table without slots is not rebuilt. -/
theorem grown_table (h : RunTable hash comp ht)
    (hrun : (hashtable_rebalance kmalloc kfree (hashtable_put kmalloc kfree) ht (ht.size * 2)).run st = .ok ((.Ok, ht'), st')) :
    ∃ es data, IsHashtable hash comp ht es ∧ Rebuilt ht (ht.size * 2) data ht' := by
  rcases h with ⟨hsize, -⟩ | ⟨es, htable⟩
  · rw [hsize] at hrun
    have hnot : ¬ (0 : Word) * 2 > ht.size := by
      rw [hsize]
      decide
    exact (wp_ok ((wp_rebalance_refused (E := fun _ => True) (Q := fun _ _ => False) hnot).mpr trivial) hrun).elim
  · have hrebuilt : wp (hashtable_rebalance kmalloc kfree (hashtable_put kmalloc kfree) ht (ht.size * 2))
        (fun r _ => r.1 = .Ok → ∃ data, Rebuilt ht (ht.size * 2) data r.2) (fun _ => True) st := by
      refine wp_hashtable_rebalance trivial htable 64 double_of_lt trivial fun _ => ?_
      refine wp_any (fun data st₁ => ?_) fun _ => trivial
      split
      · exact fun hok => nomatch hok
      · exact wp_any (fun _ _ new hnew _ => ⟨data, hnew⟩) fun _ => trivial
    obtain ⟨data, hnew⟩ := wp_ok hrebuilt hrun rfl
    exact ⟨es, data, htable, hnew⟩

theorem grown_ends (h : IsHashtable hash comp ht es) {data : Word} (hnew : Rebuilt ht (ht.size * 2) data ht')
    (hends : LookupEnds ht key) : ¬ SeekRound ht' key := by
  have hcovered := rebuilt_covers hnew
  by_cases hpresent : ∃ e ∈ es, comp key e.1 = .Partial_Equal
  · exact not_seekRound (hnew.table h) hpresent
  · rcases hends with ⟨p, hp, k, v, hfull, heq⟩ | ⟨p, hempty, hne⟩
    · refine absurd ⟨(k, v), ?_, h.comp_eq ▸ heq⟩ hpresent
      rw [← h.entries_eq]
      exact mem_entries.mpr ⟨p, hp, hfull⟩
    · have hlt := hempty.1
      have hhome := tableHome_lt h.size_pos key
      have hcard := card_entries_le ht.size.toNat (tableCell ht)
      rw [h.entries_eq] at hcard
      have hdouble := double_of_lt hnew.1
      refine not_seekRound_of_card (hnew.2.noTombstones (zeroed_noTombstones rfl)) (hnew.table h) ?_
      rw [hnew.size]
      omega

/-- A lookup returns the same value before and after the table has grown exactly when it ends before, stays in the new
buffer, and the first entry with the key in the order of the slots has the value of the first one from its home slot on. -/
theorem same_lookup_iff (fit : Consistent hash comp) (hgrowing : GrowingTable kmalloc kfree hash comp ht)
    (hrun : (hashtable_rebalance kmalloc kfree (hashtable_put kmalloc kfree) ht (ht.size * 2)).run st = .ok ((.Ok, ht'), st'))
    (key : Word) :
    SameLookup σ ht ht' key ↔ LookupEnds ht key ∧ (2 ^ 64 ≤ 48 * ht.size.toNat → ¬ SeekLeaves ht' key) ∧
      (valuesFrom ht key (tableHome ht key)).head? = (valuesFrom ht key 0).head? := by
  obtain ⟨es, data, htable, hnew⟩ := grown_table (growing_table hgrowing) hrun
  have htable' := hnew.table htable
  have hcovered := rebuilt_covers hnew
  have hlookups : lookups ht key = valuesFrom ht key (tableHome ht key) := rfl
  have hlookups' := rebuilt_lookups fit hnew htable key
  have hnil : valuesFrom ht key (tableHome ht key) = [] ↔ valuesFrom ht key 0 = [] :=
    valuesFrom_eq_nil (tableHome_lt htable.size_pos key) htable.size_pos
  constructor
  · rintro ⟨value, hsame⟩
    obtain ⟨hget, hget'⟩ := hsame st
    obtain ⟨⟨hvalue, -⟩, -, hround⟩ := wp_ok (wp_hashtable_get_first (E := fun _ => True) fit htable (fun _ => trivial)
      fun _ => trivial) hget
    obtain ⟨⟨hvalue', -⟩, hstays, -⟩ := wp_ok (wp_hashtable_get_first (E := fun _ => True) fit htable' (fun _ => trivial)
      fun _ => trivial) hget'
    refine ⟨(not_seekRound_iff hcovered).mp hround, fun _ => hstays, ?_⟩
    rw [hvalue', hlookups'] at hvalue
    exact (head?_eq_of_headD hnil.symm hvalue).symm
  · rintro ⟨hends, hstays, horder⟩
    have hstays' : ¬ SeekLeaves ht' key := by
      by_cases hfits : 2 ^ 64 ≤ 48 * ht.size.toNat
      · exact hstays hfits
      · refine (hnew.covered ?_).not_leaves
        rw [BitVec.toNat_mul, show (2 : Word).toNat = 2 from rfl]
        omega
    refine ⟨(lookups ht key).headD 0, fun t => ⟨?_, ?_⟩⟩
    · exact hashtable_get_first fit htable hcovered.not_leaves ((not_seekRound_iff hcovered).mpr hends) t
    · rw [hashtable_get_first fit htable' hstays' (grown_ends htable hnew hends) t, hlookups, hlookups',
        List.headD_eq_head?_getD, List.headD_eq_head?_getD, horder]

/-! ## Two values for one key -/

/-- The entries are put into a table of four slots, one after the other. -/
def fourPuts : List (Word × Word) → Hashtable → Option Hashtable
  | [], ht => some ht
  | (key, value) :: es, ht => do
    let ((_, ht'), _) ← ((hashtable_put oneBuffer keepBuffer ht key value).run ()).toOption
    fourPuts es ht'

theorem fourPuts_run {es : List (Word × Word)} (hrun : TableRun oneBuffer keepBuffer id wordComp ht)
    (h : fourPuts es ht = some ht') : TableRun oneBuffer keepBuffer id wordComp ht' := by
  induction es generalizing ht with
  | nil =>
    obtain rfl : ht = ht' := Option.some.inj h
    exact hrun
  | cons e es ih =>
    obtain ⟨⟨⟨status, ht₁⟩, _⟩, hput, h⟩ := Option.bind_eq_some_iff.mp h
    exact ih (hrun.put (ok_of_toOption hput)) h

theorem fourSlots_empty_run : TableRun oneBuffer keepBuffer id wordComp (fourSlots 0) := by
  have hinit : (hashtable_init oneBuffer keepBuffer 4 id wordComp).run () = .ok (some (fourSlots 0), ()) := rfl
  exact .init hinit

theorem fourSlots_within (key value : Word) (hrun : TableRun oneBuffer keepBuffer id wordComp ht)
    (h : (putSlot ht key value).run () = .ok (ht', ())) : GrowingTable oneBuffer keepBuffer id wordComp ht' := .within hrun h

/-- The second entry with the key 3 is in the first slot. When the key 2 is put in, the table grows, and the lookup of the
key 3 changes. -/
theorem wrapped_lookup_changes : ∃ ht₀ ht ht', TableRun oneBuffer keepBuffer id wordComp ht₀ ∧
    fourPuts [(3, 1), (3, 2), (1, 9)] (fourSlots 0) = some ht₀ ∧ (putSlot ht₀ 2 8).run () = .ok (ht, ()) ∧
    GrowingTable oneBuffer keepBuffer id wordComp ht ∧
    (hashtable_rebalance oneBuffer keepBuffer (hashtable_put oneBuffer keepBuffer) ht (ht.size * 2)).run () =
      .ok ((.Ok, ht'), ()) ∧
    (hashtable_put oneBuffer keepBuffer ht₀ 2 8).run () = .ok ((.Ok, ht'), ()) ∧
    (hashtable_get ht 3).run () = .ok (1, ()) ∧ (hashtable_get ht' 3).run () = .ok (2, ()) := by
  obtain ⟨ht₀, hputs⟩ : ∃ ht₀, fourPuts [(3, 1), (3, 2), (1, 9)] (fourSlots 0) = some ht₀ := ⟨_, rfl⟩
  have hrun := fourPuts_run fourSlots_empty_run hputs
  cases hputs
  exact ⟨_, _, _, hrun, rfl, rfl, fourSlots_within 2 8 hrun rfl, rfl, rfl, rfl, rfl⟩

theorem twice_same_lookup : ∃ ht ht', GrowingTable oneBuffer keepBuffer id wordComp ht ∧
    fourPuts [(1, 1), (1, 2)] (fourSlots 0) = some ht ∧
    (hashtable_rebalance oneBuffer keepBuffer (hashtable_put oneBuffer keepBuffer) ht (ht.size * 2)).run () =
      .ok ((.Ok, ht'), ()) ∧ SameLookup Unit ht ht' 1 := by
  obtain ⟨ht, ht', hputs, hgrown⟩ : ∃ ht ht', fourPuts [(1, 1), (1, 2)] (fourSlots 0) = some ht ∧
      (hashtable_rebalance oneBuffer keepBuffer (hashtable_put oneBuffer keepBuffer) ht (ht.size * 2)).run () =
        .ok ((.Ok, ht'), ()) := ⟨_, _, rfl, rfl⟩
  have hgrowing : GrowingTable oneBuffer keepBuffer id wordComp ht := .between (fourPuts_run fourSlots_empty_run hputs)
  cases hputs
  refine ⟨_, _, hgrowing, rfl, hgrown, (same_lookup_iff wordFit hgrowing hgrown 1).mpr ?_⟩
  exact ⟨.inl ⟨1, by decide, 1, 1, rfl, rfl⟩, fun h => absurd h (by decide), by decide⟩

end KernelOfTruth.Growth
