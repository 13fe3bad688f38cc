import KernelOfTruth.Lib.Prog
import KernelOfTruth.Spec.SortedList
import Mathlib.Tactic.SplitIfs

/-!
# The sorted list

An entry is inserted rightly into an empty list only. In any other list the loop of `sorted_list_insert` comes
to its end without the entry, or it links the entry to itself and goes round for ever.
-/

open KernelOfTruth.Lib KernelOfTruth.Code KernelOfTruth.Code.SortedListState KernelOfTruth.Spec

namespace KernelOfTruth.SortedList

variable {compare : Word → Word → Order} {wrong : Order} {s : SortedListState} {entry cur v : Word} {l : List Word}
  {E : Halt → Prop}

/-! ## Links -/

theorem wp_loadLink {Q : Word → SortedListState → Prop} (h : s.next cur = some v) :
    wp (loadLink cur) Q E s ↔ Q v s := by
  unfold loadLink
  rw [wp_bind, wp_get, h, wp_pure]

theorem wp_loadLink_none {Q : Word → SortedListState → Prop} (h : s.next cur = none) :
    wp (loadLink cur) Q E s ↔ E .page_fault := by
  unfold loadLink
  rw [wp_bind, wp_get, h, wp_throw]

theorem wp_storeLink {Q : Unit → SortedListState → Prop} (h : (s.next cur).isSome) :
    wp (storeLink cur v) Q E s ↔ Q () { s with next := Function.update s.next cur (some v) } := by
  obtain ⟨w, hw⟩ := Option.isSome_iff_exists.mp h
  unfold storeLink
  rw [wp_bind, wp_get, hw, wp_modify]

theorem links_cons {x : Word} (h : Segment id 0 s.next cur (x :: l) 0) :
    cur = x ∧ cur ≠ 0 ∧ ∃ v, s.next cur = some v ∧ Segment id 0 s.next v l 0 := h

theorem short_list (h : l.length ≤ 1) : l = [] ∨ ∃ x, l = [x] := by
  cases l with
  | nil => exact .inl rfl
  | cons x l => exact .inr ⟨x, by simpa using h⟩

/-! ## `sorted_list_contains` -/

theorem wp_sortedContainsLoop {rounds : Nat} {Q : Bool → SortedListState → Prop} (hl : Segment id 0 s.next cur l 0)
    (hrounds : l.length < rounds) :
    wp (sortedContainsLoop compare entry rounds cur) Q E s ↔
      Q (l.any fun x => compare entry x = .Order_Equal) s := by
  induction l generalizing cur rounds with
  | nil =>
    obtain rfl : cur = 0 := hl
    obtain ⟨rounds, rfl⟩ := Nat.exists_eq_add_of_lt hrounds
    unfold sortedContainsLoop
    rw [if_pos rfl, wp_pure]
    rfl
  | cons x l ih =>
    obtain ⟨rfl, hne, v, hv, hrest⟩ := links_cons hl
    obtain ⟨rounds, rfl⟩ : ∃ k, rounds = k + 1 := ⟨rounds - 1, by omega⟩
    unfold sortedContainsLoop
    rw [if_neg hne, wp_ite]
    split
    · rename_i heq
      rw [wp_pure]
      simp [heq]
    · rename_i hdiffer
      rw [wp_bind, wp_loadLink hv, ih hrest (by simpa using hrounds)]
      simp [hdiffer]

theorem contains_run (hl : ListOf s l) : ∃ rounds found,
    (sorted_list_contains compare rounds entry).run s = .ok (found, s) ∧
      (found = true ↔ ∃ x ∈ l, compare entry x = .Order_Equal) := by
  refine ⟨l.length + 1, l.any fun x => compare entry x = .Order_Equal, ?_, by simp⟩
  rw [run_eq_ok_iff]
  unfold sorted_list_contains
  rw [wp_bind, wp_get, wp_sortedContainsLoop hl (Nat.lt_succ_self _)]
  exact ⟨rfl, rfl⟩

theorem holdsSorted_short (hl : ListOf s l) (hshort : l.length ≤ 1) : HoldsSorted compare wrong s l := by
  refine ⟨hl, ?_, fun _ => contains_run hl⟩
  rcases short_list hshort with rfl | ⟨x, rfl⟩
  · exact .nil
  · exact List.pairwise_singleton ..

/-! ## `sorted_list_remove` -/

/-- What is left of the list: the entries before the one that is removed are lost with it. -/
def removed (compare : Word → Word → Order) (entry : Word) (l : List Word) : List Word :=
  match l.dropWhile fun x => compare entry x ≠ .Order_Equal with
  | [] => l
  | _ :: rest => rest

theorem removed_short (hshort : l.length ≤ 1) : removed compare entry l = withoutFirst compare entry l := by
  rcases short_list hshort with rfl | ⟨x, rfl⟩
  · rfl
  · unfold removed withoutFirst
    by_cases heq : compare entry x = .Order_Equal <;> simp [heq]

/-- The state after the removal. -/
def unlinked (compare : Word → Word → Order) (entry : Word) (s : SortedListState) (l : List Word) : SortedListState :=
  match l.dropWhile fun x => compare entry x ≠ .Order_Equal with
  | [] => s
  | x :: _ => ⟨(s.next x).getD 0, Function.update s.next x (some 0)⟩

theorem wp_sortedRemoveLoop {rounds : Nat} {Q : Unit → SortedListState → Prop} (hl : Segment id 0 s.next cur l 0)
    (hQ : Q () (unlinked compare entry s l)) (hE : rounds ≤ l.length → E .diverge) :
    wp (sortedRemoveLoop compare entry 0 rounds cur) Q E s := by
  induction l generalizing cur rounds with
  | nil =>
    obtain rfl : cur = 0 := hl
    cases rounds with
    | zero => exact (wp_throw ..).mpr (hE le_rfl)
    | succ rounds =>
      unfold sortedRemoveLoop
      rw [if_pos rfl, wp_pure]
      exact hQ
  | cons x l ih =>
    obtain ⟨rfl, hne, v, hv, hrest⟩ := links_cons hl
    cases rounds with
    | zero => exact (wp_throw ..).mpr (hE (Nat.zero_le _))
    | succ rounds =>
      unfold unlinked at hQ
      unfold sortedRemoveLoop
      rw [if_neg hne, wp_ite]
      split
      · rename_i heq
        rw [List.dropWhile_cons_of_neg (by simp [heq])] at hQ
        have hsome : (s.next cur).isSome := by rw [hv]; rfl
        rw [wp_bind, wp_loadLink hv]
        simpa [wp_storeLink, hsome, hv] using hQ
      · rename_i hdiffer
        rw [List.dropWhile_cons_of_pos (by simp [hdiffer])] at hQ
        rw [wp_bind, wp_loadLink hv]
        exact ih hrest hQ fun h => hE (by simpa using h)

theorem wp_sorted_list_remove {rounds : Nat} {Q : Unit → SortedListState → Prop} (hl : ListOf s l)
    (hQ : Q () (unlinked compare entry s l)) (hE : rounds ≤ l.length → E .diverge) :
    wp (sorted_list_remove compare rounds entry) Q E s := by
  unfold sorted_list_remove
  rw [wp_bind, wp_get]
  exact wp_sortedRemoveLoop hl hQ hE

theorem remove_iff {P : SortedListState → Prop} (hl : ListOf s l) :
    (∃ rounds s', (sorted_list_remove compare rounds entry).run s = .ok ((), s') ∧ P s') ↔
      P (unlinked compare entry s l) := by
  refine exists_run_iff (l.length + 1) (fun rounds => wp_sorted_list_remove hl rfl fun _ => trivial) ?_
  exact run_eq_ok_iff.mpr (wp_sorted_list_remove hl ⟨rfl, rfl⟩ fun h => absurd h (Nat.not_succ_le_self _))

theorem unlinked_isSome {e : Word} (h : (s.next e).isSome) :
    ((unlinked compare entry s l).next e).isSome := by
  unfold unlinked
  split
  · exact h
  · rename_i x _ _
    by_cases he : e = x
    · subst he
      simp
    · simpa [Function.update_of_ne he] using h

theorem unlinked_null (hl : ListOf s l) (h : s.next 0 = none) : (unlinked compare entry s l).next 0 = none := by
  unfold unlinked
  split
  · exact h
  · rename_i x rest hdrop
    have hx : x ∈ l := (List.dropWhile_suffix _).subset (by rw [hdrop]; simp)
    have hne : (0 : Word) ≠ x := fun h0 => (segment_node hl hx).1 h0.symm
    exact (Function.update_of_ne hne ..).trans h

/-- After a call of `sorted_list_remove` the list is what `removed` says. -/
theorem listOf_removed (hl : ListOf s l) (hnodup : l.Nodup) : ListOf (unlinked compare entry s l) (removed compare entry l) := by
  unfold removed unlinked
  obtain ⟨before, hsplit⟩ := List.dropWhile_suffix (l := l) fun x => decide (compare entry x ≠ .Order_Equal)
  split
  · exact hl
  · rename_i x rest hdrop
    rw [hdrop] at hsplit
    subst hsplit
    obtain ⟨b, -, hb⟩ := segment_append.mp hl
    obtain ⟨rfl, -, v, hv, hrest⟩ := links_cons hb
    have hnot : b ∉ rest := (not_mem_of_nodup hnodup).2
    unfold ListOf
    simp only [hv, Option.getD_some]
    exact segment_congr hrest fun y hy w hw => ⟨w, by rw [update_of_mem hnot hy, hw], rfl⟩

/-! ## `sorted_list_insert` -/

/-- An entry that has come into the cursor never leaves it: it is linked to itself. -/
theorem sortedInsertLoop_spins {rounds : Nat} (hself : compare entry entry ≠ .Order_Less) (hne : entry ≠ 0)
    (h : (s.next entry).isSome) : wp (sortedInsertLoop compare entry rounds entry) (fun _ _ => False) (· = .diverge) s := by
  induction rounds generalizing s with
  | zero => exact (wp_throw ..).mpr rfl
  | succ rounds ih =>
    obtain ⟨v, hv⟩ := Option.isSome_iff_exists.mp h
    unfold sortedInsertLoop sortedInsertStep
    rw [if_neg hne, if_neg hself]
    simp only [wp_bind, wp_loadLink hv, wp_storeLink h, wp_pure]
    rw [wp_storeLink (by simp), wp_loadLink (Function.update_self ..)]
    exact ih (by simp)

/-- An entry that is not less than the one at the cursor is linked behind it, and then it is the cursor. -/
theorem sortedInsertLoop_diverges {rounds : Nat} (hself : compare entry entry ≠ .Order_Less) (hne : entry ≠ 0)
    (h : (s.next entry).isSome) (hcur : cur ≠ 0) (hv : s.next cur = some v) (hdiffer : cur ≠ entry)
    (hless : compare entry cur ≠ .Order_Less) :
    wp (sortedInsertLoop compare entry rounds cur) (fun _ _ => False) (· = .diverge) s := by
  cases rounds with
  | zero => exact (wp_throw ..).mpr rfl
  | succ rounds =>
    have hcur' : (Function.update s.next entry (some v) cur).isSome := by
      rw [Function.update_of_ne hdiffer, hv]
      rfl
    unfold sortedInsertLoop sortedInsertStep
    rw [if_neg hcur, if_neg hless]
    simp only [wp_bind, wp_loadLink hv, wp_storeLink h, wp_pure]
    rw [wp_storeLink hcur', wp_loadLink (Function.update_self ..)]
    refine sortedInsertLoop_spins hself hne ?_
    simp [Function.update_of_ne hdiffer.symm]

/-- If the loop comes to the end of the list, it has changed nothing. -/
theorem sortedInsertLoop_unchanged {rounds : Nat} (hself : compare entry entry ≠ .Order_Less) (hnull : s.next 0 = none)
    (h : (s.next entry).isSome) (hnot : entry ∉ l) (hl : Segment id 0 s.next cur l 0) :
    wp (sortedInsertLoop compare entry rounds cur) (fun _ s' => s' = s) (fun _ => True) s := by
  have hne : entry ≠ 0 := by
    rintro rfl
    rw [hnull] at h
    cases h
  induction rounds generalizing cur l with
  | zero => exact (wp_throw ..).mpr trivial
  | succ rounds ih =>
    cases l with
    | nil =>
      obtain rfl : cur = 0 := hl
      unfold sortedInsertLoop
      rw [if_pos rfl, wp_pure]
    | cons x l =>
      obtain ⟨rfl, hcur, v, hv, hrest⟩ := links_cons hl
      by_cases hless : compare entry cur = .Order_Less
      · -- The cursor goes on twice, and the second time it may be `NULL`.
        unfold sortedInsertLoop sortedInsertStep
        rw [if_neg hcur, if_pos hless, wp_bind, wp_loadLink hv, wp_bind]
        cases l with
        | nil =>
          obtain rfl : v = 0 := hrest
          exact (wp_loadLink_none hnull).mpr trivial
        | cons y l =>
          obtain ⟨rfl, -, w, hw, hrest⟩ := links_cons hrest
          rw [wp_loadLink hw]
          exact ih (fun hmem => hnot (by simp [hmem])) hrest
      · have hdiffer : cur ≠ entry := fun heq => hnot (by simp [heq])
        exact wp_mono (sortedInsertLoop_diverges hself hne h hcur hv hdiffer hless) (fun _ _ hfalse => hfalse.elim)
          fun _ _ => trivial

theorem wp_insert_empty {rounds : Nat} {Q : Unit → SortedListState → Prop} (hentries : s.entries = 0)
    (h : (s.next entry).isSome) (hQ : Q () ⟨entry, Function.update s.next entry (some 0)⟩)
    (hE : rounds = 0 → E .diverge) : wp (sorted_list_insert compare rounds entry) Q E s := by
  unfold sorted_list_insert
  simp only [wp_bind, wp_get]
  rw [if_pos hentries, wp_bind, wp_modify, wp_bind, hentries]
  cases rounds with
  | zero => exact (wp_throw ..).mpr (hE rfl)
  | succ rounds =>
    unfold sortedInsertLoop
    rw [if_pos rfl, wp_pure]
    exact (wp_storeLink (s := ⟨entry, s.next⟩) h).mpr hQ

theorem insert_empty_iff {P : SortedListState → Prop} (hentries : s.entries = 0) (h : (s.next entry).isSome) :
    (∃ rounds s', (sorted_list_insert compare rounds entry).run s = .ok ((), s') ∧ P s') ↔
      P ⟨entry, Function.update s.next entry (some 0)⟩ := by
  refine exists_run_iff 1 (fun rounds => wp_insert_empty hentries h rfl fun _ => trivial) ?_
  exact run_eq_ok_iff.mpr (wp_insert_empty hentries h ⟨rfl, rfl⟩ fun h0 => absurd h0 one_ne_zero)

/-- In a list that is not empty the entry gets lost, if the call returns at all. -/
theorem wp_insert_nonempty {rounds : Nat} (hself : compare entry entry ≠ .Order_Less) (hnull : s.next 0 = none)
    (h : (s.next entry).isSome) (hnot : entry ∉ l) (hl : ListOf s l) (hne : l ≠ []) :
    wp (sorted_list_insert compare rounds entry)
      (fun _ s' => s' = { s with next := Function.update s.next entry (some 0) }) (fun _ => True) s := by
  have hentries : s.entries ≠ 0 := by
    cases l with
    | nil => exact absurd rfl hne
    | cons x l => exact (links_cons hl).2.1
  unfold sorted_list_insert
  simp only [wp_bind, wp_get]
  rw [if_neg hentries, wp_bind]
  refine wp_imp (sortedInsertLoop_unchanged hself hnull h hnot hl) fun _ s' hs' => ?_
  subst hs'
  rw [wp_storeLink h]

theorem listOf_update (hl : ListOf s l) (hnot : entry ∉ l) :
    ListOf { s with next := Function.update s.next entry (some v) } l :=
  segment_congr hl fun _ hy w hw => ⟨w, (update_of_mem hnot hy _).trans hw, rfl⟩

theorem insert_fails (hself : compare entry entry ≠ .Order_Less) (hnull : s.next 0 = none)
    (h : (s.next entry).isSome) (hnot : entry ∉ l) (hl : ListOf s l) (hne : l ≠ []) {rounds : Nat}
    {s' : SortedListState} {l' : List Word} (hrun : (sorted_list_insert compare rounds entry).run s = .ok ((), s'))
    (hl' : ListOf s' l') : ¬ l'.Perm (entry :: l) := by
  intro hperm
  have hs' := (wp_of_run hrun).mp (wp_insert_nonempty hself hnull h hnot hl hne)
  subst hs'
  have heq : l' = l := segment_unique hl' (listOf_update hl hnot)
  have hlength := hperm.length_eq
  rw [heq, List.length_cons] at hlength
  omega

/-! ## Sequences of calls -/

/-- The entries of the calls are in memory, and there is none at `NULL`. -/
structure Ready (s : SortedListState) (calls : List ListCall) : Prop where
  null : s.next 0 = none
  entries : ∀ entry, ListCall.insert entry ∈ calls → (s.next entry).isSome

variable {calls : List ListCall} {call : ListCall}

theorem Ready.ne_null (h : Ready s calls) (hentry : (s.next entry).isSome) : entry ≠ 0 := by
  rintro rfl
  rw [h.null] at hentry
  cases hentry

theorem Ready.inserted (h : Ready s (call :: calls)) (hentry : (s.next entry).isSome) :
    Ready ⟨entry, Function.update s.next entry (some 0)⟩ calls := by
  refine ⟨(Function.update_of_ne (h.ne_null hentry).symm ..).trans h.null, fun e he => ?_⟩
  by_cases heq : e = entry
  · subst heq
    simp
  · simpa [Function.update_of_ne heq] using h.entries e (List.mem_cons_of_mem _ he)

theorem Ready.unlinked (h : Ready s (call :: calls)) (hl : ListOf s l) : Ready (unlinked compare entry s l) calls :=
  ⟨unlinked_null hl h.null, fun e he => unlinked_isSome (h.entries e (List.mem_cons_of_mem _ he))⟩

theorem TotalPreorder.self (hc : TotalPreorder compare) (x : Word) : compare x x = .Order_Equal := by
  have hswap := hc.swap x x
  cases h : compare x x with
  | Order_Equal => rfl
  | Order_Greater => simp [h, reversed] at hswap
  | Order_Less => simp [h, reversed] at hswap

theorem withoutFirst_length (hshort : l.length ≤ 1) : (withoutFirst compare entry l).length ≤ 1 :=
  (List.length_eraseP_le ..).trans hshort

theorem nodup_short (hshort : l.length ≤ 1) : l.Nodup := by
  rcases short_list hshort with rfl | ⟨x, rfl⟩
  · exact .nil
  · exact List.nodup_singleton x

theorem listOf_single (hne : entry ≠ 0) : ListOf ⟨entry, Function.update s.next entry (some 0)⟩ [entry] :=
  ⟨rfl, hne, 0, Function.update_self .., rfl⟩

theorem servesCalls_holds (h : ServesCalls compare wrong calls s l) : HoldsSorted compare wrong s l := by
  cases calls with
  | nil => exact h
  | cons call calls => cases call with
    | insert entry => exact h.1
    | remove entry => exact h.1

theorem servesCalls_iff_short (hc : TotalPreorder compare) (hready : Ready s calls) (hl : ListOf s l)
    (hshort : l.length ≤ 1) : ServesCalls compare wrong calls s l ↔ InsertsIntoEmpty compare calls l := by
  induction calls generalizing s l with
  | nil => exact iff_of_true (holdsSorted_short hl hshort) trivial
  | cons call calls ih =>
    cases call with
    | insert entry =>
      have hentry : (s.next entry).isSome := hready.entries entry (by simp)
      have hself : compare entry entry ≠ .Order_Less := by simp [TotalPreorder.self hc]
      unfold ServesCalls InsertsIntoEmpty
      rw [and_iff_right (holdsSorted_short hl hshort)]
      refine imp_congr_right fun hnot => ?_
      cases l with
      | nil =>
        have hrest := ih (hready.inserted hentry) (listOf_single (hready.ne_null hentry)) le_rfl
        rw [and_iff_right rfl, ← hrest]
        -- The only permutation of one entry is that entry.
        simp only [List.perm_singleton, exists_eq_left, exists_and_left]
        exact insert_empty_iff (P := fun s' => ServesCalls compare wrong calls s' [entry]) hl hentry
      | cons x l =>
        refine iff_of_false ?_ fun h => List.cons_ne_nil _ _ h.1
        rintro ⟨rounds, s', l', hrun, hperm, hserves⟩
        exact insert_fails hself hready.null hentry hnot hl (List.cons_ne_nil _ _) hrun (servesCalls_holds hserves).list hperm
    | remove entry =>
      have hlength : (removed compare entry l).length ≤ 1 := by
        rw [removed_short hshort]
        exact withoutFirst_length hshort
      have hrest := ih (hready.unlinked hl) (listOf_removed hl (nodup_short hshort)) hlength
      unfold ServesCalls InsertsIntoEmpty
      rw [and_iff_right (holdsSorted_short hl hshort), ← removed_short hshort, ← hrest]
      exact remove_iff hl

/-- The list serves a sequence of calls if and only if each entry is inserted when the list is empty. -/
theorem serves_calls_iff (hc : TotalPreorder compare) (hempty : s.entries = 0) (hnull : s.next 0 = none)
    (hentries : ∀ entry, ListCall.insert entry ∈ calls → (s.next entry).isSome) :
    ServesCalls compare wrong calls s [] ↔ InsertsIntoEmpty compare calls [] :=
  servesCalls_iff_short hc ⟨hnull, hentries⟩ hempty (Nat.zero_le 1)

/-- Entries are compared by their addresses here. -/
def byAddress (a b : Word) : Order :=
  if a = b then .Order_Equal else if a < b then .Order_Less else .Order_Greater

/-- Two entries in memory, and an empty list. -/
def twoEntries : SortedListState := ⟨0, fun a => if a = 0x1000 ∨ a = 0x2000 then some 0 else none⟩

theorem byAddress_le {a b : Word} : byAddress a b ≠ .Order_Greater ↔ a ≤ b := by
  unfold byAddress
  split_ifs <;> simp_all <;> bv_omega

theorem byAddress_total : TotalPreorder byAddress := by
  constructor
  · intro a b
    unfold byAddress
    split_ifs <;> simp_all [reversed] <;> bv_omega
  · intro a b c
    simp only [byAddress_le]
    exact BitVec.le_trans

/-- The second entry is inserted after the first one is gone. -/
theorem one_at_a_time_served :
    ServesCalls byAddress .Order_Less [.insert 0x1000, .remove 0x1000, .insert 0x2000] twoEntries [] := by
  refine (serves_calls_iff byAddress_total rfl rfl ?_).mpr ?_
  · intro entry hentry
    simp only [List.mem_cons, ListCall.insert.injEq, reduceCtorEq, List.not_mem_nil, or_false, false_or] at hentry
    rcases hentry with rfl | rfl <;> rfl
  · exact fun _ => ⟨rfl, fun _ => ⟨rfl, trivial⟩⟩

/-- The smaller entry runs into `NULL`. The greater one is linked to itself, and the call does not end. -/
theorem second_insert_fails :
    ((do sorted_list_insert byAddress 2 0x2000; sorted_list_insert byAddress 2 0x1000).run twoEntries).map Prod.fst =
      .error .page_fault ∧
    (∀ rounds, (do sorted_list_insert byAddress rounds 0x1000; sorted_list_insert byAddress rounds 0x2000).run twoEntries =
      .error .diverge) ∧
    ¬ ServesCalls byAddress .Order_Less [.insert 0x1000, .insert 0x2000] twoEntries [] := by
  refine ⟨by decide +kernel, fun rounds => ?_, fun h => ?_⟩
  · rw [run_eq_error_iff, wp_bind]
    refine wp_insert_empty rfl rfl ?_ fun _ => rfl
    unfold sorted_list_insert
    simp only [wp_bind, wp_get]
    rw [if_neg (by decide), wp_bind]
    refine wp_imp (sortedInsertLoop_diverges (by decide) (by decide) rfl (by decide) rfl (by decide) (by decide)) ?_
    exact fun _ _ hfalse => hfalse.elim
  · have hready : Ready twoEntries [.insert 0x1000, .insert 0x2000] := by
      refine ⟨rfl, fun entry hentry => ?_⟩
      simp only [List.mem_cons, ListCall.insert.injEq, List.not_mem_nil, or_false] at hentry
      rcases hentry with rfl | rfl <;> rfl
    have hinserts := (servesCalls_iff_short (l := []) byAddress_total hready rfl (Nat.zero_le 1)).mp h
    exact List.cons_ne_nil _ _ ((hinserts (by decide)).2 (by decide)).1

end KernelOfTruth.SortedList
