import KernelOfTruth.Rules
import KernelOfTruth.Spec.Hashtable

/-!
# The hash table is a finite map

Each operation is first seen as one on a table with linear probing and its entries. A lookup, a put or a
removal then is the same thing on the finite map that has these entries.
-/

open KernelOfTruth.Lib KernelOfTruth.Code KernelOfTruth.Spec KernelOfTruth.Rules

namespace KernelOfTruth.Hashtables

variable {σ : Type} {hash : Word → Word} {comp : Word → Word → Partial} {ht : Hashtable}
  {es : Multiset (Word × Word)} {E : Halt → Prop} {st : σ}

/-! ## Slots -/

theorem toNat_next {s size : Word} (hs : s.toNat < size.toNat) :
    ((s + 1) % size).toNat = (s.toNat + 1) % size.toNat := by
  have hlt : s.toNat + 1 < 2 ^ 64 := Nat.lt_of_le_of_lt hs size.isLt
  rw [BitVec.toNat_umod, BitVec.toNat_add, show (1 : Word).toNat = 1 from rfl, Nat.mod_eq_of_lt hlt]

theorem tableHome_lt (hsize : 0 < ht.size.toNat) (key : Word) : tableHome ht key < ht.size.toNat := by
  unfold tableHome
  rw [BitVec.toNat_umod]
  exact Nat.mod_lt _ hsize

theorem toNat_second (hsize : 0 < ht.size.toNat) (key : Word) :
    ((ht.hash key % ht.size + 1) % ht.size).toNat = probe ht.size.toNat (tableHome ht key) 1 := by
  have hh := tableHome_lt hsize key
  rw [toNat_next hh, probe_succ, probe_zero hh]
  rfl

/-- The way round the table is over only when it is back at the home slot. -/
theorem lt_of_ne_home {h s size : Word} {j : Nat} (hh : h.toNat < size.toNat)
    (hs : s.toNat = probe size.toNat h.toNat j) (hne : s ≠ h) (hj : j ≤ size.toNat) : j < size.toNat := by
  rcases Nat.lt_or_eq_of_le hj with hlt | rfl
  · exact hlt
  · rw [probe_round hh] at hs
    exact absurd (BitVec.eq_of_toNat_eq hs) hne

theorem hashCell_empty_iff (d : Hashdata) : hashCell d = .empty ↔ d.state = .Hashdata_Empty := by
  unfold hashCell
  split <;> simp_all

theorem cell_of_entry {p : Nat} {d : Hashdata} (h : ht.data.entry p = some d) : tableCell ht p = hashCell d := by
  unfold tableCell
  rw [h]
  rfl

theorem entry_of_cell_full {p : Nat} {k v : Word} (h : tableCell ht p = .full k v) :
    ht.data.entry p = some ⟨.Hashdata_Full, k, v⟩ := by
  unfold tableCell at h
  cases hd : ht.data.entry p with
  | none => simp [hd] at h
  | some d =>
    obtain ⟨state, key, value⟩ := d
    simp only [hd, Option.elim_some] at h
    cases state with
    | Hashdata_Empty => cases h
    | Hashdata_Tombstone => cases h
    | Hashdata_Full =>
      cases h
      rfl

theorem tableCell_store (ht : Hashtable) (s : Word) (d : Hashdata) :
    tableCell (ht.store s d) = Function.update (tableCell ht) s.toNat (hashCell d) := by
  funext p
  unfold tableCell Hashtable.store
  by_cases hp : p = s.toNat
  · subst hp
    simp
  · simp [hp]

/-- The buffer has all slots of the table. -/
def Covered (ht : Hashtable) : Prop := ∀ p < ht.size.toNat, (ht.data.entry p).isSome

theorem not_covered {p : Nat} (hp : p < ht.size.toNat) (hnone : ht.data.entry p = none) : ¬ Covered ht := by
  intro hcovered
  have hsome := hcovered p hp
  rw [hnone] at hsome
  cases hsome

theorem wp_load {s : Word} {Q : Hashdata → σ → Prop} (hfault : ht.data.entry s.toNat = none → E .page_fault)
    (h : ∀ d, ht.data.entry s.toNat = some d → Q d st) : wp (ht.load s) Q E st := by
  unfold Hashtable.load
  cases hd : ht.data.entry s.toNat with
  | none => exact (wp_throw ..).mpr (hfault hd)
  | some d => exact (wp_pure ..).mpr (h d hd)

theorem wp_load_full {p : Word} {k v : Word} {Q : Hashdata → σ → Prop} (h : tableCell ht p.toNat = .full k v) :
    wp (ht.load p) Q E st ↔ Q ⟨.Hashdata_Full, k, v⟩ st := by
  unfold Hashtable.load
  rw [entry_of_cell_full h]
  exact wp_pure ..

/-! ## `hashtable_seek` -/

/-- The slot `p` has a key that compares equal. -/
def Matches (ht : Hashtable) (key : Word) (p : Nat) : Prop :=
  ∃ k v, tableCell ht p = .full k v ∧ ht.comp key k = .Partial_Equal

/-- An empty slot ends the way from `h`, and no slot from number `j` on has the key. -/
def Misses (ht : Hashtable) (key : Word) (h j : Nat) : Prop :=
  ∃ m, m < ht.size.toNat ∧ tableCell ht (probe ht.size.toNat h m) = .empty ∧
    ∀ i, j ≤ i → i < m → ¬ Matches ht key (probe ht.size.toNat h i)

theorem Misses.cons {key : Word} {h j : Nat} (hrest : Misses ht key h (j + 1))
    (hj : ¬ Matches ht key (probe ht.size.toNat h j)) : Misses ht key h j := by
  obtain ⟨m, hm, hempty, hnone⟩ := hrest
  refine ⟨m, hm, hempty, fun i hi him => ?_⟩
  rcases Nat.eq_or_lt_of_le hi with rfl | hlt
  · exact hj
  · exact hnone i hlt him

/-- The slot `p` is the first one from number `j` on that has the key. -/
def Hits (ht : Hashtable) (key : Word) (h j p : Nat) : Prop :=
  ∃ i, j ≤ i ∧ i < ht.size.toNat ∧ probe ht.size.toNat h i = p ∧ Matches ht key p ∧
    ∀ k, j ≤ k → k < i → ¬ Matches ht key (probe ht.size.toNat h k)

theorem Hits.found {key : Word} {h j p : Nat} (hits : Hits ht key h j p) : p < ht.size.toNat ∧ Matches ht key p := by
  obtain ⟨i, -, hi, rfl, hmatch, -⟩ := hits
  exact ⟨probe_lt (by omega) i, hmatch⟩

theorem Hits.cons {key : Word} {h j p : Nat} (hrest : Hits ht key h (j + 1) p)
    (hj : ¬ Matches ht key (probe ht.size.toNat h j)) : Hits ht key h j p := by
  obtain ⟨i, hji, hi, hp, hmatch, hnone⟩ := hrest
  refine ⟨i, by omega, hi, hp, hmatch, fun k hjk hki => ?_⟩
  rcases Nat.eq_or_lt_of_le hjk with rfl | hlt
  · exact hj
  · exact hnone k hlt hki

/-- What `hashtable_seek` says about the slots from number `j` on. -/
def SeekResult (ht : Hashtable) (key : Word) (h j : Nat) : Option Word → Prop
  | some p => Hits ht key h j p.toNat
  | none => Misses ht key h j

theorem SeekResult.cons {key : Word} {h j : Nat} {r : Option Word} (hrest : SeekResult ht key h (j + 1) r)
    (hj : ¬ Matches ht key (probe ht.size.toNat h j)) : SeekResult ht key h j r := by
  cases r with
  | none => exact Misses.cons hrest hj
  | some p => exact Hits.cons hrest hj

/-- A search goes on at this slot. -/
def Taken (ht : Hashtable) (p : Nat) : Prop := ∃ d, ht.data.entry p = some d ∧ d.state ≠ .Hashdata_Empty

theorem Taken.not_empty {p : Nat} (h : Taken ht p) : tableCell ht p ≠ .empty := by
  obtain ⟨d, hd, hne⟩ := h
  rw [cell_of_entry hd, ne_eq, hashCell_empty_iff]
  exact hne

/-- The search for the key goes round the table. It does not end at its home slot when that slot is empty. -/
def SeekRound (ht : Hashtable) (key : Word) : Prop :=
  ∀ p < ht.size.toNat, ¬ Matches ht key p ∧ (p ≠ tableHome ht key → Taken ht p)

/-- The search for the key comes to a slot that is not in the buffer. -/
def SeekLeaves (ht : Hashtable) (key : Word) : Prop :=
  ∃ j < ht.size.toNat, ht.data.entry (probe ht.size.toNat (tableHome ht key) j) = none ∧
    ∀ i < j, ¬ Matches ht key (probe ht.size.toNat (tableHome ht key) i) ∧
      (0 < i → Taken ht (probe ht.size.toNat (tableHome ht key) i))

theorem Covered.not_leaves (h : Covered ht) {key : Word} : ¬ SeekLeaves ht key := by
  rintro ⟨j, hj, hnone, -⟩
  exact not_covered (probe_lt (Nat.zero_lt_of_lt hj) j) hnone h

/-- The search from `h` passes the slots up to number `m`, which is behind `h`, and ends there. -/
structure SeekEnds (ht : Hashtable) (key : Word) (h m : Nat) : Prop where
  pos : 0 < m
  lt : m < ht.size.toNat
  before : ∀ i, 0 < i → i < m → ¬ Matches ht key (probe ht.size.toNat h i) ∧ Taken ht (probe ht.size.toNat h i)
  ends : tableCell ht (probe ht.size.toNat h m) = .empty ∨ Matches ht key (probe ht.size.toNat h m)

theorem SeekEnds.not_taken {key : Word} {h m : Nat} (hends : SeekEnds ht key h m) :
    ¬ (¬ Matches ht key (probe ht.size.toNat h m) ∧ Taken ht (probe ht.size.toNat h m)) := by
  rintro ⟨hnot, htaken⟩
  exact hends.ends.elim htaken.not_empty hnot

theorem SeekEnds.inside {key : Word} {h m : Nat} (hends : SeekEnds ht key h m) :
    ht.data.entry (probe ht.size.toNat h m) ≠ none := by
  intro hnone
  rcases hends.ends with hempty | ⟨k, v, hfull, -⟩
  · unfold tableCell at hempty
    rw [hnone] at hempty
    cases hempty
  · rw [entry_of_cell_full hfull] at hnone
    cases hnone

theorem SeekEnds.not_round {key : Word} {m : Nat} (hsize : 0 < ht.size.toNat)
    (hends : SeekEnds ht key (tableHome ht key) m) : ¬ SeekRound ht key := by
  intro hround
  obtain ⟨hnot, htaken⟩ := hround _ (probe_lt hsize m)
  exact hends.not_taken ⟨hnot, htaken (probe_ne (tableHome_lt hsize key) hends.pos hends.lt)⟩

theorem SeekEnds.not_leaves {key : Word} {m : Nat} (hends : SeekEnds ht key (tableHome ht key) m)
    (hhome : ht.data.entry (probe ht.size.toNat (tableHome ht key) 0) ≠ none) : ¬ SeekLeaves ht key := by
  rintro ⟨j, hj, hnone, hbefore⟩
  rcases Nat.lt_trichotomy j m with hlt | rfl | hgt
  · rcases Nat.eq_zero_or_pos j with rfl | hpos
    · exact hhome hnone
    · obtain ⟨d, hd, -⟩ := (hends.before j hpos hlt).2
      rw [hd] at hnone
      cases hnone
  · exact hends.inside hnone
  · exact hends.not_taken ⟨(hbefore m hgt).1, (hbefore m hgt).2 hends.pos⟩

-- by induction on the fuel, which is one more than the number of slots that are left
theorem wp_seekLoop {key h s : Word} {fuel j : Nat}
    (hleaves : ∀ j, 0 < j → j < ht.size.toNat → ht.data.entry (probe ht.size.toNat h.toNat j) = none →
      (∀ i, 0 < i → i < j → ¬ Matches ht key (probe ht.size.toNat h.toNat i) ∧
        Taken ht (probe ht.size.toNat h.toNat i)) → E .page_fault)
    (hround : (∀ i, 0 < i → i < ht.size.toNat → ¬ Matches ht key (probe ht.size.toNat h.toNat i) ∧
      Taken ht (probe ht.size.toNat h.toNat i)) → E (.panic "hashtable_seek"))
    (hh : h.toNat < ht.size.toNat) (hj : 0 < j) (hfuel : fuel + j = ht.size.toNat + 1) (hpos : 0 < fuel)
    (hs : s.toNat = probe ht.size.toNat h.toNat j)
    (hbefore : ∀ i, 0 < i → i < j → ¬ Matches ht key (probe ht.size.toNat h.toNat i) ∧
      Taken ht (probe ht.size.toNat h.toNat i)) :
    wp (seekLoop ht key h fuel s) (fun r st' => st' = st ∧ SeekResult ht key h.toNat j r ∧
      ∃ m, SeekEnds ht key h.toNat m) E st := by
  induction fuel generalizing j s with
  | zero => omega
  | succ fuel ih =>
    unfold seekLoop
    split
    · rename_i heq
      refine (wp_throw ..).mpr (hround fun i hi hin => hbefore i hi ?_)
      rw [heq] at hs
      by_contra hji
      exact probe_ne hh hj (by omega) hs.symm
    · rename_i hne
      have hjn := lt_of_ne_home hh hs hne (by omega)
      have hlt : s.toNat < ht.size.toNat := hs ▸ probe_lt (by omega) j
      have hnext : ((s + 1) % ht.size).toNat = probe ht.size.toNat h.toNat (j + 1) := by
        rw [toNat_next hlt, hs, probe_succ]
      have hrest := ih (j := j + 1) (s := (s + 1) % ht.size) (by omega) (by omega) (by omega) hnext
      have hpassed : ¬ Matches ht key (probe ht.size.toNat h.toNat j) → Taken ht s.toNat →
          ∀ i, 0 < i → i < j + 1 → ¬ Matches ht key (probe ht.size.toNat h.toNat i) ∧
            Taken ht (probe ht.size.toNat h.toNat i) := by
        intro hnot htaken i hi hij
        rcases Nat.lt_succ_iff_lt_or_eq.mp hij with hij | rfl
        · exact hbefore i hi hij
        · exact ⟨hnot, hs ▸ htaken⟩
      rw [wp_bind]
      apply wp_load fun hnone => hleaves j hj hjn (hs ▸ hnone) hbefore
      intro d hd
      have hcell := cell_of_entry hd
      obtain ⟨state, k, v⟩ := d
      cases state with
      | Hashdata_Empty =>
        refine (wp_pure ..).mpr ⟨rfl, ⟨j, hjn, hs ▸ hcell, fun i hi him => ?_⟩, j, hj, hjn, hbefore, .inl (hs ▸ hcell)⟩
        omega
      | Hashdata_Tombstone =>
        have hnot : ¬ Matches ht key (probe ht.size.toNat h.toNat j) := by
          rintro ⟨k', v', hfull, -⟩
          rw [← hs, hcell] at hfull
          cases hfull
        refine wp_imp (hrest (hpassed hnot ⟨_, hd, by simp⟩)) ?_
        rintro r _ ⟨rfl, hr, hends⟩
        exact ⟨rfl, hr.cons hnot, hends⟩
      | Hashdata_Full =>
        simp only [wp_ite, wp_pure]
        split
        · rename_i heq
          have hmatch : Matches ht key s.toNat := ⟨k, v, hcell, heq⟩
          exact ⟨by simp, ⟨j, le_rfl, hjn, hs.symm, hmatch, fun i hi hij => by omega⟩, j, hj, hjn, hbefore, .inr (hs ▸ hmatch)⟩
        · rename_i hne'
          have hnot : ¬ Matches ht key (probe ht.size.toNat h.toNat j) := by
            rintro ⟨k', v', hfull, heq⟩
            rw [← hs, hcell] at hfull
            cases hfull
            exact hne' heq
          refine wp_imp (hrest (hpassed hnot ⟨_, hd, by simp⟩)) ?_
          rintro r _ ⟨rfl, hr, hends⟩
          exact ⟨rfl, hr.cons hnot, hends⟩

theorem wp_hashtable_seek_result (hsize : 0 < ht.size.toNat) {key : Word} (hleaves : SeekLeaves ht key → E .page_fault)
    (hround : SeekRound ht key → E (.panic "hashtable_seek")) :
    wp (hashtable_seek ht key) (fun r st' => st' = st ∧ SeekResult ht key (tableHome ht key) 0 r ∧
      ¬ SeekLeaves ht key ∧ ¬ SeekRound ht key) E st := by
  have hh := tableHome_lt hsize key
  have hzero := probe_zero hh
  unfold hashtable_seek
  rw [wp_bind]
  apply wp_load fun hnone => hleaves ⟨0, hsize, hzero.symm ▸ hnone, fun i hi => by omega⟩
  intro d hd
  have hcell := cell_of_entry hd
  rw [wp_ite]
  split
  · rename_i hhit
    obtain ⟨state, k, v⟩ := d
    obtain ⟨rfl, heq⟩ := hhit
    have hmatch : Matches ht key (tableHome ht key) := ⟨k, v, hcell, heq⟩
    refine (wp_pure ..).mpr ⟨rfl, ⟨0, le_rfl, hsize, hzero, hmatch, fun i _ hi => by omega⟩, ?_,
      fun hround => (hround _ hh).1 hmatch⟩
    rintro ⟨j, -, hnone, hbefore⟩
    rcases Nat.eq_zero_or_pos j with rfl | hpos
    · rw [hzero, tableHome, hd] at hnone
      cases hnone
    · exact (hbefore 0 hpos).1 (hzero.symm ▸ hmatch)
  · rename_i hmiss
    have hnot : ¬ Matches ht key (probe ht.size.toNat (tableHome ht key) 0) := by
      rintro ⟨k, v, hfull, heq⟩
      rw [hzero, tableHome, hcell] at hfull
      obtain ⟨state, k', v'⟩ := d
      cases state with
      | Hashdata_Empty => cases hfull
      | Hashdata_Tombstone => cases hfull
      | Hashdata_Full =>
        cases hfull
        exact hmiss ⟨rfl, heq⟩
    have hround' : (∀ i, 0 < i → i < ht.size.toNat → ¬ Matches ht key (probe ht.size.toNat (tableHome ht key) i) ∧
        Taken ht (probe ht.size.toNat (tableHome ht key) i)) → E (.panic "hashtable_seek") := by
      refine fun hall => hround fun p hp => ?_
      obtain ⟨i, hi, rfl⟩ := probe_surjective hh hp
      rcases Nat.eq_zero_or_pos i with rfl | hpos
      · exact ⟨hnot, fun hne => absurd hzero hne⟩
      · exact ⟨(hall i hpos hi).1, fun _ => (hall i hpos hi).2⟩
    have hleaves' : ∀ j, 0 < j → j < ht.size.toNat → ht.data.entry (probe ht.size.toNat (tableHome ht key) j) = none →
        (∀ i, 0 < i → i < j → ¬ Matches ht key (probe ht.size.toNat (tableHome ht key) i) ∧
          Taken ht (probe ht.size.toNat (tableHome ht key) i)) → E .page_fault := by
      refine fun j _ hj hnone hbefore => hleaves ⟨j, hj, hnone, fun i hi => ?_⟩
      rcases Nat.eq_zero_or_pos i with rfl | hpos
      · exact ⟨hnot, fun h => absurd h (Nat.lt_irrefl 0)⟩
      · exact ⟨(hbefore i hpos hi).1, fun _ => (hbefore i hpos hi).2⟩
    have hhome : ht.data.entry (probe ht.size.toNat (tableHome ht key) 0) ≠ none := by
      rw [hzero, tableHome, hd]
      exact Option.some_ne_none d
    refine wp_imp (wp_seekLoop hleaves' hround' (j := 1) hh (by omega) rfl hsize (toNat_second hsize key) (by omega)) ?_
    rintro r _ ⟨rfl, hr, m, hends⟩
    exact ⟨rfl, hr.cons hnot, hends.not_leaves hhome, hends.not_round hsize⟩

theorem wp_hashtable_seek (h : IsHashtable hash comp ht es) {key : Word} (hleaves : SeekLeaves ht key → E .page_fault)
    (hhash : ∀ e ∈ es, comp key e.1 = .Partial_Equal → hash key = hash e.1)
    (hround : SeekRound ht key → E (.panic "hashtable_seek")) :
    wp (hashtable_seek ht key) (fun r st' => st' = st ∧ (match r with
      | some p => Hits ht key (tableHome ht key) 0 p.toNat
      | none => ∀ e ∈ es, comp key e.1 ≠ .Partial_Equal) ∧ ¬ SeekLeaves ht key ∧ ¬ SeekRound ht key) E st := by
  refine wp_imp (wp_hashtable_seek_result h.size_pos hleaves hround) ?_
  rintro r _ ⟨rfl, hr, hends⟩
  refine ⟨rfl, ?_, hends⟩
  cases r with
  | some p => exact hr
  | none =>
    -- a key that compares equal has the same home, so the search has passed its slot
    obtain ⟨m, -, hempty, hnone⟩ := hr
    intro e he heq
    have hhome : tableHome ht e.1 = tableHome ht key := by
      unfold tableHome
      rw [h.hash_eq, hhash e he heq]
    rw [← h.entries_eq] at he
    obtain ⟨p, hp, hfull⟩ := mem_entries.mp he
    obtain ⟨i, hi, rfl⟩ := h.placed.before_empty hp hfull (j := m) (by rw [hhome]; exact hempty)
    rw [hhome] at hfull
    exact hnone i (by omega) hi ⟨_, _, hfull, by rw [h.comp_eq]; exact heq⟩

theorem not_seekRound (h : IsHashtable hash comp ht es) {key : Word}
    (hpresent : ∃ e ∈ es, comp key e.1 = .Partial_Equal) : ¬ SeekRound ht key := by
  intro hround
  obtain ⟨e, he, heq⟩ := hpresent
  rw [← h.entries_eq] at he
  obtain ⟨p, hp, hfull⟩ := mem_entries.mp he
  exact (hround p hp).1 ⟨_, _, hfull, h.comp_eq ▸ heq⟩

theorem wp_hashtable_get (h : IsHashtable hash comp ht es) {key : Word} (hleaves : SeekLeaves ht key → E .page_fault)
    (hhash : ∀ e ∈ es, comp key e.1 = .Partial_Equal → hash key = hash e.1)
    (hround : SeekRound ht key → E (.panic "hashtable_seek")) :
    wp (hashtable_get ht key) (fun value st' => st' = st ∧
      ((∃ k, (k, value) ∈ es ∧ comp key k = .Partial_Equal) ∨
        (value = 0 ∧ ∀ e ∈ es, comp key e.1 ≠ .Partial_Equal))) E st := by
  unfold hashtable_get
  rw [wp_bind]
  refine wp_imp (wp_hashtable_seek h hleaves hhash hround) ?_
  rintro r _ ⟨rfl, hr, -⟩
  cases r with
  | none => exact (wp_pure ..).mpr ⟨rfl, .inr ⟨rfl, hr⟩⟩
  | some p =>
    obtain ⟨hp, k, v, hfull, heq⟩ := Hits.found hr
    simp only [wp_bind, wp_load_full hfull, wp_pure]
    refine ⟨trivial, .inl ⟨k, ?_, h.comp_eq ▸ heq⟩⟩
    rw [← h.entries_eq]
    exact mem_entries.mpr ⟨_, hp, hfull⟩

/-! ## One slot is stored -/

@[simp] theorem store_size (ht : Hashtable) (p : Word) (d : Hashdata) : (ht.store p d).size = ht.size := rfl

theorem store_store (ht : Hashtable) (p : Word) (d d' : Hashdata) : (ht.store p d).store p d' = ht.store p d' := by
  simp [Hashtable.store]

/-- A slot that was empty or full is written, and `used` with it. -/
theorem stored_table {p used : Word} {d : Hashdata} {es' : Multiset (Word × Word)} (h : IsHashtable hash comp ht es)
    (hp : p.toNat < ht.size.toNat) (hd : hashCell d ≠ .empty)
    (hreach : ∀ k v, hashCell d = .full k v → Reaches ht.size.toNat (tableCell ht) (tableHome ht k) p.toNat)
    (hes : (tableCell ht p.toNat).entry + es' = (hashCell d).entry + es) (hused : used.toNat = Multiset.card es') :
    IsHashtable hash comp { ht.store p d with used := used } es' := by
  have hcell : tableCell { ht.store p d with used := used } = Function.update (tableCell ht) p.toNat (hashCell d) :=
    tableCell_store ht p d
  have hentries := entries_update (tableCell ht) hp (hashCell d)
  rw [h.entries_eq, ← hes] at hentries
  refine ⟨h.hash_eq, h.comp_eq, h.size_pos, ?_, ?_, hused⟩
  · rw [hcell]
    exact h.placed.update hd hreach
  · rw [hcell]
    exact add_left_cancel hentries

/-- The table is in the same buffer, and no slot of it is lost. -/
structure Kept (ht ht' : Hashtable) : Prop where
  size : ht'.size = ht.size
  address : ht'.data.address = ht.data.address
  entry : ∀ p, (ht.data.entry p).isSome → (ht'.data.entry p).isSome

theorem Kept.trans {ht₁ ht₂ ht₃ : Hashtable} (h : Kept ht₁ ht₂) (h' : Kept ht₂ ht₃) : Kept ht₁ ht₃ :=
  ⟨h'.size.trans h.size, h'.address.trans h.address, fun p hp => h'.entry p (h.entry p hp)⟩

theorem kept_refl (ht : Hashtable) : Kept ht ht := ⟨rfl, rfl, fun _ hp => hp⟩

theorem kept_store (ht : Hashtable) (p used : Word) (d : Hashdata) : Kept ht { ht.store p d with used := used } := by
  refine ⟨rfl, rfl, fun q hq => ?_⟩
  simp only [Hashtable.store, Function.update_apply]
  split
  · rfl
  · exact hq

theorem Kept.covered {ht' : Hashtable} (h : Kept ht ht') (hcovered : Covered ht) : Covered ht' := by
  intro p hp
  rw [h.size] at hp
  exact h.entry p (hcovered p hp)

/-- The table without the entry of the slot `p`. -/
def removedAt (ht : Hashtable) (p k v : Word) : Hashtable :=
  { ht.store p ⟨.Hashdata_Tombstone, k, v⟩ with used := ht.used - 1 }

theorem removedAt_table {p k v : Word} (h : IsHashtable hash comp ht es) (hp : p.toNat < ht.size.toNat)
    (hfull : tableCell ht p.toNat = .full k v) : ∃ es', es = (k, v) ::ₘ es' ∧ IsHashtable hash comp (removedAt ht p k v) es' := by
  have hmem : (k, v) ∈ es := by
    rw [← h.entries_eq]
    exact mem_entries.mpr ⟨_, hp, hfull⟩
  obtain ⟨es', hes⟩ := Multiset.exists_cons_of_mem hmem
  have hcard : ht.used.toNat = Multiset.card es' + 1 := by rw [h.used_eq, hes, Multiset.card_cons]
  refine ⟨es', hes, ?_⟩
  apply stored_table h hp
  · simp [hashCell_empty_iff]
  · rintro _ _ hcell
    cases hcell
  · rw [hfull, hes]
    exact (zero_add _).symm
  · rw [BitVec.toNat_sub_of_le (by rw [BitVec.le_def, hcard]; exact Nat.le_add_left ..), hcard]
    rfl

/-- The lookup of a key that is there once comes to its value, if it stays in the buffer. -/
theorem hashtable_get_of_mem (fit : Consistent hash comp) (h : IsHashtable hash comp ht es) {key k value : Word}
    (hstays : ¬ SeekLeaves ht key) (hmem : (k, value) ∈ es) (heq : comp key k = .Partial_Equal)
    (hunique : ∀ e ∈ es, comp key e.1 = .Partial_Equal → e.2 = value) (st : σ) :
    (hashtable_get ht key).run st = .ok (value, st) := by
  have hget : wp (hashtable_get ht key) _ (fun _ => False) st :=
    wp_hashtable_get h (fun hleaves => absurd hleaves hstays) (fun _ _ heq => fit.hash_eq heq)
      fun hround => absurd hround (not_seekRound h ⟨_, hmem, heq⟩)
  obtain ⟨a, st', hrun, rfl, ⟨k', hin, heq'⟩ | ⟨-, hnone⟩⟩ := wp_total hget
  · obtain rfl : a = value := hunique _ hin heq'
    exact hrun
  · exact absurd heq (hnone _ hmem)

/-! ## `hashtable_put` without growth -/

def NoTombstones (ht : Hashtable) : Prop := ∀ p d, ht.data.entry p = some d → d.state ≠ .Hashdata_Tombstone

theorem NoTombstones.store {p used : Word} {d : Hashdata} (h : NoTombstones ht) (hd : d.state ≠ .Hashdata_Tombstone) :
    NoTombstones { ht.store p d with used := used } := by
  intro q d' hq
  simp only [Hashtable.store, Function.update_apply] at hq
  split at hq
  · cases hq
    exact hd
  · exact h q d' hq

/-- The table with an entry in the slot `p`. -/
def putAt (ht : Hashtable) (p key value : Word) : Hashtable :=
  { ht.store p ⟨.Hashdata_Full, key, value⟩ with used := ht.used + 1 }

/-- The empty slot that `hashtable_seek_empty` finds for the key. -/
structure NewSlot (ht : Hashtable) (key p : Word) : Prop where
  lt : p.toNat < ht.size.toNat
  empty : tableCell ht p.toNat = .empty
  path : ∃ i < ht.size.toNat, probe ht.size.toNat (tableHome ht key) i = p.toNat ∧
    ∀ j < i, Taken ht (probe ht.size.toNat (tableHome ht key) j)

theorem NewSlot.reaches {p key : Word} (h : NewSlot ht key p) :
    Reaches ht.size.toNat (tableCell ht) (tableHome ht key) p.toNat := by
  obtain ⟨i, hi, hp, hbefore⟩ := h.path
  exact ⟨i, hi, hp, fun j hj => (hbefore j hj).not_empty⟩

theorem NewSlot.emptyAhead {p key : Word} (h : NewSlot ht key p) : EmptyAhead ht key := by
  obtain ⟨i, hi, hprobe, hbefore⟩ := h.path
  exact ⟨i, hi, hprobe ▸ h.empty, hbefore⟩

theorem NewSlot.table {p key : Word} (hslot : NewSlot ht key p) (h : IsHashtable hash comp ht es) (value : Word) :
    IsHashtable hash comp (putAt ht p key value) ((key, value) ::ₘ es) := by
  have hcard : Multiset.card es < ht.size.toNat := by
    rw [← h.entries_eq]
    exact card_entries_lt hslot.lt hslot.empty key value
  apply stored_table h hslot.lt
  · simp [hashCell_empty_iff]
  · rintro k v hfull
    cases hfull
    exact hslot.reaches
  · rw [hslot.empty]
    exact zero_add _
  · have hsize := ht.size.isLt
    rw [BitVec.toNat_add, h.used_eq, show (1 : Word).toNat = 1 from rfl, Multiset.card_cons, Nat.mod_eq_of_lt (by omega)]

/-- The search for an empty slot goes round the table. -/
def SeekEmptyRound (ht : Hashtable) : Prop := ∀ p < ht.size.toNat, Taken ht p

section Stops

variable (hfault : ¬ Covered ht → E .page_fault) (hround : SeekEmptyRound ht → E (.panic "hashtable_seek_empty"))
include hfault hround

theorem wp_seekEmptyLoop {h s : Word} {fuel j : Nat} (hh : h.toNat < ht.size.toNat) (hj : 0 < j)
    (hfuel : fuel + j = ht.size.toNat + 1) (hpos : 0 < fuel) (hs : s.toNat = probe ht.size.toNat h.toNat j)
    (hbefore : ∀ i < j, Taken ht (probe ht.size.toNat h.toNat i)) :
    wp (seekEmptyLoop ht h fuel s) (fun r st' => st' = st ∧ (∃ d, r.2 = ht.store r.1 d) ∧
      r.1.toNat < ht.size.toNat ∧ tableCell ht r.1.toNat = .empty ∧
      ∃ i < ht.size.toNat, probe ht.size.toNat h.toNat i = r.1.toNat ∧
        ∀ j < i, Taken ht (probe ht.size.toNat h.toNat j)) E st := by
  induction fuel generalizing j s with
  | zero => omega
  | succ fuel ih =>
    unfold seekEmptyLoop
    split
    · rename_i heq
      refine (wp_throw ..).mpr (hround fun p hp => ?_)
      obtain ⟨i, hi, rfl⟩ := probe_surjective hh hp
      apply hbefore
      rw [heq] at hs
      by_contra hji
      exact probe_ne hh hj (by omega) hs.symm
    · rename_i hne
      have hjn := lt_of_ne_home hh hs hne (by omega)
      have hlt : s.toNat < ht.size.toNat := hs ▸ probe_lt (by omega) j
      rw [wp_bind]
      apply wp_load fun hnone => hfault (not_covered hlt hnone)
      intro d hd
      have hcell := cell_of_entry hd
      obtain ⟨state, k, v⟩ := d
      rw [wp_ite]
      split
      · rename_i hempty
        obtain rfl : state = .Hashdata_Empty := hempty
        exact (wp_pure ..).mpr ⟨rfl, ⟨_, rfl⟩, hlt, hcell, j, hjn, hs.symm, hbefore⟩
      · rename_i hfull
        have hnext : ((s + 1) % ht.size).toNat = probe ht.size.toNat h.toNat (j + 1) := by
          rw [toNat_next hlt, hs, probe_succ]
        refine ih (by omega) (by omega) (by omega) hnext fun i hi => ?_
        rcases Nat.lt_succ_iff_lt_or_eq.mp hi with hi | rfl
        · exact hbefore i hi
        · rw [← hs]
          exact ⟨_, hd, hfull⟩

theorem wp_hashtable_seek_empty (hsize : 0 < ht.size.toNat) (key : Word) :
    wp (hashtable_seek_empty ht key) (fun r st' => st' = st ∧ (∀ d, r.2.store r.1 d = ht.store r.1 d) ∧
      r.2.used = ht.used ∧ NewSlot ht key r.1) E st := by
  have hh := tableHome_lt hsize key
  unfold hashtable_seek_empty
  rw [wp_bind]
  apply wp_load fun hnone => hfault (not_covered hh hnone)
  intro d hd
  have hcell := cell_of_entry hd
  obtain ⟨state, k, v⟩ := d
  rw [wp_ite]
  split
  · rename_i hempty
    obtain rfl : state = .Hashdata_Empty := hempty
    exact (wp_pure ..).mpr ⟨rfl, fun _ => rfl, rfl, hh, hcell, 0, hsize, probe_zero hh, by simp⟩
  · rename_i hfull
    refine wp_imp (wp_seekEmptyLoop hfault hround (j := 1) hh (by omega) rfl hsize (toNat_second hsize key) ?_) ?_
    · intro i hi
      obtain rfl : i = 0 := by omega
      rw [← tableHome, probe_zero hh]
      exact ⟨_, hd, hfull⟩
    · rintro ⟨p, ht'⟩ _ ⟨rfl, ⟨d, hstore⟩, hp, hempty, hreach⟩
      obtain rfl : ht' = ht.store p d := hstore
      exact ⟨rfl, fun d' => store_store ht p d d', rfl, hp, hempty, hreach⟩

theorem wp_putSlot (hsize : 0 < ht.size.toNat) (key value : Word) :
    wp (putSlot ht key value) (fun ht' st' => st' = st ∧ ∃ p, NewSlot ht key p ∧ ht' = putAt ht p key value) E st := by
  unfold putSlot
  rw [wp_bind]
  refine wp_imp (wp_hashtable_seek_empty hfault hround hsize key) ?_
  rintro ⟨p, ht'⟩ _ ⟨rfl, hstore, hused, hslot⟩
  simp only at hstore hused
  simp only [hstore, hused, wp_pure]
  exact ⟨trivial, p, hslot, rfl⟩

end Stops

/-! ## Growth -/

theorem should_grow_iff {size used : Word} (h : used.toNat ≤ size.toNat) :
    should_grow size used = true ↔ size.toNat - used.toNat < size.toNat / 4 := by
  unfold should_grow
  rw [decide_eq_true_iff, BitVec.lt_def, BitVec.toNat_sub_of_le h, BitVec.toNat_udiv]
  rfl

theorem NewSlot.grows_iff {p key : Word} (hslot : NewSlot ht key p) (h : IsHashtable hash comp ht es) (value : Word) :
    should_grow (putAt ht p key value).size (putAt ht p key value).used = true ↔
      ht.size.toNat - (Multiset.card es + 1) < ht.size.toNat / 4 := by
  have h' := hslot.table h value
  have hcard := card_entries_le (putAt ht p key value).size.toNat (tableCell (putAt ht p key value))
  rw [h'.entries_eq, ← h'.used_eq] at hcard
  rw [should_grow_iff hcard, h'.used_eq, Multiset.card_cons]
  rfl

/-- When twice the size does not fit, it is less than the size, and `hashtable_rebalance` stops. -/
theorem double_of_lt {size : Word} (h : size.toNat < (size * 2).toNat) : 2 * size.toNat ≤ (size * 2).toNat := by
  have hlt := size.isLt
  rw [BitVec.toNat_mul, show (2 : Word).toNat = 2 from rfl] at h ⊢
  omega

theorem zeroed_not_full (data bytes k v : Word) (hdata : ht.data = .zeroed data bytes) (p : Nat) :
    tableCell ht p ≠ .full k v := by
  unfold tableCell
  rw [hdata]
  simp only [HashBuffer.zeroed]
  split <;> simp [hashCell]

theorem zeroed_noTombstones {data bytes : Word} (hdata : ht.data = .zeroed data bytes) : NoTombstones ht := by
  intro p d hp
  rw [hdata] at hp
  simp only [HashBuffer.zeroed] at hp
  split at hp
  · cases hp
    simp
  · cases hp

theorem NoTombstones.full_of_taken {p : Nat} (hno : NoTombstones ht) (htaken : Taken ht p) :
    ∃ k v, tableCell ht p = .full k v := by
  obtain ⟨⟨state, k, v⟩, hd, hne⟩ := htaken
  have htomb := hno p _ hd
  cases state with
  | Hashdata_Empty => exact absurd rfl hne
  | Hashdata_Tombstone => exact absurd rfl htomb
  | Hashdata_Full => exact ⟨k, v, cell_of_entry hd⟩

/-- A table of which no entry was ever removed has an empty slot as long as it has fewer entries than slots. -/
theorem NoTombstones.not_round (hno : NoTombstones ht) (h : IsHashtable hash comp ht es)
    (hcard : Multiset.card es < ht.size.toNat) : ¬ SeekEmptyRound ht := by
  intro hround
  have hall := card_entries_of_full fun p hp => hno.full_of_taken (hround p hp)
  rw [h.entries_eq] at hall
  omega

theorem zeroed_table {data bytes : Word} (hhash : ht.hash = hash) (hcomp : ht.comp = comp) (hsize : 0 < ht.size.toNat)
    (hused : ht.used = 0) (hdata : ht.data = .zeroed data bytes) : IsHashtable hash comp ht 0 := by
  have hnot : ∀ p < ht.size.toNat, ∀ k v, tableCell ht p ≠ .full k v :=
    fun p _ k v => zeroed_not_full data bytes k v hdata p
  refine ⟨hhash, hcomp, hsize, placed_of_not_full hnot, entries_of_not_full hnot, ?_⟩
  rw [hused]
  rfl

/-- The entries of the first `i` slots of `ht` are put into `start`, one after the other. -/
inductive Copied (ht start : Hashtable) : Nat → Hashtable → Prop
  | start : Copied ht start 0 start
  | skip {i : Nat} {new : Hashtable} {d : Hashdata} (h : Copied ht start i new) (hd : ht.data.entry i = some d)
    (hstate : d.state ≠ .Hashdata_Full) : Copied ht start (i + 1) new
  | put {i : Nat} {new : Hashtable} {k v p : Word} (h : Copied ht start i new)
    (hd : ht.data.entry i = some ⟨.Hashdata_Full, k, v⟩) (hslot : NewSlot new k p) :
    Copied ht start (i + 1) (putAt new p k v)

section Copied

variable {start new : Hashtable} {i : Nat}

theorem entries_skip {d : Hashdata} (hd : ht.data.entry i = some d) (hstate : d.state ≠ .Hashdata_Full) :
    entries (i + 1) (tableCell ht) = entries i (tableCell ht) := by
  have hentries := entries_succ i (tableCell ht)
  obtain ⟨state, k, v⟩ := d
  rw [cell_of_entry hd] at hentries
  cases state with
  | Hashdata_Empty => simpa [hashCell, Cell.entry] using hentries
  | Hashdata_Tombstone => simpa [hashCell, Cell.entry] using hentries
  | Hashdata_Full => exact absurd rfl hstate

theorem Copied.table (h : Copied ht start i new) (hstart : IsHashtable hash comp start 0) :
    IsHashtable hash comp new (entries i (tableCell ht)) := by
  induction h with
  | start => exact hstart
  | skip _ hd hstate ih =>
    rw [entries_skip hd hstate]
    exact ih
  | put _ hd hslot ih =>
    rw [entries_succ, cell_of_entry hd]
    exact hslot.table ih _

theorem Copied.kept (h : Copied ht start i new) : Kept start new := by
  induction h with
  | start => exact kept_refl start
  | skip _ _ _ ih => exact ih
  | put _ _ _ ih => exact ih.trans (kept_store ..)

theorem Copied.noTombstones (h : Copied ht start i new) (hstart : NoTombstones start) : NoTombstones new := by
  induction h with
  | start => exact hstart
  | skip _ _ _ ih => exact ih
  | put _ _ _ ih => exact ih.store (by simp)

end Copied

/-- The table without entries that `hashtable_rebalance` starts with. -/
def emptied (ht : Hashtable) (new_size data : Word) : Hashtable :=
  { ht with used := 0, size := new_size, data := .zeroed data (new_size * hashdataSize) }

/-- A table with the same entries in a new buffer. -/
def Rebuilt (ht : Hashtable) (new_size data : Word) (new : Hashtable) : Prop :=
  ht.size.toNat < new_size.toNat ∧ Copied ht (emptied ht new_size data) ht.size.toNat new

theorem emptied_table (h : IsHashtable hash comp ht es) {new_size : Word} (hsize : ht.size.toNat < new_size.toNat)
    (data : Word) : IsHashtable hash comp (emptied ht new_size data) 0 :=
  zeroed_table h.hash_eq h.comp_eq (Nat.zero_lt_of_lt hsize) rfl rfl

theorem zeroed_covered {data : Word} (hsize : ht.size.toNat * 24 < 2 ^ 64)
    (hdata : ht.data = .zeroed data (ht.size * hashdataSize)) : Covered ht := by
  intro p hp
  rw [hdata]
  simp only [HashBuffer.zeroed]
  rw [if_pos, Option.isSome_some]
  rw [BitVec.toNat_mul, show hashdataSize.toNat = 24 from rfl, Nat.mod_eq_of_lt hsize, Nat.mul_div_cancel _ (by decide)]
  exact hp

section Rebuilt

variable {new_size data : Word} {new : Hashtable}

theorem Rebuilt.table (hnew : Rebuilt ht new_size data new) (h : IsHashtable hash comp ht es) :
    IsHashtable hash comp new es := by
  have htable := hnew.2.table (emptied_table h hnew.1 data)
  rw [h.entries_eq] at htable
  exact htable

theorem Rebuilt.size (hnew : Rebuilt ht new_size data new) : new.size = new_size := hnew.2.kept.size

theorem Rebuilt.address (hnew : Rebuilt ht new_size data new) : new.data.address = data := hnew.2.kept.address

theorem Rebuilt.covered (hnew : Rebuilt ht new_size data new) (hfits : new_size.toNat * 24 < 2 ^ 64) : Covered new :=
  hnew.2.kept.covered (zeroed_covered hfits rfl)

end Rebuilt

section Stops

variable (hfault : E .page_fault) {kmalloc : Word → Kernel σ Word} {kfree : Word → Kernel σ Unit}
include hfault

/-- A table that is at most half full after the put does not grow. -/
theorem wp_putNested_small (h : IsHashtable hash comp ht es) (hno : NoTombstones ht) (key value : Word) (depth : Nat)
    (hsmall : 2 * (Multiset.card es + 1) ≤ ht.size.toNat) :
    wp (putNested kmalloc kfree (depth + 1) ht key value) (fun r st' => st' = st ∧ r.1 = .Ok ∧
      ∃ p, NewSlot ht key p ∧ r.2 = putAt ht p key value) E st := by
  have hround : SeekEmptyRound ht → E (.panic "hashtable_seek_empty") :=
    fun hround => absurd hround (hno.not_round h (by omega))
  unfold putNested
  rw [wp_bind]
  refine wp_imp (wp_putSlot (fun _ => hfault) hround h.size_pos key value) ?_
  rintro _ _ ⟨rfl, p, hslot, rfl⟩
  rw [if_neg (by rw [hslot.grows_iff h]; omega), wp_pure]
  exact ⟨rfl, rfl, p, hslot, rfl⟩

-- by induction on the number of slots of the old table that are left
theorem wp_rebalanceLoop {start new : Hashtable} {s : Word} {n i : Nat} (depth : Nat) (hi : s.toNat = i)
    (hn : i + n = ht.size.toNat) (hcopied : Copied ht start i new) (hstart : IsHashtable hash comp start 0)
    (hno : NoTombstones start) (hsize : 2 * ht.size.toNat ≤ start.size.toNat) :
    wp (rebalanceLoop (putNested kmalloc kfree (depth + 1)) ht n s new) (fun r st' => st' = st ∧ r.1 = .Ok ∧
      Copied ht start ht.size.toNat r.2) E st := by
  induction n generalizing i s new with
  | zero =>
    obtain rfl : i = ht.size.toNat := by omega
    exact (wp_pure ..).mpr ⟨rfl, rfl, hcopied⟩
  | succ n ih =>
    have hnext : (s + 1).toNat = i + 1 := by
      have hlt := ht.size.isLt
      rw [BitVec.toNat_add, hi, show (1 : Word).toNat = 1 from rfl, Nat.mod_eq_of_lt (by omega)]
    unfold rebalanceLoop
    rw [wp_bind]
    apply wp_load fun _ => hfault
    intro d hd
    rw [hi] at hd
    obtain ⟨state, k, v⟩ := d
    rw [wp_ite]
    cases state with
    | Hashdata_Empty =>
      rw [if_neg (by simp)]
      exact ih hnext (by omega) (hcopied.skip hd (by simp))
    | Hashdata_Tombstone =>
      rw [if_neg (by simp)]
      exact ih hnext (by omega) (hcopied.skip hd (by simp))
    | Hashdata_Full =>
      have hcard := card_entries_le i (tableCell ht)
      have hsmall : 2 * (Multiset.card (entries i (tableCell ht)) + 1) ≤ new.size.toNat := by
        rw [hcopied.kept.size]
        omega
      rw [if_pos (by simp), wp_bind]
      refine wp_imp (wp_putNested_small hfault (hcopied.table hstart) (hcopied.noTombstones hno) k v depth hsmall) ?_
      rintro ⟨status, _⟩ _ ⟨rfl, hok, p, hslot, rfl⟩
      simp only at hok
      simp only [hok, if_true]
      exact ih hnext (by omega) (hcopied.put hd hslot)

/-- A table that is rebuilt with twice the size, or more, has the same entries. The calls of the heap are one `kmalloc`
and, when it returns a buffer, one `kfree` of the old one. -/
theorem wp_hashtable_rebalance (h : IsHashtable hash comp ht es) (depth : Nat) {new_size : Word}
    {Q : Status × Hashtable → σ → Prop} (hsize : ht.size.toNat < new_size.toNat → 2 * ht.size.toNat ≤ new_size.toNat)
    (hpanic : E (.panic "hashtable_rebalance"))
    (hmalloc : ht.size.toNat < new_size.toNat → wp (kmalloc (new_size * hashdataSize)) (fun data st₁ =>
      if data = 0 then Q (.Error_No_Memory, ht) st₁
      else wp (kfree ht.data.address) (fun _ st₂ => ∀ new, Rebuilt ht new_size data new → Q (.Ok, new) st₂) E st₁) E st) :
    wp (hashtable_rebalance kmalloc kfree (putNested kmalloc kfree (depth + 1)) ht new_size) Q E st := by
  unfold hashtable_rebalance
  rw [wp_bind, wp_assert_iff]
  split
  · rename_i hgt
    have hlt : ht.size.toNat < new_size.toNat := hgt
    rw [wp_bind]
    refine wp_imp (hmalloc hlt) ?_
    intro data st₁ hdata
    by_cases hzero : data = 0
    · rw [if_pos hzero] at hdata ⊢
      exact (wp_pure ..).mpr hdata
    rw [if_neg hzero] at hdata
    rw [if_neg hzero, wp_bind]
    have hstart := emptied_table h hlt data
    refine wp_imp (wp_rebalanceLoop hfault depth rfl (Nat.zero_add _) .start hstart (zeroed_noTombstones rfl) (hsize hlt)) ?_
    rintro ⟨status, new⟩ _ ⟨rfl, hok, hcopied⟩
    simp only at hok hcopied
    simp only [hok, ne_eq, not_true_eq_false, if_false]
    rw [wp_bind]
    refine wp_imp hdata ?_
    intro _ st₃ hafter
    have hnew := hcopied.table hstart
    have hsame : { ht with data := new.data, used := new.used, size := new.size } = new := by
      rw [h.hash_eq, h.comp_eq, ← hnew.hash_eq, ← hnew.comp_eq]
    rw [wp_pure, hsame]
    exact hafter new ⟨hlt, hcopied⟩
  · exact hpanic

/-- A put changes the table in its buffer, and may then move it to one of twice the size. It moves only when it is nearly
full. -/
theorem wp_hashtable_put_exact (h : IsHashtable hash comp ht es) (key value : Word) {Q : Status × Hashtable → σ → Prop}
    (hround : SeekEmptyRound ht → E (.panic "hashtable_seek_empty")) (hpanic : E (.panic "hashtable_rebalance"))
    (hsame : ∀ p, NewSlot ht key p → Q (.Ok, putAt ht p key value) st)
    (hgrow : ∀ p, NewSlot ht key p → 3 * ht.size.toNat < 4 * (Multiset.card es + 1) →
      ht.size.toNat < (ht.size * 2).toNat → wp (kmalloc (ht.size * 2 * hashdataSize)) (fun data st₁ =>
        if data = 0 then Q (.Error_No_Memory, putAt ht p key value) st₁
        else wp (kfree ht.data.address) (fun _ st₂ =>
          ∀ new, Rebuilt (putAt ht p key value) (ht.size * 2) data new → Q (.Ok, new) st₂) E st₁) E st) :
    wp (hashtable_put kmalloc kfree ht key value) Q E st := by
  unfold hashtable_put putNested
  rw [wp_bind]
  refine wp_imp (wp_putSlot (fun _ => hfault) hround h.size_pos key value) ?_
  rintro _ _ ⟨rfl, p, hslot, rfl⟩
  have h' := hslot.table h value
  rw [wp_ite]
  split
  · rename_i hgrows
    rw [hslot.grows_iff h] at hgrows
    have hcard := card_entries_lt hslot.lt hslot.empty key value
    rw [h.entries_eq] at hcard
    exact wp_hashtable_rebalance hfault h' 63 double_of_lt hpanic fun hlt => hgrow p hslot (by omega) hlt
  · rw [wp_pure]
    exact hsame p hslot

theorem wp_hashtable_put_memory {F : Prop} (hpanic : E (.panic "hashtable_rebalance"))
    (hmalloc : ∀ bytes s, wp (kmalloc bytes) (fun p _ => p = 0 → F) E s)
    (hfree : ∀ p s, wp (kfree p) (fun _ _ => True) E s) (h : IsHashtable hash comp ht es) (key value : Word)
    (hround : SeekEmptyRound ht → E (.panic "hashtable_seek_empty")) :
    wp (hashtable_put kmalloc kfree ht key value) (fun r _ =>
      (r.1 = .Ok ∧ ht.size.toNat ≤ r.2.size.toNat ∧ IsHashtable hash comp r.2 ((key, value) ::ₘ es)) ∨
        r.1 = .Error_No_Memory ∧ F) E st := by
  refine wp_hashtable_put_exact hfault h key value hround hpanic ?_ ?_
  · intro p hslot
    exact .inl ⟨rfl, le_rfl, hslot.table h value⟩
  · intro p hslot _ hlt
    refine wp_imp (hmalloc _ _) fun data st₁ hdata => ?_
    split
    · exact .inr ⟨rfl, hdata (by assumption)⟩
    · refine wp_imp (hfree _ _) fun _ st₂ _ new hnew => .inl ⟨rfl, ?_, hnew.table (hslot.table h value)⟩
      rw [hnew.size]
      exact hlt.le

theorem wp_hashtable_put (hpanic : E (.panic "hashtable_rebalance"))
    (hmalloc : ∀ bytes s, wp (kmalloc bytes) (fun p _ => p ≠ 0) E s) (hfree : ∀ p s, wp (kfree p) (fun _ _ => True) E s)
    (h : IsHashtable hash comp ht es) (key value : Word) (hround : SeekEmptyRound ht → E (.panic "hashtable_seek_empty")) :
    wp (hashtable_put kmalloc kfree ht key value) (fun r _ => r.1 = .Ok ∧ ht.size.toNat ≤ r.2.size.toNat ∧
      IsHashtable hash comp r.2 ((key, value) ::ₘ es)) E st :=
  wp_imp (wp_hashtable_put_memory (F := False) hfault hpanic hmalloc hfree h key value hround)
    fun _ _ hput => hput.resolve_right And.right

end Stops

/-! ## `hashtable_remove` -/

theorem should_shrink_iff {size used : Word} :
    should_shrink size used = true ↔ used.toNat < size.toNat / 4 ∧ size.toNat < 32 := by
  unfold should_shrink
  rw [Bool.and_eq_true, decide_eq_true_iff, decide_eq_true_iff, BitVec.lt_def, BitVec.lt_def, BitVec.toNat_udiv]
  rfl

variable {kmalloc : Word → Kernel σ Word} {kfree : Word → Kernel σ Unit}

/-- A table cannot become smaller. -/
theorem wp_rebalance_refused {put : Hashtable → Word → Word → Kernel σ (Status × Hashtable)}
    {Q : Status × Hashtable → σ → Prop} {new_size : Word} (hnot : ¬ new_size > ht.size) :
    wp (hashtable_rebalance kmalloc kfree put ht new_size) Q E st ↔ E (.panic "hashtable_rebalance") := by
  unfold hashtable_rebalance
  rw [wp_bind, wp_assert_iff, if_neg hnot]

/-- What `hashtable_remove` does with the slot that the search comes to. -/
theorem wp_hashtable_remove_of_seek {key : Word} {Q : Status × Hashtable → σ → Prop}
    (hseek : wp (hashtable_seek ht key) (fun r st' => match r with
      | none => E .page_fault
      | some p => ∃ k v, tableCell ht p.toNat = .full k v ∧
        if should_shrink ht.size (ht.used - 1) then E (.panic "hashtable_rebalance") else Q (.Ok, removedAt ht p k v) st')
      E st) :
    wp (hashtable_remove kmalloc kfree ht key) Q E st := by
  unfold hashtable_remove
  rw [wp_bind]
  refine wp_imp hseek ?_
  rintro (_ | p) st' hr
  · exact (wp_throw ..).mpr hr
  · obtain ⟨k, v, hfull, hr⟩ := hr
    unfold removeSlot
    simp only [wp_bind, wp_load_full hfull, wp_pure, wp_ite, store_size]
    split at hr
    · rename_i hshrinks
      have hnot : ¬ ht.size / 2 > (removedAt ht p k v).size := by
        rw [gt_iff_lt, BitVec.lt_def, BitVec.toNat_udiv]
        exact Nat.not_lt.mpr (Nat.div_le_self _ _)
      rw [if_pos hshrinks]
      exact (wp_rebalance_refused hnot).mpr hr
    · rename_i hstays
      rw [if_neg hstays]
      exact hr

/-- A table with 32 slots or more is not rebuilt when a key is removed. -/
theorem wp_hashtable_remove_at {key : Word} (hleaves : SeekLeaves ht key → E .page_fault) (fit : Consistent hash comp)
    (h : IsHashtable hash comp ht es) (hbig : 32 ≤ ht.size.toNat)
    (hpresent : ∃ e ∈ es, comp key e.1 = .Partial_Equal) :
    wp (hashtable_remove kmalloc kfree ht key) (fun r st' => r.1 = .Ok ∧ st' = st ∧ ∃ p k v, r.2 = removedAt ht p k v ∧
      Hits ht key (tableHome ht key) 0 p.toNat ∧ tableCell ht p.toNat = .full k v) E st := by
  have hround : SeekRound ht key → E (.panic "hashtable_seek") := fun hround => absurd hround (not_seekRound h hpresent)
  apply wp_hashtable_remove_of_seek
  refine wp_imp (wp_hashtable_seek h hleaves (fun _ _ heq => fit.hash_eq heq) hround) ?_
  rintro (_ | p) _ ⟨rfl, hr, -⟩
  · obtain ⟨e, he, heq⟩ := hpresent
    exact absurd heq (hr e he)
  · obtain ⟨-, k, v, hfull, -⟩ := Hits.found hr
    refine ⟨k, v, hfull, ?_⟩
    rw [if_neg fun hshrinks => absurd (should_shrink_iff.mp hshrinks).2 (Nat.not_lt.mpr hbig)]
    exact ⟨rfl, rfl, p, k, v, rfl, hr, hfull⟩

theorem wp_hashtable_remove {key : Word} (hleaves : SeekLeaves ht key → E .page_fault) (fit : Consistent hash comp)
    (h : IsHashtable hash comp ht es) (hbig : 32 ≤ ht.size.toNat)
    (hpresent : ∃ e ∈ es, comp key e.1 = .Partial_Equal) :
    wp (hashtable_remove kmalloc kfree ht key) (fun r st' => r.1 = .Ok ∧ Kept ht r.2 ∧ st' = st ∧
      ∃ k v es', comp key k = .Partial_Equal ∧ es = (k, v) ::ₘ es' ∧ IsHashtable hash comp r.2 es') E st := by
  refine wp_imp (wp_hashtable_remove_at hleaves fit h hbig hpresent) ?_
  rintro ⟨status, _⟩ _ ⟨hok, rfl, p, k, v, rfl, hits, hfull⟩
  obtain ⟨hp, k', v', hfull', heq⟩ := hits.found
  rw [hfull] at hfull'
  cases hfull'
  obtain ⟨es', hes, htable⟩ := removedAt_table h hp hfull
  exact ⟨hok, kept_store .., rfl, k, v, es', h.comp_eq ▸ heq, hes, htable⟩

/-! ## The finite map -/

section Map

variable {fit : Consistent hash comp} {M : Map fit}

/-- The map has the entries of the table. -/
def Represents (fit : Consistent hash comp) (M : Map fit) (es : Multiset (Word × Word)) : Prop :=
  M.entries = es.map fun e => ⟨classOf fit e.1, e.2⟩

theorem classOf_eq {a b : Word} : classOf fit a = classOf fit b ↔ comp a b = .Partial_Equal := Quotient.eq

theorem represents_mem (h : Represents fit M es) {key : Word} :
    classOf fit key ∈ M ↔ ∃ e ∈ es, comp key e.1 = .Partial_Equal := by
  rw [Finmap.mem_def, h, Multiset.keys, Multiset.map_map, Multiset.mem_map]
  constructor
  · rintro ⟨e, he, heq⟩
    exact ⟨e, he, classOf_eq.mp heq.symm⟩
  · rintro ⟨e, he, heq⟩
    exact ⟨e, he, (classOf_eq.mpr heq).symm⟩

theorem represents_lookup (h : Represents fit M es) {key k v : Word} (hmem : (k, v) ∈ es)
    (heq : comp key k = .Partial_Equal) : M.lookup (classOf fit key) = some v := by
  rw [Finmap.lookup_eq_some_iff, h, classOf_eq.mpr heq]
  exact Multiset.mem_map_of_mem _ hmem

theorem represents_card (h : Represents fit M es) : M.keys.card = Multiset.card es := by
  rw [Finmap.keys, Finset.card_mk, Multiset.keys, Multiset.card_map, h, Multiset.card_map]

theorem represents_empty : Represents fit ∅ 0 := rfl

theorem represents_insert (h : Represents fit M es) {key : Word} (habsent : classOf fit key ∉ M) (value : Word) :
    Represents fit (M.insert (classOf fit key) value) ((key, value) ::ₘ es) := by
  unfold Represents at *
  rw [Finmap.entries_insert_of_notMem habsent, h, Multiset.map_cons]

theorem represents_erase {key k v : Word} (h : Represents fit M ((k, v) ::ₘ es)) (heq : comp key k = .Partial_Equal) :
    Represents fit (M.erase (classOf fit key)) es := by
  have hentries : M.entries = ⟨classOf fit k, v⟩ ::ₘ es.map fun e => ⟨classOf fit e.1, e.2⟩ := by
    rw [h, Multiset.map_cons]
  have hnodup := Multiset.nodup_keys.mpr M.nodupKeys
  rw [hentries, Multiset.keys_cons, Multiset.nodup_cons] at hnodup
  -- without the entry it is a map from which the first is made by an insertion
  let M' : Map fit := ⟨es.map fun e => ⟨classOf fit e.1, e.2⟩, Multiset.nodup_keys.mp hnodup.2⟩
  have hnot : classOf fit k ∉ M' := hnodup.1
  have hM : M = M'.insert (classOf fit k) v :=
    Finmap.ext (by rw [hentries, Finmap.entries_insert_of_notMem hnot])
  have herase : M.erase (classOf fit key) = M' := by
    refine Finmap.ext_lookup fun x => ?_
    rw [hM, classOf_eq.mpr heq]
    by_cases hx : x = classOf fit k
    · rw [hx, Finmap.lookup_erase, Finmap.lookup_eq_none.mpr hnot]
    · rw [Finmap.lookup_erase_ne hx, Finmap.lookup_insert_of_ne _ hx]
  rw [herase]
  rfl

end Map

/-! ## Runs -/

section Run

variable {fit : Consistent hash comp} {M : Map fit} {size : Word}

theorem init_eq {s s' : σ} (hrun : (hashtable_init kmalloc kfree size hash comp).run s = .ok (some ht, s')) :
    ∃ data, ht = ⟨0, size, hash, comp, .zeroed data (size * hashdataSize)⟩ := by
  have hwp : wp (hashtable_init kmalloc kfree size hash comp) (fun r _ => ∀ ht, r = some ht →
      ∃ data, ht = ⟨0, size, hash, comp, .zeroed data (size * hashdataSize)⟩) (fun _ => True) s := by
    unfold hashtable_init
    rw [wp_bind]
    refine wp_any (fun table s₁ => ?_) fun _ => trivial
    rw [wp_ite]
    split
    · rw [wp_pure]
      exact fun _ h => absurd h (by simp)
    · rw [wp_bind]
      refine wp_any (fun data s₂ => ?_) fun _ => trivial
      rw [wp_ite]
      split
      · rw [wp_bind]
        refine wp_any (fun _ s₃ => ?_) fun _ => trivial
        rw [wp_pure]
        exact fun _ h => absurd h (by simp)
      · rw [wp_pure]
        rintro _ ⟨⟩
        exact ⟨data, rfl⟩
  exact wp_ok hwp hrun ht rfl

theorem init_table {s s' : σ} (hsize : 0 < size.toNat)
    (hrun : (hashtable_init kmalloc kfree size hash comp).run s = .ok (some ht, s')) :
    ht.size = size ∧ IsHashtable hash comp ht 0 ∧ (size.toNat * 24 < 2 ^ 64 → Covered ht) := by
  obtain ⟨data, rfl⟩ := init_eq hrun
  exact ⟨rfl, zeroed_table rfl rfl hsize rfl rfl, fun hfits => zeroed_covered hfits rfl⟩

theorem neverFails_wp (hmalloc : NeverFails kmalloc) (bytes : Word) (s : σ) :
    wp (kmalloc bytes) (fun p _ => p ≠ 0) (fun _ => True) s :=
  wp_partial.mpr (hmalloc bytes s)

theorem wp_kfree_any (kfree : Word → Kernel σ Unit) (p : Word) (s : σ) :
    wp (kfree p) (fun _ _ => True) (fun _ => True) s :=
  wp_any (fun _ _ => trivial) fun _ => trivial

/-- The table has the entries of the map, and has not become smaller. -/
theorem run_table (hmalloc : NeverFails kmalloc) (hsize : 32 ≤ size.toNat) (hrun : MapRun fit kmalloc kfree size ht M) :
    32 ≤ ht.size.toNat ∧ ∃ es, IsHashtable hash comp ht es ∧ Represents fit M es := by
  have hmalloc' := neverFails_wp hmalloc
  have hfree := wp_kfree_any kfree
  induction hrun with
  | init hrun =>
    obtain ⟨heq, htable, -⟩ := init_table (by omega) hrun
    exact ⟨by rw [heq]; exact hsize, 0, htable, represents_empty⟩
  | put _ habsent _ hrun ih =>
    obtain ⟨hbig, es, htable, hmap⟩ := ih
    obtain ⟨-, hle, htable'⟩ := wp_ok (wp_hashtable_put trivial trivial hmalloc' hfree htable _ _ fun _ => trivial) hrun
    exact ⟨hbig.trans hle, _, htable', represents_insert hmap habsent _⟩
  | remove _ hpresent hrun ih =>
    obtain ⟨hbig, es, htable, hmap⟩ := ih
    have hmem := (represents_mem hmap).mp hpresent
    obtain ⟨-, hkept, -, k, v, es', hkey, rfl, htable'⟩ :=
      wp_ok (wp_hashtable_remove (E := fun _ => True) (fun _ => trivial) fit htable hbig hmem) hrun
    exact ⟨by rw [hkept.size]; exact hbig, es', htable', represents_erase hmap hkey⟩

/-- The hash table refines a finite map, across all growths: `hashtable_get` returns the value of the key,
or NULL when there is none, and `used` is the number of keys. The two other operations never fail. -/
theorem hashtable_refines_map (hmalloc : NeverFails kmalloc) (hsize : 32 ≤ size.toNat)
    (hrun : MapRun fit kmalloc kfree size ht M) :
    (∀ key (s : σ) value s', (hashtable_get ht key).run s = .ok (value, s') →
      value = (M.lookup (classOf fit key)).getD 0) ∧
    ht.used.toNat = M.keys.card ∧
    (∀ key value s status ht' s', (hashtable_put kmalloc kfree ht key value).run s = .ok ((status, ht'), s') →
      status = .Ok) ∧
    ∀ key, classOf fit key ∈ M → ∀ s status ht' s',
      (hashtable_remove kmalloc kfree ht key).run s = .ok ((status, ht'), s') → status = .Ok := by
  have hmalloc' := neverFails_wp hmalloc
  have hfree := wp_kfree_any kfree
  obtain ⟨hbig, es, htable, hmap⟩ := run_table hmalloc hsize hrun
  refine ⟨?_, ?_, ?_, ?_⟩
  · intro key s value s' hget
    obtain ⟨-, hresult⟩ := wp_ok (wp_hashtable_get (E := fun _ => True) htable (fun _ => trivial) (fun _ _ heq => fit.hash_eq heq)
      fun _ => trivial) hget
    rcases hresult with ⟨k, hmem, heq⟩ | ⟨rfl, hnone⟩
    · rw [represents_lookup hmap hmem heq, Option.getD_some]
    · have habsent : classOf fit key ∉ M := by
        rw [represents_mem hmap]
        rintro ⟨e, he, heq⟩
        exact hnone e he heq
      rw [Finmap.lookup_eq_none.mpr habsent, Option.getD_none]
  · rw [htable.used_eq, represents_card hmap]
  · intro key value s status ht' s' hput
    exact (wp_ok (wp_hashtable_put trivial trivial hmalloc' hfree htable key value fun _ => trivial) hput).1
  · intro key hmem s status ht' s' hremove
    have hpresent := (represents_mem hmap).mp hmem
    exact (wp_ok (wp_hashtable_remove (E := fun _ => True) (fun _ => trivial) fit htable hbig hpresent) hremove).1

end Run

/-! ## A table of words -/

def wordComp (a b : Word) : Partial := if a = b then .Partial_Equal else .Partial_Not_Equal

theorem wordFit : Consistent id wordComp := by
  have heq : ∀ a b, wordComp a b = .Partial_Equal ↔ a = b := by
    intro a b
    unfold wordComp
    split <;> simp_all
  refine ⟨⟨fun a => (heq a a).mpr rfl, fun {a b} h => ?_, fun {a b c} h h' => ?_⟩, fun {a b} h => (heq a b).mp h⟩
  · exact (heq b a).mpr ((heq a b).mp h).symm
  · exact (heq a c).mpr (((heq a b).mp h).trans ((heq b c).mp h'))

def oneBuffer (_ : Word) : Kernel Unit Word := pure 0x1000

def keepBuffer (_ : Word) : Kernel Unit Unit := pure ()

def wordTable : Hashtable := ⟨0, 32, id, wordComp, .zeroed 0x1000 (32 * hashdataSize)⟩

theorem wordTable_refines_map : ∃ (ht : Hashtable) (M : Map wordFit), MapRun wordFit oneBuffer keepBuffer 32 ht M ∧
    M.lookup (classOf wordFit 5) = some 7 ∧ (hashtable_get ht 5).run () = .ok (7, ()) ∧
    ht.used.toNat = M.keys.card := by
  have hinit : MapRun wordFit oneBuffer keepBuffer 32 wordTable ∅ := .init (s := ()) rfl
  have hput : (hashtable_put oneBuffer keepBuffer wordTable 5 7).run () =
      .ok ((.Ok, { wordTable.store 5 ⟨.Hashdata_Full, 5, 7⟩ with used := 1 }), ()) := rfl
  have hrun := hinit.put Finmap.notMem_empty (by decide) hput
  have hmalloc : NeverFails oneBuffer := by
    intro _ _ _ _ h
    cases h
    decide
  exact ⟨_, _, hrun, Finmap.lookup_insert _, rfl, (hashtable_refines_map hmalloc (by decide) hrun).2.1⟩

end KernelOfTruth.Hashtables
