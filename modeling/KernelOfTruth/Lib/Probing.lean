import Mathlib.Algebra.BigOperators.Group.Finset.Piecewise
import Mathlib.Algebra.Order.BigOperators.Group.Finset
import Mathlib.Algebra.BigOperators.Group.Multiset.Defs
import Mathlib.Algebra.Order.Group.Multiset
import Mathlib.Data.Nat.ModEq

/-!
# Tables with linear probing

A table has `n` cells, and the search for a key `k` starts at the cell `home k` and goes round the table.
`Placed` is the invariant on which the search rests: on the way from the home of a key to its cell, no
cell is empty. `entries` are all pairs of a key and a value in the table.
-/

namespace KernelOfTruth.Lib

variable {κ ν : Type} {n : Nat} {home : κ → Nat}

inductive Cell (κ ν : Type)
  | empty
  | deleted
  | full (k : κ) (v : ν)

/-- Cell number `j` of the way that starts at `h`. -/
def probe (n h j : Nat) : Nat := (h + j) % n

theorem probe_lt {h : Nat} (hn : 0 < n) (j : Nat) : probe n h j < n := Nat.mod_lt _ hn

theorem probe_zero {h : Nat} (hh : h < n) : probe n h 0 = h := Nat.mod_eq_of_lt hh

theorem probe_succ (n h j : Nat) : probe n h (j + 1) = (probe n h j + 1) % n := by
  unfold probe
  rw [Nat.mod_add_mod, Nat.add_assoc]

theorem probe_ne {h j : Nat} (hh : h < n) (hj : 0 < j) (hjn : j < n) : probe n h j ≠ h := by
  unfold probe
  rcases Nat.lt_or_ge (h + j) n with hlt | hge
  · rw [Nat.mod_eq_of_lt hlt]
    omega
  · rw [Nat.mod_eq_sub_mod hge, Nat.mod_eq_of_lt (by omega)]
    omega

theorem probe_round {h : Nat} (hh : h < n) : probe n h n = h := by
  unfold probe
  rw [Nat.add_mod_right, Nat.mod_eq_of_lt hh]

theorem probe_surjective {h p : Nat} (hh : h < n) (hp : p < n) : ∃ j < n, probe n h j = p := by
  unfold probe
  rcases Nat.lt_or_ge p h with hlt | hge
  · refine ⟨p + n - h, by omega, ?_⟩
    rw [show h + (p + n - h) = p + n by omega, Nat.add_mod_right, Nat.mod_eq_of_lt hp]
  · refine ⟨p - h, by omega, ?_⟩
    rw [show h + (p - h) = p by omega, Nat.mod_eq_of_lt hp]

/-! ## Where a key is -/

/-- The search from `h` comes to the cell `p` before it comes to an empty cell. -/
def Reaches (n : Nat) (cell : Nat → Cell κ ν) (h p : Nat) : Prop :=
  ∃ j, j < n ∧ probe n h j = p ∧ ∀ i < j, cell (probe n h i) ≠ .empty

def Placed (n : Nat) (home : κ → Nat) (cell : Nat → Cell κ ν) : Prop :=
  ∀ p < n, ∀ k v, cell p = .full k v → Reaches n cell (home k) p

variable {cell : Nat → Cell κ ν}

theorem placed_of_not_full (h : ∀ p < n, ∀ k v, cell p ≠ .full k v) : Placed n home cell :=
  fun p hp k v hfull => absurd hfull (h p hp k v)

theorem Reaches.update {h p q : Nat} {c : Cell κ ν} (hr : Reaches n cell h p) (hc : c ≠ .empty) :
    Reaches n (Function.update cell q c) h p := by
  obtain ⟨j, hj, hp, hbefore⟩ := hr
  refine ⟨j, hj, hp, fun i hi => ?_⟩
  by_cases hq : probe n h i = q
  · rw [hq, Function.update_self]
    exact hc
  · rw [Function.update_of_ne hq]
    exact hbefore i hi

/-- A cell that becomes full is reached from the home of its key, and no cell becomes empty. -/
theorem Placed.update {q : Nat} {c : Cell κ ν} (h : Placed n home cell) (hc : c ≠ .empty)
    (hq : ∀ k v, c = .full k v → Reaches n cell (home k) q) : Placed n home (Function.update cell q c) := by
  intro p hp k v hfull
  apply Reaches.update _ hc
  by_cases hpq : p = q
  · subst hpq
    rw [Function.update_self] at hfull
    exact hq k v hfull
  · rw [Function.update_of_ne hpq] at hfull
    exact h p hp k v hfull

/-- The search for a key finds it before it comes to an empty cell. -/
theorem Placed.before_empty {p j : Nat} {k : κ} {v : ν} (h : Placed n home cell) (hp : p < n)
    (hfull : cell p = .full k v) (hempty : cell (probe n (home k) j) = .empty) :
    ∃ i, i < j ∧ probe n (home k) i = p := by
  obtain ⟨i, -, hi, hbefore⟩ := h p hp k v hfull
  refine ⟨i, ?_, hi⟩
  rcases Nat.lt_trichotomy i j with hlt | rfl | hgt
  · exact hlt
  · rw [hi, hfull] at hempty
    cases hempty
  · exact absurd hempty (hbefore j hgt)

/-! ## What a table has -/

def Cell.entry : Cell κ ν → Multiset (κ × ν)
  | .full k v => {(k, v)}
  | _ => 0

def entries (n : Nat) (cell : Nat → Cell κ ν) : Multiset (κ × ν) := ∑ p ∈ Finset.range n, (cell p).entry

@[simp] theorem entries_zero : entries 0 cell = 0 := rfl

theorem entries_succ (n : Nat) (cell : Nat → Cell κ ν) : entries (n + 1) cell = (cell n).entry + entries n cell := by
  unfold entries
  rw [Finset.sum_range_succ, add_comm]

theorem Cell.mem_entry {c : Cell κ ν} {e : κ × ν} : e ∈ c.entry ↔ c = .full e.1 e.2 := by
  cases c with
  | empty => simp [Cell.entry]
  | deleted => simp [Cell.entry]
  | full k v =>
    simp only [Cell.entry, Multiset.mem_singleton, Cell.full.injEq]
    exact ⟨fun h => by simp [h], fun ⟨hk, hv⟩ => by rw [hk, hv]⟩

theorem mem_entries {e : κ × ν} : e ∈ entries n cell ↔ ∃ p < n, cell p = .full e.1 e.2 := by
  unfold entries
  rw [Multiset.mem_sum]
  simp only [Finset.mem_range, Cell.mem_entry]

theorem entries_of_not_full (h : ∀ p < n, ∀ k v, cell p ≠ .full k v) : entries n cell = 0 := by
  rw [Multiset.eq_zero_iff_forall_notMem]
  intro e he
  obtain ⟨p, hp, hfull⟩ := mem_entries.mp he
  exact h p hp _ _ hfull

theorem sum_update {M : Type} [AddCommMonoid M] (g : Cell κ ν → M) (cell : Nat → Cell κ ν) {q : Nat} (hq : q < n)
    (c : Cell κ ν) :
    g (cell q) + ∑ p ∈ Finset.range n, g (Function.update cell q c p) = g c + ∑ p ∈ Finset.range n, g (cell p) := by
  have hmem : q ∈ Finset.range n := Finset.mem_range.mpr hq
  have hcongr : (fun p => g (Function.update cell q c p)) = Function.update (fun p => g (cell p)) q (g c) := by
    funext p
    by_cases hp : p = q
    · rw [hp, Function.update_self, Function.update_self]
    · rw [Function.update_of_ne hp, Function.update_of_ne hp]
  rw [hcongr, Finset.sum_update_of_mem hmem, ← Finset.add_sum_erase _ _ hmem, Finset.sdiff_singleton_eq_erase]
  exact add_left_comm _ _ _

theorem entries_update (cell : Nat → Cell κ ν) {q : Nat} (hq : q < n) (c : Cell κ ν) :
    (cell q).entry + entries n (Function.update cell q c) = c.entry + entries n cell := sum_update Cell.entry cell hq c

theorem Cell.card_entry_le (c : Cell κ ν) : Multiset.card c.entry ≤ 1 := by
  cases c <;> simp [Cell.entry]

theorem card_entries_le (n : Nat) (cell : Nat → Cell κ ν) : Multiset.card (entries n cell) ≤ n := by
  induction n with
  | zero => simp
  | succ n ih =>
    have hone := (cell n).card_entry_le
    rw [entries_succ, Multiset.card_add]
    omega

/-- As long as there is an empty cell, there are fewer entries than cells. -/
theorem card_entries_lt {q : Nat} (hq : q < n) (hempty : cell q = .empty) (k : κ) (v : ν) :
    Multiset.card (entries n cell) < n := by
  have hupdate := congrArg Multiset.card (entries_update cell hq (.full k v))
  have hle := card_entries_le n (Function.update cell q (.full k v))
  simp only [hempty, Cell.entry, zero_add, Multiset.card_add, Multiset.card_singleton] at hupdate
  omega

theorem card_entries_of_full (h : ∀ p < n, ∃ k v, cell p = .full k v) : Multiset.card (entries n cell) = n := by
  induction n with
  | zero => simp
  | succ n ih =>
    obtain ⟨k, v, hfull⟩ := h n (Nat.lt_succ_self n)
    rw [entries_succ, hfull, Multiset.card_add, ih fun p hp => h p (Nat.lt_succ_of_lt hp)]
    exact Nat.add_comm 1 n

/-! ## Empty cells -/

def Cell.free : Cell κ ν → Nat
  | .empty => 1
  | _ => 0

/-- The number of empty cells. -/
def freeCells (n : Nat) (cell : Nat → Cell κ ν) : Nat := ∑ p ∈ Finset.range n, (cell p).free

theorem freeCells_update (cell : Nat → Cell κ ν) {q : Nat} (hq : q < n) (c : Cell κ ν) :
    (cell q).free + freeCells n (Function.update cell q c) = c.free + freeCells n cell := sum_update Cell.free cell hq c

theorem freeCells_of_empty (h : ∀ p < n, cell p = .empty) : freeCells n cell = n := by
  unfold freeCells
  rw [Finset.sum_congr rfl fun p hp => by rw [h p (Finset.mem_range.mp hp)]]
  simp [Cell.free]

theorem exists_free_ne (q : Nat) (h : 2 ≤ freeCells n cell) : ∃ p < n, p ≠ q ∧ cell p = .empty := by
  by_contra hnone
  have hle : freeCells n cell ≤ ∑ p ∈ Finset.range n, if p = q then 1 else 0 := by
    refine Finset.sum_le_sum fun p hp => ?_
    split
    · cases cell p <;> simp [Cell.free]
    · rename_i hne
      cases hcell : cell p with
      | empty => exact absurd ⟨p, Finset.mem_range.mp hp, hne, hcell⟩ hnone
      | deleted => exact le_rfl
      | full k v => exact le_rfl
  have hone : (∑ p ∈ Finset.range n, if p = q then 1 else 0) ≤ 1 := by
    rw [Finset.sum_ite_eq']
    split <;> omega
  omega

/-! ## The order of a search -/

theorem probe_injective {h i j : Nat} (hi : i < n) (hj : j < n) (heq : probe n h i = probe n h j) : i = j :=
  (Nat.ModEq.add_left_cancel' h heq).eq_of_lt_of_lt hi hj

/-- The value of a cell, if its key is looked for. -/
def Cell.find (same : κ → Bool) : Cell κ ν → Option ν
  | .full k v => if same k then some v else none
  | _ => none

/-- All values that are looked for, in the order in which the search from `h` comes to them. -/
def found (n : Nat) (cell : Nat → Cell κ ν) (same : κ → Bool) (h : Nat) : List ν :=
  (List.range n).filterMap fun j => (cell (probe n h j)).find same

variable {same : κ → Bool} {h j : Nat} {c : Cell κ ν}

/-- A search from the first cell comes to the cells in their order. -/
theorem found_zero : found n cell same 0 = (List.range n).filterMap fun p => (cell p).find same := by
  refine List.filterMap_congr fun p hp => ?_
  rw [probe, Nat.zero_add, Nat.mod_eq_of_lt (List.mem_range.mp hp)]

theorem found_eq_nil (hh : h < n) : found n cell same h = [] ↔ ∀ p < n, (cell p).find same = none := by
  rw [found, List.filterMap_eq_nil_iff]
  constructor
  · intro hnone p hp
    obtain ⟨j, hj, rfl⟩ := probe_surjective hh hp
    exact hnone j (List.mem_range.mpr hj)
  · exact fun hnone j _ => hnone _ (probe_lt (Nat.zero_lt_of_lt hh) j)

theorem found_split (hj : j < n) : found n cell same h =
    (List.range j).filterMap (fun i => (cell (probe n h i)).find same) ++ (((cell (probe n h j)).find same).toList ++
      (List.range' (j + 1) (n - (j + 1))).filterMap fun i => (cell (probe n h i)).find same) := by
  have hrange : List.range n = List.range j ++ j :: List.range' (j + 1) (n - (j + 1)) := by
    have happend : List.range' 0 j ++ List.range' (0 + j) (n - (j + 1) + 1) = _ := List.range'_append_1
    rw [Nat.zero_add, show j + (n - (j + 1) + 1) = n by omega] at happend
    rw [List.range_eq_range', List.range_eq_range', ← List.range'_succ, happend]
  unfold found
  rw [hrange, List.filterMap_append, List.filterMap_cons]
  cases (cell (probe n h j)).find same <;> rfl

theorem found_update (hj : j < n) : found n (Function.update cell (probe n h j) c) same h =
    (List.range j).filterMap (fun i => (cell (probe n h i)).find same) ++ ((c.find same).toList ++
      (List.range' (j + 1) (n - (j + 1))).filterMap fun i => (cell (probe n h i)).find same) := by
  have hother : ∀ i < n, i ≠ j → Function.update cell (probe n h j) c (probe n h i) = cell (probe n h i) :=
    fun i hi hij => Function.update_of_ne (fun heq => hij (probe_injective hi hj heq)) c cell
  rw [found_split hj, Function.update_self]
  congr 1
  · refine List.filterMap_congr fun i hi => ?_
    have hij := List.mem_range.mp hi
    rw [hother i (by omega) (by omega)]
  · congr 1
    refine List.filterMap_congr fun i hi => ?_
    have hij := List.mem_range'_1.mp hi
    rw [hother i (by omega) (by omega)]

/-- A value that is put behind all others is found last. -/
theorem found_put (hj : j < n) (hempty : cell (probe n h j) = .empty)
    (hafter : ∀ i, j < i → i < n → (cell (probe n h i)).find same = none) :
    found n (Function.update cell (probe n h j) c) same h = found n cell same h ++ (c.find same).toList := by
  have hnil : ((List.range' (j + 1) (n - (j + 1))).filterMap fun i => (cell (probe n h i)).find same) = [] := by
    refine List.filterMap_eq_nil_iff.mpr fun i hi => ?_
    have hij := List.mem_range'_1.mp hi
    exact hafter i (by omega) (by omega)
  rw [found_update hj, found_split hj, hnil, hempty]
  simp [Cell.find]

/-- The value that is found first is taken out. -/
theorem found_remove {v : ν} (hj : j < n) (hbefore : ∀ i < j, (cell (probe n h i)).find same = none)
    (hfound : (cell (probe n h j)).find same = some v) (hc : c.find same = none) :
    found n cell same h = v :: found n (Function.update cell (probe n h j) c) same h := by
  have hnil : ((List.range j).filterMap fun i => (cell (probe n h i)).find same) = [] :=
    List.filterMap_eq_nil_iff.mpr fun i hi => hbefore i (List.mem_range.mp hi)
  rw [found_update hj, found_split hj, hnil, hfound, hc]
  rfl

/-- A cell that does not matter for the search is written. -/
theorem found_update_other {q : Nat} (hc : c.find same = (cell q).find same) :
    found n (Function.update cell q c) same h = found n cell same h := by
  refine List.filterMap_congr fun i _ => ?_
  by_cases hq : probe n h i = q
  · rw [hq, Function.update_self, hc]
  · rw [Function.update_of_ne hq]

end KernelOfTruth.Lib
