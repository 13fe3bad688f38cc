import KernelOfTruth.PageStack
import KernelOfTruth.Spec.BootMemory

/-!
# What `insert_regions` gives to the allocator

The calls for one entry of the memory map are worked out for each page: the inner loop passes the regions
before the entry, carves out the first region that the entry contains, and then goes from region to region
with an end that stays where the first step has put it.
-/

open KernelOfTruth.Lib KernelOfTruth.Code KernelOfTruth.Spec KernelOfTruth.Rules KernelOfTruth.Bits KernelOfTruth.PageStack

namespace KernelOfTruth.BootMemory

variable {E : Halt → Prop} {calls : List PageRange} {f : Word}

/-! ## Calls -/

/-- How often the page `f` has been given to the allocator. -/
noncomputable def given (calls : List PageRange) (f : Word) : Nat := layers PageRange.pages (calls : Multiset PageRange) f

theorem given_append (calls calls' : List PageRange) (f : Word) : given (calls ++ calls') f = given calls f + given calls' f := by
  unfold given
  rw [← Multiset.coe_add, layers_add]

@[simp] theorem given_nil (f : Word) : given [] f = 0 := by simp [given]

theorem given_one {r : PageRange} (hf : f.toNat % 4096 = 0) :
    given [r] f = if r.start.toNat ≤ f.toNat ∧ f.toNat < r.start.toNat + r.length.toNat then 1 else 0 := by
  unfold given
  rw [Multiset.coe_singleton]
  split
  · exact layers_singleton_of_mem (mem_pages.mpr ⟨hf, by assumption⟩)
  · rename_i hnot
    exact layers_singleton_of_not_mem fun hmem => hnot (mem_pages.mp hmem).2

/-- The call for the memory from `a` to `b`, when there is some. -/
def span (a b : Word) : List PageRange := if a < b then [⟨a, b - a⟩] else []

theorem given_span {a b : Word} (hf : f.toNat % 4096 = 0) :
    given (span a b) f = if a.toNat ≤ f.toNat ∧ f.toNat < b.toNat then 1 else 0 := by
  unfold span
  split
  · rename_i hlt
    rw [BitVec.lt_def] at hlt
    rw [given_one hf, BitVec.toNat_sub_of_le (BitVec.le_def.mpr hlt.le), Nat.add_sub_of_le hlt.le]
  · rename_i hge
    rw [BitVec.lt_def] at hge
    rw [given_nil, if_neg (by omega)]

theorem wp_recordFree {a l : Word} {Q : Unit → List PageRange → Prop} :
    wp (recordFree a l) Q E calls ↔ Q () (calls ++ [⟨a, l⟩]) := by
  unfold recordFree
  exact wp_modify ..

theorem wp_span {α : Type} {a b : Word} {p : Prop} [Decidable p] (hp : p ↔ a < b) {k : Kernel (List PageRange) α}
    {Q : α → List PageRange → Prop} :
    wp (if p then (do recordFree a (b - a); k) else k) Q E calls ↔ wp k Q E (calls ++ span a b) := by
  unfold span
  by_cases hlt : a < b
  · rw [if_pos (hp.mpr hlt), if_pos hlt, wp_bind, wp_recordFree]
  · rw [if_neg fun h => hlt (hp.mp h), if_neg hlt, List.append_nil]

/-! ## Regions -/

theorem contains_iff {a b c d : Word} : physical_region_contains a b c d = true ↔
    (a.toNat < c.toNat ∧ c.toNat < b.toNat) ∨ (a.toNat < d.toNat ∧ d.toNat < b.toNat) := by
  simp [physical_region_contains, BitVec.lt_def]

/-- Regions with memory in them, in the order of their addresses. -/
structure Sorted (rs : List ReservedRegion) : Prop where
  nonempty : ∀ r ∈ rs, r.start.toNat < r.end_.toNat
  apart : rs.Pairwise fun r r' => r.end_.toNat ≤ r'.start.toNat

variable {r n : ReservedRegion} {rs : List ReservedRegion}

theorem Sorted.tail (h : Sorted (r :: rs)) : Sorted rs :=
  ⟨fun r' hr' => h.nonempty r' (List.mem_cons_of_mem _ hr'), (List.pairwise_cons.mp h.apart).2⟩

theorem Sorted.head (h : Sorted (r :: rs)) : r.start.toNat < r.end_.toNat := h.nonempty r (List.mem_cons_self ..)

theorem Sorted.after (h : Sorted (r :: rs)) {r' : ReservedRegion} (hr' : r' ∈ rs) : r.end_.toNat ≤ r'.start.toNat :=
  (List.pairwise_cons.mp h.apart).1 r' hr'

theorem Sorted.begins (h : Sorted (r :: rs)) : ∀ r' ∈ r :: rs, r.start.toNat ≤ r'.start.toNat := by
  intro r' hr'
  rcases List.mem_cons.mp hr' with rfl | hr'
  · exact le_rfl
  · exact (h.head.trans_le (h.after hr')).le

/-- The page is in none of the regions. -/
def Clear (rs : List ReservedRegion) (f : Word) : Prop := ∀ r ∈ rs, ¬ inRegion r f

instance (rs : List ReservedRegion) (f : Word) : Decidable (Clear rs f) := inferInstanceAs (Decidable (∀ r ∈ rs, _))

theorem clear_cons : Clear (r :: rs) f ↔ ¬ inRegion r f ∧ Clear rs f := by simp [Clear]

theorem clear_of_before {b : Nat} (hb : ∀ r ∈ rs, b ≤ r.start.toNat) (hf : f.toNat < b) : Clear rs f := by
  intro r hr hin
  have := hb r hr
  have := hin.1
  omega

/-- No region that begins at the end of memory or after it is contained in it. -/
theorem not_contains_of_after (addr : Word) {stop : Word} (h : Sorted rs) (hstop : ∀ r ∈ rs, stop.toNat ≤ r.start.toNat) :
    ∀ r ∈ rs, physical_region_contains addr stop r.start r.end_ = false := by
  intro r hr
  have h1 := hstop r hr
  have h2 := h.nonempty r hr
  rw [← Bool.not_eq_true, contains_iff]
  omega

theorem carveLoop_skip {addr len : Word} {inserted : Bool}
    (h : ∀ r ∈ rs, physical_region_contains addr (addr + len) r.start r.end_ = false) :
    carveLoop recordFree rs addr len inserted = pure (addr, len, inserted) := by
  induction rs with
  | nil => rfl
  | cons r rs ih =>
    unfold carveLoop
    rw [if_neg (by simp [h r]), ih fun r' hr' => h r' (List.mem_cons_of_mem _ hr')]

/-! ## One region -/

section Carve

variable {addr len : Word} {inserted : Bool} {Q : Word × Word × Bool → List PageRange → Prop}

/-- A region in the entry, and the next one is in it as well. -/
theorem wp_carveLoop_next (hr : physical_region_contains addr (addr + len) r.start r.end_)
    (hn : physical_region_contains addr (addr + len) n.start n.end_) (hle : r.end_.toNat ≤ n.start.toNat) :
    wp (carveLoop recordFree (r :: n :: rs) addr len inserted) Q E calls ↔
      wp (carveLoop recordFree (n :: rs) n.start (len - (n.start - r.start)) true) Q E
        (calls ++ span addr r.start ++ span r.end_ n.start) := by
  have hne : r.end_ ≠ n.start ↔ r.end_ < n.start := by
    rw [BitVec.lt_def, Nat.lt_iff_le_and_ne, ne_eq, ne_eq, BitVec.toNat_inj]
    exact ⟨fun h => ⟨hle, h⟩, fun h => h.2⟩
  rw [carveLoop, if_pos hr, wp_bind]
  unfold carveRegion
  simp only [List.head?_cons, Option.filter_some, hn, if_true]
  rw [wp_span Iff.rfl, wp_span hne, wp_pure]

/-- A region in the entry, and no more of them. -/
theorem wp_carveLoop_last (hr : physical_region_contains addr (addr + len) r.start r.end_)
    (hrs : ∀ r' ∈ rs, physical_region_contains addr (addr + len) r'.start r'.end_ = false) :
    wp (carveLoop recordFree (r :: rs) addr len inserted) Q E calls ↔
      Q (addr, len, true) (calls ++ span addr r.start ++ span r.end_ (addr + len)) := by
  have hnone : rs.head?.filter (fun n => physical_region_contains addr (addr + len) n.start n.end_) = none := by
    rw [Option.filter_eq_none_iff]
    intro n hn
    simp [hrs n (List.mem_of_head? hn)]
  rw [carveLoop, if_pos hr, wp_bind]
  unfold carveRegion
  simp only [hnone]
  rw [wp_span Iff.rfl, wp_span Iff.rfl, wp_pure, carveLoop_skip hrs, wp_pure]

/-- The last region that begins in what is left of an entry. -/
theorem wp_carveLoop_rest_last (hf : f.toNat % 4096 = 0) (h : Sorted (r :: rs))
    (hrs : ∀ r' ∈ rs, (r.start + len).toNat ≤ r'.start.toNat) :
    wp (carveLoop recordFree (r :: rs) r.start len true)
      (fun left calls' => left.2.2 = true ∧ given calls' f = given calls f +
        if r.start.toNat ≤ f.toNat ∧ f.toNat < (r.start + len).toNat ∧ Clear (r :: rs) f then 1 else 0)
      E calls := by
  have hr := h.head
  have hclear : f.toNat < (r.start + len).toNat → Clear rs f := clear_of_before hrs
  have hout := not_contains_of_after r.start h.tail hrs
  by_cases hin : r.end_.toNat < (r.start + len).toNat
  · rw [wp_carveLoop_last (contains_iff.mpr (.inr ⟨hr, hin⟩)) hout]
    refine ⟨rfl, ?_⟩
    rw [given_append, given_append, given_span hf, given_span hf]
    simp only [clear_cons, inRegion]
    split_ifs <;> grind
  · have hskip : ∀ r' ∈ r :: rs, physical_region_contains r.start (r.start + len) r'.start r'.end_ = false := by
      rw [List.forall_mem_cons, ← Bool.not_eq_true, contains_iff]
      exact ⟨by omega, hout⟩
    rw [carveLoop_skip hskip, wp_pure]
    refine ⟨rfl, ?_⟩
    simp only [clear_cons, inRegion]
    rw [if_neg (by omega), Nat.add_zero]

/-- After the first region the entry begins with a region, and what is left is carved as it should be. -/
theorem wp_carveLoop_rest (hf : f.toNat % 4096 = 0) (h : Sorted (r :: rs)) :
    wp (carveLoop recordFree (r :: rs) r.start len true)
      (fun left calls' => left.2.2 = true ∧ given calls' f = given calls f +
        if r.start.toNat ≤ f.toNat ∧ f.toNat < (r.start + len).toNat ∧ Clear (r :: rs) f then 1 else 0)
      E calls := by
  induction rs generalizing r len calls with
  | nil => exact wp_carveLoop_rest_last hf h (by simp)
  | cons n rs ih =>
    have hr := h.head
    have hn := h.tail.head
    have hle := h.after (List.mem_cons_self ..)
    by_cases hin : n.start.toNat < (r.start + len).toNat
    · have hstop : n.start + (len - (n.start - r.start)) = r.start + len := by bv_omega
      have hclear : f.toNat < n.start.toNat → Clear (n :: rs) f := clear_of_before h.tail.begins
      rw [wp_carveLoop_next (contains_iff.mpr (.inr ⟨hr, by omega⟩)) (contains_iff.mpr (.inl ⟨by omega, hin⟩)) hle]
      refine wp_imp (ih h.tail) ?_
      rintro left calls' ⟨hleft, hgiven⟩
      refine ⟨hleft, ?_⟩
      rw [hgiven, hstop, given_append, given_append, given_span hf, given_span hf]
      simp only [clear_cons (r := r), inRegion]
      split_ifs <;> grind
    · refine wp_carveLoop_rest_last hf h fun r' hr' => ?_
      have := h.tail.begins r' hr'
      omega

end Carve

/-! ## One entry -/

section Entry

variable {x : MultibootMmapEntry}

/-- The region begins or ends strictly inside of the entry. -/
def within (x : MultibootMmapEntry) (r : ReservedRegion) : Bool :=
  physical_region_contains x.addr (x.addr + x.len) r.start r.end_

theorem entryEnd_eq (hx : entryEnd x < 2 ^ 64) : (x.addr + x.len).toNat = entryEnd x := by
  rw [BitVec.toNat_add]
  exact Nat.mod_eq_of_lt hx

theorem within_iff (hx : entryEnd x < 2 ^ 64) : within x r = true ↔
    (x.addr.toNat < r.start.toNat ∧ r.start.toNat < entryEnd x) ∨ (x.addr.toNat < r.end_.toNat ∧ r.end_.toNat < entryEnd x) := by
  rw [within, contains_iff, entryEnd_eq hx]

/-- `carvedEnd` for any regions. -/
def endIn (rs : List ReservedRegion) (x : MultibootMmapEntry) : Nat :=
  match rs.filter (within x) with
  | r :: n :: _ => max n.start.toNat ((entryEnd x - x.addr.toNat + r.start.toNat) % 2 ^ 64)
  | _ => entryEnd x

theorem endIn_out (hr : within x r = false) : endIn (r :: rs) x = endIn rs x := by
  simp [endIn, hr]

theorem endIn_none (hrs : ∀ r ∈ rs, within x r = false) : endIn rs x = entryEnd x := by
  have hnil : rs.filter (within x) = [] := List.filter_eq_nil_iff.mpr (by simpa using hrs)
  rw [endIn, hnil]

theorem endIn_last (hr : within x r) (hrs : ∀ r ∈ rs, within x r = false) : endIn (r :: rs) x = entryEnd x := by
  have hnil : rs.filter (within x) = [] := List.filter_eq_nil_iff.mpr (by simpa using hrs)
  rw [endIn, List.filter_cons_of_pos hr, hnil]

theorem endIn_next (hr : within x r) (hn : within x n) :
    endIn (r :: n :: rs) x = max n.start.toNat ((entryEnd x - x.addr.toNat + r.start.toNat) % 2 ^ 64) := by
  rw [endIn, List.filter_cons_of_pos hr, List.filter_cons_of_pos hn]

/-- One of the regions has the whole entry, which is not empty. -/
def Covered (rs : List ReservedRegion) (x : MultibootMmapEntry) : Prop :=
  0 < x.len.toNat ∧ ∃ r ∈ rs, r.start.toNat ≤ x.addr.toNat ∧ entryEnd x ≤ r.end_.toNat

instance (rs : List ReservedRegion) (x : MultibootMmapEntry) : Decidable (Covered rs x) := inferInstanceAs (Decidable (_ ∧ _))

/-- How often the page is given to the allocator for the entry. -/
def share (rs : List ReservedRegion) (x : MultibootMmapEntry) (f : Word) : Nat :=
  if Covered rs x then (if inEntry x (entryEnd x) f then 1 else 0)
  else if inEntry x (endIn rs x) f ∧ Clear rs f then 1 else 0

/-- A region that ends before the entry makes no difference. -/
theorem share_before (hx : entryEnd x < 2 ^ 64) (hr : r.start.toNat < r.end_.toNat) (hle : r.end_.toNat ≤ x.addr.toNat) :
    share (r :: rs) x f = share rs x f := by
  have hout : within x r = false := by
    rw [← Bool.not_eq_true, within_iff hx]
    omega
  have hcovered : Covered (r :: rs) x ↔ Covered rs x := by
    simp only [Covered, List.exists_mem_cons_iff, entryEnd]
    grind
  have hclear : inEntry x (endIn rs x) f ∧ Clear (r :: rs) f ↔ inEntry x (endIn rs x) f ∧ Clear rs f := by
    simp only [clear_cons, inEntry, inRegion]
    grind
  simp only [share, hcovered, endIn_out hout, hclear]

/-- No region is in the entry: all of it is given, be it covered or free of regions. -/
theorem share_whole (hrs : ∀ r ∈ rs, within x r = false) (h : Covered rs x ∨ (inEntry x (entryEnd x) f → Clear rs f)) :
    share rs x f = if inEntry x (entryEnd x) f then 1 else 0 := by
  unfold share
  rw [endIn_none hrs]
  split
  · rfl
  · rename_i hnot
    simp only [and_iff_left_of_imp (h.resolve_left hnot)]

theorem not_covered_of_within (hx : entryEnd x < 2 ^ 64) (h : Sorted (r :: rs)) (hr : within x r) : ¬ Covered (r :: rs) x := by
  rintro ⟨hlen, r', hr', hstart, hend⟩
  rw [within_iff hx] at hr
  have := h.head
  rcases List.mem_cons.mp hr' with rfl | hr'
  · omega
  · have := h.after hr'
    omega

theorem wp_insertEntry_whole (hf : f.toNat % 4096 = 0)
    (hrs : ∀ r ∈ rs, within x r = false) (h : Covered rs x ∨ (inEntry x (entryEnd x) f → Clear rs f)) :
    wp (do
        let (addr, len, inserted) ← carveLoop recordFree rs x.addr x.len false
        if inserted then pure () else recordFree addr len)
      (fun _ calls' => given calls' f = given calls f + share rs x f) E calls := by
  rw [carveLoop_skip hrs, wp_bind, wp_pure]
  simp only [Bool.false_eq_true, if_false]
  rw [wp_recordFree, given_append, given_one hf, share_whole hrs h]
  rfl

theorem wp_insertEntry_within (hf : f.toNat % 4096 = 0) (hx : entryEnd x < 2 ^ 64) (h : Sorted (r :: rs))
    (hr : within x r) :
    wp (carveLoop recordFree (r :: rs) x.addr x.len false)
      (fun left calls' => left.2.2 = true ∧ given calls' f = given calls f + share (r :: rs) x f) E calls := by
  have hcov := not_covered_of_within hx h hr
  have hw := (within_iff hx).mp hr
  have hne := h.head
  have hend := entryEnd_eq hx
  -- Either the next region begins in the entry, or no other region does.
  have hsplit : (∀ r' ∈ rs, entryEnd x ≤ r'.start.toNat) ∨ ∃ n rs', rs = n :: rs' ∧ n.start.toNat < entryEnd x := by
    cases rs with
    | nil => exact .inl (by simp)
    | cons n rs' =>
      by_cases hn : n.start.toNat < entryEnd x
      · exact .inr ⟨n, rs', rfl, hn⟩
      · exact .inl fun r' hr' => (Nat.le_of_not_lt hn).trans (h.tail.begins r' hr')
  rcases hsplit with hrs | ⟨n, rs', rfl, hn⟩
  · have hout : ∀ r' ∈ rs, within x r' = false := not_contains_of_after x.addr h.tail (by rwa [hend])
    have hclear : f.toNat < entryEnd x → Clear rs f := clear_of_before hrs
    rw [wp_carveLoop_last hr hout]
    refine ⟨rfl, ?_⟩
    rw [given_append, given_append, given_span hf, given_span hf, hend, share, if_neg hcov, endIn_last hr hout]
    simp only [clear_cons, inRegion, inEntry]
    split_ifs <;> grind
  · have hle := h.after (List.mem_cons_self ..)
    have hwn : within x n := (within_iff hx).mpr (.inl ⟨by omega, hn⟩)
    have hclear : f.toNat < n.start.toNat → Clear (n :: rs') f := clear_of_before h.tail.begins
    have hstop : (n.start + (x.len - (n.start - r.start))).toNat =
        (entryEnd x - x.addr.toNat + r.start.toNat) % 2 ^ 64 := by
      have hsum : n.start + (x.len - (n.start - r.start)) = x.len + r.start := by bv_omega
      rw [hsum, BitVec.toNat_add, entryEnd, Nat.add_sub_cancel_left]
    rw [wp_carveLoop_next hr hwn hle]
    refine wp_imp (wp_carveLoop_rest hf h.tail) ?_
    rintro left calls' ⟨hleft, hgiven⟩
    refine ⟨hleft, ?_⟩
    rw [hgiven, hstop, given_append, given_append, given_span hf, given_span hf, share, if_neg hcov, endIn_next hr hwn]
    simp only [clear_cons (r := r), inRegion, inEntry]
    split_ifs <;> grind

theorem wp_carveEntry (hf : f.toNat % 4096 = 0) (hx : entryEnd x < 2 ^ 64) (h : Sorted rs) :
    wp (do
        let (addr, len, inserted) ← carveLoop recordFree rs x.addr x.len false
        if inserted then pure () else recordFree addr len)
      (fun _ calls' => given calls' f = given calls f + share rs x f) E calls := by
  induction rs with
  | nil => exact wp_insertEntry_whole hf (by simp) (.inr fun _ => by simp [Clear])
  | cons r rs ih =>
    have hne := h.head
    by_cases hr : within x r
    · rw [wp_bind]
      refine wp_imp (wp_insertEntry_within hf hx h hr) ?_
      rintro ⟨addr, len, inserted⟩ calls' ⟨hins, hgiven⟩
      simp only at hins
      subst hins
      exact (wp_pure ..).mpr hgiven
    · have hout := (within_iff hx).not.mp hr
      by_cases hle : r.end_.toNat ≤ x.addr.toNat
      · have hskip : carveLoop recordFree (r :: rs) x.addr x.len false = carveLoop recordFree rs x.addr x.len false := by
          rw [carveLoop]
          exact if_neg hr
        rw [share_before hx hne hle, hskip]
        exact ih h.tail
      -- The region has the whole entry or is after it, and all others are after it.
      · have hafter : ∀ r' ∈ rs, entryEnd x ≤ r'.start.toNat := by
          intro r' hr'
          have := h.after hr'
          omega
        refine wp_insertEntry_whole hf ?_ ?_
        · rw [List.forall_mem_cons]
          exact ⟨Bool.eq_false_iff.mpr hr, not_contains_of_after x.addr h.tail (by rwa [entryEnd_eq hx])⟩
        · by_cases hcov : 0 < x.len.toNat ∧ r.start.toNat ≤ x.addr.toNat
          · exact .inl ⟨hcov.1, r, List.mem_cons_self .., hcov.2, by unfold entryEnd at *; omega⟩
          · refine .inr fun hin => clear_cons.mpr ⟨?_, clear_of_before hafter hin.2⟩
            unfold inEntry entryEnd inRegion at *
            omega

end Entry

/-! ## All entries -/

theorem wp_insertEntries {mmap : List MultibootMmapEntry} (hf : f.toNat % 4096 = 0)
    (hx : ∀ x ∈ mmap, entryEnd x < 2 ^ 64) (h : Sorted rs) :
    wp (insertEntries recordFree rs mmap)
      (fun _ calls' => given calls' f = given calls f +
        ((mmap.filter fun x => x.type = MULTIBOOT_MEMORY_AVAILABLE).map (share rs · f)).sum)
      E calls := by
  induction mmap generalizing calls with
  | nil => exact (wp_pure ..).mpr (by simp)
  | cons x mmap ih =>
    obtain ⟨hx, hmmap⟩ := List.forall_mem_cons.mp hx
    rw [insertEntries, wp_bind, insertEntry, wp_ite]
    by_cases havail : x.type = MULTIBOOT_MEMORY_AVAILABLE
    · rw [if_pos havail]
      refine wp_imp (wp_carveEntry hf hx h) fun _ calls' hgiven => wp_imp (ih hmmap) fun _ calls'' hrest => ?_
      rw [hrest, hgiven, List.filter_cons_of_pos (by simpa using havail), List.map_cons, List.sum_cons, Nat.add_assoc]
    · rw [if_neg havail, wp_pure, List.filter_cons_of_neg (by simpa using havail)]
      exact ih hmmap

theorem sum_share_of_clear {entries : List MultibootMmapEntry} (hcov : ∀ x ∈ entries, ¬ Covered rs x) (hf : Clear rs f) :
    (entries.map (share rs · f)).sum = entries.countP fun x => inEntry x (endIn rs x) f := by
  induction entries with
  | nil => rfl
  | cons x entries ih =>
    obtain ⟨hx, hentries⟩ := List.forall_mem_cons.mp hcov
    rw [List.map_cons, List.sum_cons, List.countP_cons, ih hentries, share, if_neg hx, Nat.add_comm]
    simp [hf]

theorem sum_share_of_not_clear {entries : List MultibootMmapEntry} (hcov : ∀ x ∈ entries, ¬ Covered rs x) (hf : ¬ Clear rs f) :
    (entries.map (share rs · f)).sum = 0 := by
  rw [List.sum_eq_zero_iff_forall_eq_nat]
  intro k hk
  obtain ⟨x, hx, rfl⟩ := List.mem_map.mp hk
  rw [share, if_neg (hcov x hx), if_neg fun h => hf h.2]

/-- Entries that are apart: a page is in one of them at most. -/
theorem countP_inEntry {entries : List MultibootMmapEntry} (h : entries.Pairwise fun x y => entryEnd x ≤ y.addr.toNat) :
    entries.countP (fun x => inEntry x (entryEnd x) f) = if ∃ x ∈ entries, inEntry x (entryEnd x) f then 1 else 0 := by
  induction entries with
  | nil => simp
  | cons x entries ih =>
    obtain ⟨hx, hentries⟩ := List.pairwise_cons.mp h
    rw [List.countP_cons, ih hentries]
    simp only [List.exists_mem_cons_iff]
    by_cases hin : inEntry x (entryEnd x) f
    · have hnone : ¬ ∃ y ∈ entries, inEntry y (entryEnd y) f := by
        rintro ⟨y, hy, hiny⟩
        have := hx y hy
        have := hin.2
        have := hiny.1
        omega
      simp [hin, hnone]
    · simp [hin]

section Boot

variable {img : KernelImage} {info : MultibootInfo}

theorem sorted_regions (h : BootTablesValid img info) : Sorted (reservedRegions img info) :=
  ⟨h.region_nonempty, h.regions_apart⟩

/-- The list of modules has a region of its own, or is in the boot map. -/
theorem clear_iff (h : BootTablesValid img info) : Clear (reservedRegions img info) f ↔ ¬ Reserved img info f := by
  have hmods : (∀ r ∈ info.mods.map moduleRegion, ¬ inRegion r f) ↔ ¬ ∃ mod ∈ info.mods, inRegion (moduleRegion mod) f := by
    simp
  unfold Clear Reserved reservedRegions
  rw [List.forall_mem_append, hmods, not_or, not_or]
  split
  · rename_i hin
    obtain ⟨hstart, hend⟩ := h.list_inside hin
    have hlist : inRegion (modsList info) f → inRegion (bootMap img) f := fun hf => ⟨hstart.trans hf.1, hf.2.trans_le hend⟩
    simp only [List.forall_mem_singleton]
    tauto
  · split <;> simp only [List.forall_mem_cons, List.not_mem_nil, false_implies, implies_true, and_true] <;> tauto

theorem available_apart (h : BootTablesValid img info) : (available info).Pairwise fun x y => entryEnd x ≤ y.addr.toNat :=
  h.entries_apart.filter _

/-- Unaligned addresses are in no call. -/
theorem given_of_unaligned (hf : f.toNat % 4096 ≠ 0) : given calls f = 0 := by
  rw [← Nat.le_zero, ← Nat.not_lt, given, layers_pos]
  rintro ⟨r, _, hr⟩
  exact hf (mem_pages.mp hr).1

theorem mem_usable : f ∈ usable img info ↔
    f.toNat % 4096 = 0 ∧ (∃ x ∈ available info, inEntry x (entryEnd x) f) ∧ ¬ Reserved img info f := by
  rw [usable, Set.mem_ofPred_eq, is_aligned_iff]

theorem not_covered (h : CarvesRight img info) : ∀ x ∈ available info, ¬ Covered (reservedRegions img info) x :=
  fun x hx ⟨hlen, r, hr, hcover⟩ => h.uncovered x hx hlen r hr hcover

section Exact

variable (h : BootTablesValid img info)
  (hcalls : ∀ f, f.toNat % 4096 = 0 → given calls f = ((available info).map (share (reservedRegions img info) · f)).sum)
include h hcalls

/-- The first page of a covered entry is reserved, and the allocator gets it. -/
theorem carvesRight_of_tiles (htiles : Tiles PageRange.pages (calls : Multiset PageRange) (usable img info)) :
    CarvesRight img info := by
  rw [tiles_iff_layers] at htiles
  have huncovered : ∀ x ∈ available info, ¬ Covered (reservedRegions img info) x := by
    rintro x hx ⟨hlen, r, hr, hstart, hend⟩
    have hal : x.addr.toNat % 4096 = 0 := (is_aligned_iff _).mp (h.entry_aligned x (List.mem_of_mem_filter hx)).1
    have hin : inEntry x (entryEnd x) x.addr := ⟨le_rfl, by unfold entryEnd; omega⟩
    have hunusable : x.addr ∉ usable img info := fun hmem =>
      (clear_iff h).mpr (mem_usable.mp hmem).2.2 r hr ⟨hstart, hin.2.trans_le hend⟩
    have hzero : given calls x.addr = 0 := (htiles x.addr).2 hunusable
    rw [hcalls _ hal, List.sum_eq_zero_iff_forall_eq_nat] at hzero
    have hshare := hzero _ (List.mem_map_of_mem hx)
    rw [share, if_pos ⟨hlen, r, hr, hstart, hend⟩, if_pos hin] at hshare
    exact Nat.one_ne_zero hshare
  refine ⟨fun x hx hlen r hr hcover => huncovered x hx ⟨hlen, r, hr, hcover⟩, fun f hf hres => ?_⟩
  have hal := (is_aligned_iff _).mp hf
  have hgiven := hcalls f hal
  rw [sum_share_of_clear huncovered ((clear_iff h).mpr hres)] at hgiven
  rw [countP_inEntry (available_apart h)]
  refine hgiven.symm.trans ?_
  split
  · exact (htiles f).1 (mem_usable.mpr ⟨hal, by assumption, hres⟩)
  · rename_i hnot
    exact (htiles f).2 fun hmem => hnot (mem_usable.mp hmem).2.1

theorem tiles_of_carvesRight (hright : CarvesRight img info) :
    Tiles PageRange.pages (calls : Multiset PageRange) (usable img info) := by
  rw [tiles_iff_layers]
  intro f
  change (_ → given calls f = 1) ∧ (_ → given calls f = 0)
  rw [mem_usable]
  by_cases hal : f.toNat % 4096 = 0
  · rw [hcalls f hal]
    by_cases hres : Reserved img info f
    · rw [sum_share_of_not_clear (not_covered hright) (mt (clear_iff h).mp (not_not_intro hres))]
      exact ⟨fun hmem => absurd hres hmem.2.2, fun _ => rfl⟩
    · have hsame := hright.same f ((is_aligned_iff _).mpr hal) hres
      rw [countP_inEntry (available_apart h)] at hsame
      rw [sum_share_of_clear (not_covered hright) ((clear_iff h).mpr hres)]
      refine ⟨fun hmem => hsame.trans (if_pos hmem.2.1), fun hmem => hsame.trans (if_neg ?_)⟩
      exact fun hin => hmem ⟨hal, hin, hres⟩
  · rw [given_of_unaligned hal]
    exact ⟨fun hmem => absurd hmem.1 hal, fun _ => rfl⟩

end Exact

variable {map_range : Word → Word → Nat → Word → Kernel (List PageRange) Status}
  {unmap_range : Word → Nat → Bool → Kernel (List PageRange) Unit}

theorem wp_insert_regions (h : BootTablesValid img info)
    (hmap : ∀ virt phys pages perms calls, (map_range virt phys pages perms).run calls = .ok (.Ok, calls))
    (hunmap : ∀ virt pages free calls, (unmap_range virt pages free).run calls = .ok ((), calls))
    (hf : f.toNat % 4096 = 0) :
    wp (insert_regions img recordFree map_range unmap_range info)
      (fun _ calls' => given calls' f =
        given calls f + ((available info).map (share (reservedRegions img info) · f)).sum) E calls := by
  have hentries : wp (insertEntries recordFree (reservedRegions img info) info.mmap) _ E calls :=
    wp_insertEntries hf h.entry_fits (sorted_regions h)
  unfold insert_regions
  rw [wp_ite]
  split
  · exact hentries
  · rw [wp_bind, wp_of_run (hmap ..), wp_bind, wp_assert_decide rfl, wp_bind]
    refine wp_imp hentries fun _ calls' hgiven => ?_
    rwa [wp_of_run (hunmap ..)]

end Boot

/-! ## Two boots -/

/-- A list of modules in the boot map and a module after it. -/
def bootWith (mmap : List MultibootMmapEntry) : MultibootInfo :=
  ⟨0x2010, [⟨0x800000, 0x801000⟩], mmap⟩

theorem bootWith_regions (mmap : List MultibootMmapEntry) :
    reservedRegions linkedImage (bootWith mmap) = [bootMap linkedImage, ⟨0x800000, 0x801000⟩] :=
  show reservedRegions linkedImage (bootWith []) = _ by decide

theorem bootWith_valid {mmap : List MultibootMmapEntry}
    (haligned : ∀ x ∈ mmap, is_aligned x.addr Page_Small ∧ is_aligned x.len Page_Small)
    (hfits : ∀ x ∈ mmap, entryEnd x < 2 ^ 64) (hapart : mmap.Pairwise fun x y => entryEnd x ≤ y.addr.toNat) :
    BootTablesValid linkedImage (bootWith mmap) where
  entry_aligned := haligned
  entry_fits := hfits
  entries_apart := hapart
  region_aligned := by rw [bootWith_regions]; decide
  region_nonempty := by rw [bootWith_regions]; decide
  regions_apart := by rw [bootWith_regions]; decide
  list_inside := fun _ => show Boot_Map_Start.toNat ≤ (modsList (bootWith [])).start.toNat ∧
    (modsList (bootWith [])).end_.toNat ≤ (Boot_Map_End linkedImage).toNat by decide

/-- Memory that begins before the boot map and ends before the module. -/
def lowMemory : MultibootMmapEntry := ⟨0, 0x800000, MULTIBOOT_MEMORY_AVAILABLE⟩

theorem lowMemory_carvesRight : CarvesRight linkedImage (bootWith [lowMemory]) where
  uncovered := by
    rw [bootWith_regions]
    decide
  same := fun f _ _ => rfl

/-- One page of available memory, the first one of the kernel. -/
def kernelPage : MultibootMmapEntry := ⟨Kernel_Physical_Start, Page_Small, MULTIBOOT_MEMORY_AVAILABLE⟩

end KernelOfTruth.BootMemory
