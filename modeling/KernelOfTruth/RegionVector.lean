import KernelOfTruth.Spec.RegionVector

/-! # A region vector is a multiset of ranges -/

open KernelOfTruth.Lib KernelOfTruth.Code KernelOfTruth.Spec

namespace KernelOfTruth.Regions

/-! ## One node -/

section Node

variable {v : RegionVector} {p : Region → Bool} {i : Nat}

theorem find_some (h : v.find p = some i) : i < v.regions_used ∧ p (v.regions i) := by
  unfold RegionVector.find at h
  have hmem := List.mem_of_find?_eq_some h
  have hp := List.find?_some h
  rw [List.mem_range] at hmem
  exact ⟨by omega, hp⟩

theorem find_none (hle : v.regions_used ≤ regions_count) (h : v.find p = none) :
    ∀ r ∈ held v, ¬ p r := by
  intro r hr
  obtain ⟨i, hi, rfl⟩ := mem_bag.mp hr
  unfold RegionVector.find at h
  exact List.find?_eq_none.mp h i (List.mem_range.mpr (by omega))

theorem find?_heldList (hle : v.regions_used ≤ regions_count) : (heldList v).find? p = (v.find p).map v.regions := by
  unfold heldList RegionVector.find
  rw [List.find?_map, Nat.min_eq_left hle]
  rfl

theorem region_mem_held (h : i < v.regions_used) : v.regions i ∈ held v := mem_bag.mpr ⟨i, h, rfl⟩

/-- The branch for an exact fit is never taken, because an exact fit is never chosen. -/
theorem takeFront_eq {size : Word} (h : size < (v.regions i).size) :
    v.takeFront i size = v.set i ⟨(v.regions i).address + size, (v.regions i).size - size⟩ := by
  have hne : (v.regions i).size - size ≠ 0 := by
    intro h0
    rw [BitVec.lt_def] at h
    have := congrArg BitVec.toNat h0
    rw [BitVec.toNat_sub_of_le (by rw [BitVec.le_def]; omega)] at this
    simp at this
    omega
  unfold RegionVector.takeFront
  exact if_neg hne

end Node

/-! ## The ranges in their order -/

theorem inOrder_cons (N : Nodes) (a : Word) (as : List Word) :
    inOrder N (a :: as) = (N a).elim [] heldList ++ inOrder N as := rfl

theorem inOrder_eq (N : Nodes) (as : List Word) : (inOrder N as : Multiset Region) = ranges N as := by
  induction as with
  | nil => rfl
  | cons a as ih =>
    rw [inOrder_cons, ← Multiset.coe_add, ih]
    unfold ranges
    rw [contents_cons]
    cases N a <;> rfl

theorem mem_inOrder {N : Nodes} {as : List Word} {r : Region} : r ∈ inOrder N as ↔ r ∈ ranges N as := by
  rw [← inOrder_eq, Multiset.mem_coe]

theorem firstFit_none {N : Nodes} {as : List Word} {size : Word} :
    firstFit N as size = none ↔ ∀ r ∈ ranges N as, r.size ≤ size := by
  simp [firstFit, mem_inOrder]

theorem bytesOf_cut {r : Region} {size : Word} (hlt : size < r.size) (hfits : r.address.toNat + r.size.toNat ≤ 2 ^ 64) :
    bytesOf r = bytesOf ⟨r.address, size⟩ ∪ bytesOf ⟨r.address + size, r.size - size⟩ ∧
      Disjoint (bytesOf ⟨r.address, size⟩) (bytesOf ⟨r.address + size, r.size - size⟩) := by
  rw [BitVec.lt_def] at hlt
  have hadd : (r.address + size).toNat = r.address.toNat + size.toNat := by
    rw [BitVec.toNat_add]; omega
  have hsub : (r.size - size).toNat = r.size.toNat - size.toNat :=
    BitVec.toNat_sub_of_le (by rw [BitVec.le_def]; omega)
  constructor
  · ext x
    simp only [bytesOf, Set.mem_ofPred_eq, Set.mem_union, hadd, hsub]
    omega
  · rw [Set.disjoint_left]
    rintro x ⟨-, h1⟩ ⟨h2, -⟩
    simp only [hadd] at h1 h2
    omega

/-! ## Addresses of nodes -/

section Vector

variable {N N' : Nodes} {vect : Word} {pages : List Word}

theorem nodup_length_le {as : List Word} (h : as.Nodup) : as.length ≤ maxNodes := by
  have hmap : (as.map BitVec.toNat).Nodup :=
    h.map fun a b hab => BitVec.eq_of_toNat_eq hab
  have hsub : as.map BitVec.toNat ⊆ List.range (2 ^ 64) := by
    intro n hn
    obtain ⟨a, -, rfl⟩ := List.mem_map.mp hn
    exact List.mem_range.mpr a.isLt
  have := (List.subperm_of_subset hmap hsub).length_le
  simpa [maxNodes] using this

theorem vector_head (h : IsVector N vect pages) : vect ∈ pages ∧ vect ≠ 0 := by
  have hseg := h.linked
  cases pages with
  | nil => exact (h.nonempty rfl).elim
  | cons a pages =>
    obtain ⟨rfl, hne, -⟩ := hseg
    exact ⟨by simp, hne⟩

theorem vector_single {v : RegionVector} (hv : N vect = some v) (hne : vect ≠ 0) (hnext : v.next = 0)
    (hused : v.regions_used = 0) : IsVector N vect [vect] ∧ ranges N [vect] = 0 := by
  refine ⟨⟨⟨rfl, hne, v, hv, hnext⟩, by simp, by simp, ?_⟩, by simp [ranges, hv, held, hused, bag]⟩
  intro a ha w hw
  rw [List.mem_singleton.mp ha, hv] at hw
  cases hw
  omega

/-- The vector after one of its nodes has changed, and not the link of the node. -/
theorem vector_update (h : IsVector N vect pages) {a : Word} {v w : RegionVector} (hv : N a = some v)
    (hnext : w.next = v.next) (hused : w.regions_used ≤ regions_count) :
    IsVector (Function.update N a (some w)) vect pages := by
  refine ⟨segment_update h.linked hv hnext, h.nonempty, h.nodup, ?_⟩
  intro b hb u hu
  by_cases hba : b = a
  · subst hba
    rw [Function.update_self] at hu
    cases hu
    exact hused
  · rw [Function.update_of_ne hba] at hu
    exact h.used_le b hb u hu

theorem frame_update {a : Word} (ha : a ∈ pages) (w : RegionVector) :
    Frame N (Function.update N a (some w)) pages pages := by
  refine ⟨fun b hb _ => Function.update_of_ne ?_ _ _, fun b hb => .inl hb⟩
  rintro rfl
  exact hb ha

/-- A vector with its nodes elsewhere stays as it is. -/
theorem vector_frame {vect' : Word} {pages' as : List Word} (h : IsVector N vect' as)
    (hframe : Frame N N' pages pages') (hdisj : as.Disjoint pages) :
    IsVector N' vect' as ∧ ranges N' as = ranges N as ∧ as.Disjoint pages' := by
  have hnode : ∀ a ∈ as, N a ≠ none ∧ N' a = N a := by
    intro a ha
    obtain ⟨-, v, hv⟩ := segment_node h.linked ha
    have hne : N a ≠ none := by rw [hv]; simp
    exact ⟨hne, hframe.others a (fun hp => hdisj ha hp) hne⟩
  refine ⟨⟨segment_congr h.linked ?_, h.nonempty, h.nodup, ?_⟩, contents_congr fun a ha => (hnode a ha).2, ?_⟩
  · intro a ha v hv
    exact ⟨v, by rw [(hnode a ha).2, hv], rfl⟩
  · intro a ha v hv
    rw [(hnode a ha).2] at hv
    exact h.used_le a ha v hv
  · intro a ha hp
    rcases hframe.fresh a hp with hold | hnone
    · exact hdisj ha hold
    · exact (hnode a ha).1 hnone

theorem update_used {a p : Word} {u v : RegionVector} {as : List Word}
    (h : ∀ b ∈ as, ∀ v, N b = some v → v.regions_used ≤ regions_count) (hu : N p = some u) (ha : a ∈ as)
    {q : Word} (hv : Function.update N p (some { u with next := q }) a = some v) :
    v.regions_used ≤ regions_count := by
  by_cases hap : a = p
  · subst hap
    rw [Function.update_self] at hv
    cases hv
    exact h a ha u hu
  · rw [Function.update_of_ne hap] at hv
    exact h a ha v hv

theorem vector_extend {xs : List Word} {prev p : Word} {u w : RegionVector}
    (h : IsVector N vect (xs ++ [prev])) (hu : N prev = some u) (hp : p ≠ 0) (hfresh : N p = none)
    (hnext : w.next = 0) (hused : w.regions_used ≤ regions_count)
    (hN : N' = Function.update (Function.update N prev (some { u with next := p })) p (some w)) :
    IsVector N' vect (xs ++ [prev, p]) ∧
      ranges N' (xs ++ [prev, p]) = held w + ranges N (xs ++ [prev]) ∧
      Frame N N' (xs ++ [prev]) (xs ++ [prev, p]) := by
  have hnot : ∀ b ∈ xs ++ [prev], b ≠ p := by
    rintro b hb rfl
    obtain ⟨-, v, hb⟩ := segment_node h.linked hb
    rw [hfresh] at hb
    cases hb
  have hprev := hnot prev (by simp)
  have hxs := (not_mem_of_nodup h.nodup).1
  have hkeep : ∀ b, b ≠ prev → b ≠ p → N' b = N b := by
    intro b h1 h2
    rw [hN, Function.update_of_ne h2, Function.update_of_ne h1]
  refine ⟨⟨hN ▸ segment_extend h.linked h.nodup hu hfresh hp rfl hnext, by simp, ?_, ?_⟩, ?_, ⟨?_, ?_⟩⟩
  · have hnodup : ((xs ++ [prev]) ++ [p]).Nodup :=
      List.nodup_append.mpr ⟨h.nodup, by simp, fun b hb q hq => by
        rw [List.mem_singleton.mp hq]
        exact hnot b hb⟩
    simpa using hnodup
  · intro a ha v hv
    rw [hN] at hv
    by_cases hap : a = p
    · subst hap
      rw [Function.update_self] at hv
      cases hv
      exact hused
    · rw [Function.update_of_ne hap] at hv
      exact update_used h.used_le hu (by simpa [hap] using ha) hv
  · have hc : ranges N' xs = ranges N xs :=
      contents_congr fun a ha => hkeep a (fun e => hxs (e ▸ ha)) (hnot a (by simp [ha]))
    have hprev' : N' prev = some { u with next := p } := by
      rw [hN, Function.update_of_ne hprev, Function.update_self]
    have hp' : N' p = some w := by rw [hN, Function.update_self]
    simp only [contents_append, contents_cons, contents_nil, hc, hprev', hp', hu, Option.elim_some]
    rw [show held { u with next := p } = held u from rfl]
    abel
  · intro a ha hne
    refine hkeep a (fun e => ha (by simp [e])) ?_
    rintro rfl
    exact hne hfresh
  · intro a ha
    by_cases hap : a = p
    · exact .inr (hap ▸ hfresh)
    · exact .inl (by simpa [hap] using ha)

theorem vector_unlink {xs ys : List Word} {prev cur : Word} {u v : RegionVector}
    (h : IsVector N vect (xs ++ prev :: cur :: ys)) (hu : N prev = some u) (hv : N cur = some v)
    (hN : N' = Function.update (Function.update N prev (some { u with next := v.next })) cur none) :
    IsVector N' vect (xs ++ prev :: ys) ∧
      held v + ranges N' (xs ++ prev :: ys) = ranges N (xs ++ prev :: cur :: ys) ∧
      Frame N N' (xs ++ prev :: cur :: ys) (xs ++ prev :: ys) := by
  obtain ⟨hpx, hpy⟩ := not_mem_of_nodup h.nodup
  obtain ⟨hcx, hcy⟩ := not_mem_of_nodup (l := xs ++ [prev]) (x := cur) (r := ys) (by simpa using h.nodup)
  have hne : prev ≠ cur := fun e => hpy (by simp [e])
  have hkeep : ∀ b, b ≠ prev → b ≠ cur → N' b = N b := by
    intro b h1 h2
    rw [hN, Function.update_of_ne h2, Function.update_of_ne h1]
  have hsub : ∀ a ∈ xs ++ prev :: ys, a ∈ xs ++ prev :: cur :: ys ∧ a ≠ cur := by
    intro a ha
    rcases List.mem_append.mp ha with ha | ha
    · exact ⟨by simp [ha], fun e => hcx (by simp [← e, ha])⟩
    · rcases List.mem_cons.mp ha with rfl | ha
      · exact ⟨by simp, hne⟩
      · exact ⟨by simp [ha], fun e => hcy (e ▸ ha)⟩
  refine ⟨⟨hN ▸ segment_unlink h.linked h.nodup hv rfl, by simp, ?_, ?_⟩, ?_, ⟨?_, fun a ha => .inl (hsub a ha).1⟩⟩
  · refine h.nodup.sublist ?_
    exact (List.Sublist.refl xs).append ((List.sublist_cons_self cur ys).cons_cons prev)
  · intro a ha w hw
    obtain ⟨ha, hac⟩ := hsub a ha
    rw [hN, Function.update_of_ne hac] at hw
    exact update_used h.used_le hu ha hw
  · have hx : ranges N' xs = ranges N xs :=
      contents_congr fun a ha => hkeep a (fun e => hpx (e ▸ ha)) fun e => hcx (by simp [← e, ha])
    have hy : ranges N' ys = ranges N ys :=
      contents_congr fun a ha => hkeep a (fun e => hpy (by simp [← e, ha])) fun e => hcy (e ▸ ha)
    have hprev : N' prev = some { u with next := v.next } := by
      rw [hN, Function.update_of_ne hne, Function.update_self]
    simp only [contents_append, contents_cons, hx, hy, hprev, hu, hv, Option.elim_some]
    rw [show held { u with next := v.next } = held u from rfl]
    abel
  · intro a ha _
    exact hkeep a (fun e => ha (by simp [e])) fun e => ha (by simp [e])

end Vector

/-! ## Loops -/

section Loops

variable {σ : Type} {nodes : NodeStore σ} {Own : σ → Nodes → Prop} {E : Halt → Prop} {s : σ} {N : Nodes}

theorem wp_read (laws : StoreLaws nodes Own) (own : Own s N) {a : Word} {v : RegionVector} (hv : N a = some v)
    {Q : RegionVector → σ → Prop} : wp (nodes.read a) Q E s ↔ Q v s :=
  wp_of_run (laws.read own hv)

theorem wp_write (laws : StoreLaws nodes Own) (own : Own s N) {a : Word} {v w : RegionVector}
    (hv : N a = some v) {Q : Unit → σ → Prop}
    (hQ : ∀ s', Own s' (Function.update N a (some w)) → Q () s') : wp (nodes.write a w) Q E s := by
  obtain ⟨s', hrun, hown⟩ := laws.write w own hv
  exact (wp_of_run hrun).mpr (hQ s' hown)

theorem wp_regionAllocLoop (laws : StoreLaws nodes Own) (own : Own s N) {size : Word} {cur : Word}
    {as : List Word} {fuel : Nat} (hseg : Segment RegionVector.next 0 N cur as 0) (hne : as ≠ [])
    (hused : ∀ a ∈ as, ∀ v, N a = some v → v.regions_used ≤ regions_count) (hfuel : as.length ≤ fuel) :
    wp (regionAllocLoop nodes size fuel cur)
      (fun result s' =>
        (result = .error .Error_No_Memory ∧ s' = s ∧ firstFit N as size = none) ∨
        ∃ a ∈ as, ∃ v i, N a = some v ∧ i < v.regions_used ∧ firstFit N as size = some (v.regions i) ∧
          result = .ok (v.regions i).address ∧ Own s' (Function.update N a (some (v.takeFront i size)))) E s := by
  induction as generalizing cur fuel with
  | nil => exact (hne rfl).elim
  | cons a as ih =>
    obtain ⟨rfl, -, v, hv, hrest⟩ := hseg
    obtain ⟨fuel, rfl⟩ : ∃ n, fuel = n + 1 := ⟨fuel - 1, by simp at hfuel; omega⟩
    have hfit : firstFit N (cur :: as) size =
        ((v.find fun r => size < r.size).map v.regions).or (firstFit N as size) := by
      rw [firstFit, inOrder_cons, hv, Option.elim_some, List.find?_append, find?_heldList (hused cur (by simp) v hv)]
      rfl
    unfold regionAllocLoop
    rw [wp_bind, wp_read laws own hv]
    cases hfind : v.find fun r => size < r.size with
    | some i =>
      rw [hfind] at hfit
      simp only [wp_bind, wp_pure]
      refine wp_write laws own hv fun s' hown => ?_
      exact .inr ⟨cur, by simp, v, i, hv, (find_some hfind).1, hfit, rfl, hown⟩
    | none =>
      rw [hfind, Option.map_none, Option.none_or] at hfit
      simp only [wp_ite]
      split
      · -- The last node: there is nothing behind it.
        rename_i hlast
        rw [hlast] at hrest
        cases as with
        | nil =>
          rw [wp_pure]
          exact .inl ⟨rfl, rfl, hfit⟩
        | cons b as => exact absurd rfl hrest.2.1
      · rename_i hlast
        have has : as ≠ [] := by
          rintro rfl
          exact hlast hrest
        refine wp_imp (ih hrest has (fun b hb => hused b (by simp [hb])) (by simpa using hfuel)) ?_
        rintro result s' (⟨hres, hs, hnone⟩ | ⟨b, hb, w, i, hrest⟩)
        · exact .inl ⟨hres, hs, hfit.trans hnone⟩
        · exact .inr ⟨b, by simp [hb], w, i, hfit ▸ hrest⟩

theorem wp_region_vector_init (laws : StoreLaws nodes Own) (own : Own s N) {vect : Word} {v : RegionVector}
    (hv : N vect = some v) :
    wp (region_vector_init nodes vect)
      (fun _ s' => Own s' (Function.update N vect (some { v with next := 0, regions_used := 0 }))) E s := by
  unfold region_vector_init
  rw [wp_bind, wp_read laws own hv]
  exact wp_write laws own hv fun s' own' => own'

/-- The node with a region more. -/
def pushRegion (v : RegionVector) (r : Region) : RegionVector :=
  { v.set v.regions_used r with regions_used := v.regions_used + 1 }

theorem held_pushRegion (v : RegionVector) (r : Region) : held (pushRegion v r) = r ::ₘ held v :=
  bag_push _ _ _

theorem wp_regionFreeLoop (laws : StoreLaws nodes Own) (own : Own s N) {r : Region} {cur : Word}
    {as : List Word} {fuel : Nat} (hseg : Segment RegionVector.next 0 N cur as 0) (hne : as ≠ [])
    (hfuel : as.length ≤ fuel) :
    wp (regionFreeLoop nodes r fuel cur)
      (fun result s' =>
        (result = none ∧ ∃ a ∈ as, ∃ v, N a = some v ∧ v.regions_used ≠ regions_count ∧
          Own s' (Function.update N a (some (pushRegion v r)))) ∨
        (s' = s ∧ ∃ xs prev, as = xs ++ [prev] ∧ result = some prev ∧
          ∀ a ∈ as, ∀ v, N a = some v → v.regions_used = regions_count)) E s := by
  induction as generalizing cur fuel with
  | nil => exact (hne rfl).elim
  | cons a as ih =>
    obtain ⟨rfl, -, v, hv, hrest⟩ := hseg
    obtain ⟨fuel, rfl⟩ : ∃ n, fuel = n + 1 := ⟨fuel - 1, by simp at hfuel; omega⟩
    unfold regionFreeLoop
    rw [wp_bind, wp_read laws own hv]
    by_cases hroom : v.regions_used ≠ regions_count
    · rw [if_pos hroom, wp_bind]
      refine wp_write laws own hv fun s' hown => ?_
      rw [wp_pure]
      exact .inl ⟨rfl, cur, by simp, v, hv, hroom, hown⟩
    · have hfull : v.regions_used = regions_count := not_not.mp hroom
      rw [if_neg hroom, wp_ite]
      have hcur : ∀ w, N cur = some w → w.regions_used = regions_count := by
        intro w hw
        rw [hv] at hw
        cases hw
        exact hfull
      split
      · rename_i hlast
        rw [hlast] at hrest
        cases as with
        | nil =>
          rw [wp_pure]
          refine .inr ⟨rfl, [], cur, rfl, rfl, ?_⟩
          intro a ha
          rw [List.mem_singleton.mp ha]
          exact hcur
        | cons b as => exact absurd rfl hrest.2.1
      · rename_i hlast
        have has : as ≠ [] := by
          rintro rfl
          exact hlast hrest
        refine wp_imp (ih hrest has (by simpa using hfuel)) ?_
        rintro result s' (⟨hres, b, hb, hw⟩ | ⟨hs, xs, prev, rfl, hres, hall⟩)
        · exact .inl ⟨hres, b, by simp [hb], hw⟩
        · refine .inr ⟨hs, cur :: xs, prev, rfl, hres, ?_⟩
          intro a ha
          rcases List.mem_cons.mp ha with rfl | ha
          · exact hcur
          · exact hall a ha

/-- The nodes in memory determine the ranges. -/
theorem vector_unique {N' : Nodes} {vect : Word} {pages pages' : List Word} (laws : StoreLaws nodes Own) (own : Own s N)
    (own' : Own s N') (hv : IsVector N vect pages) (hv' : IsVector N' vect pages') : ranges N pages = ranges N' pages' := by
  have hnode : ∀ {a v w}, N a = some v → N' a = some w → v = w := by
    intro a v w ha ha'
    have heq := (laws.read own ha).symm.trans (laws.read own' ha')
    cases heq
    rfl
  have key : ∀ (as bs : List Word) (cur : Word), Segment RegionVector.next 0 N cur as 0 →
      Segment RegionVector.next 0 N' cur bs 0 → ranges N as = ranges N' bs := by
    intro as
    induction as with
    | nil =>
      rintro (_ | ⟨b, bs⟩) cur hseg hseg'
      · rfl
      · obtain ⟨rfl, hne, -⟩ := hseg'
        exact absurd hseg hne
    | cons a as ih =>
      rintro (_ | ⟨b, bs⟩) cur ⟨rfl, hne, v, hv, hrest⟩ hseg'
      · exact absurd hseg' hne
      · obtain ⟨rfl, -, w, hw, hrest'⟩ := hseg'
        obtain rfl := hnode hv hw
        have htail : contents held N as = contents held N' bs := ih bs _ hrest hrest'
        simp only [ranges, contents_cons, hv, hw, htail]
  exact key _ _ _ hv.linked hv'.linked

end Loops

/-! ## Adding a node -/

section Append

variable {σ : Type} {nodes : NodeStore σ} {Own : σ → Nodes → Prop} {E : Halt → Prop} {s : σ} {N : Nodes}
  {slab_alloc_locked : Word → Word → Kernel σ Word} {slab_free_locked : Word → Word → Kernel σ Unit}

theorem wp_extend_vector (laws : StoreLaws nodes Own)
    (pages : PageLaws slab_alloc_locked slab_free_locked Own E) (own : Own s N) :
    wp (extend_vector nodes slab_alloc_locked)
      (fun p s' => p = 0 ∨ (p ≠ 0 ∧ N p = none ∧
        ∃ v : RegionVector, v.next = 0 ∧ Own s' (Function.update N p (some v)))) E s := by
  unfold extend_vector
  rw [wp_bind]
  refine wp_imp (pages.alloc own) ?_
  rintro p s' (rfl | ⟨hp, hfresh, v, hown⟩)
  · rw [if_pos rfl, wp_pure]
    exact .inl rfl
  · rw [if_neg hp, wp_bind, wp_read laws hown (Function.update_self ..), wp_bind]
    refine wp_write laws hown (Function.update_self ..) fun s'' hown' => ?_
    rw [Function.update_idem] at hown'
    rw [wp_pure]
    exact .inr ⟨hp, hfresh, _, rfl, hown'⟩

/-- A node with one region. -/
def singleRegion (v : RegionVector) (r : Region) : RegionVector := { v.set 0 r with regions_used := 1 }

theorem held_singleRegion (v : RegionVector) (r : Region) : held (singleRegion v r) = {r} := by
  have h : bag (Function.update v.regions 0 r) 1 = {r} := bag_push v.regions 0 r
  exact h

theorem wp_appendNode (laws : StoreLaws nodes Own)
    (pages : PageLaws slab_alloc_locked slab_free_locked Own E) (own : Own s N) {prev : Word} {u : RegionVector}
    (hu : N prev = some u) (r : Region) :
    wp (appendNode nodes slab_alloc_locked prev r)
      (fun _ s' => ∃ p w, p ≠ 0 ∧ N p = none ∧ w.next = 0 ∧ w.regions_used = 1 ∧ held w = {r} ∧
        Own s' (Function.update (Function.update N prev (some { u with next := p })) p (some w))) E s := by
  unfold appendNode
  rw [wp_bind]
  refine wp_imp (wp_extend_vector laws pages own) ?_
  rintro p s₁ (rfl | ⟨hp, hfresh, v, hnext, own₁⟩)
  · simpa [Code.assert] using pages.out_of_pages
  · have hne : prev ≠ p := by
      rintro rfl
      rw [hu] at hfresh
      cases hfresh
    have hu₁ : Function.update N p (some v) prev = some u := by rw [Function.update_of_ne hne, hu]
    simp only [wp_bind, Code.assert, wp_check, hp, ne_eq, not_false_eq_true, decide_true, if_true,
      wp_read laws own₁ hu₁]
    refine wp_write laws own₁ hu₁ fun s₂ own₂ => ?_
    have hv₂ : Function.update (Function.update N p (some v)) prev (some { u with next := p }) p = some v := by
      rw [Function.update_of_ne hne.symm, Function.update_self]
    rw [wp_read laws own₂ hv₂]
    refine wp_write laws own₂ hv₂ fun s₃ own₃ => ⟨p, singleRegion v r, hp, hfresh, hnext, rfl,
      held_singleRegion v r, ?_⟩
    have hcomm := Function.update_comm hne.symm (some v) (some { u with next := p }) N
    rwa [hcomm, Function.update_idem] at own₃

end Append

/-! ## Removing a region -/

section Remove

variable {σ : Type} {nodes : NodeStore σ} {Own : σ → Nodes → Prop} {E : Halt → Prop} {s : σ} {N : Nodes}
  {slab_alloc_locked : Word → Word → Kernel σ Word} {slab_free_locked : Word → Word → Kernel σ Unit}

/-- `w` is the node `v` without its region `i`. -/
structure Removed (v : RegionVector) (i : Nat) (w : RegionVector) : Prop where
  next : w.next = v.next
  used : w.regions_used ≤ v.regions_used
  held : v.regions i ::ₘ held w = held v

theorem removed_swap {v : RegionVector} {i : Nat} (hi : i < v.regions_used) :
    Removed v i ({ v with regions_used := v.regions_used - 1 }.set i (v.regions (v.regions_used - 1))) := by
  refine ⟨rfl, Nat.sub_le .., ?_⟩
  obtain ⟨n, hn⟩ : ∃ n, v.regions_used = n + 1 := ⟨v.regions_used - 1, by omega⟩
  have h := bag_swap_remove (f := v.regions) (hn ▸ hi)
  simpa [Spec.held, RegionVector.set, hn] using h

theorem removed_last {v : RegionVector} {i : Nat} (hi : i < v.regions_used) (hlast : v.regions_used - 1 = 0) :
    Removed v i { v with regions_used := v.regions_used - 1 } := by
  have hone : v.regions_used = 0 + 1 := by omega
  have hzero : i = 0 := by omega
  refine ⟨rfl, Nat.sub_le .., ?_⟩
  simp [Spec.held, bag, hone, hzero]

/-- Either the node stays with a region less, or it was the last region and the node is unlinked. -/
theorem wp_removeRegion (laws : StoreLaws nodes Own)
    (pages : PageLaws slab_alloc_locked slab_free_locked Own E) (own : Own s N) {prev cur : Word}
    {v : RegionVector} {i : Nat} (hv : N cur = some v) (hi : i < v.regions_used)
    (hprev : prev ≠ 0 → prev ≠ cur ∧ ∃ u, N prev = some u) :
    wp (removeRegion nodes slab_free_locked prev cur v i)
      (fun _ s' => ∃ w, Removed v i w ∧ (Own s' (Function.update N cur (some w)) ∨
        (prev ≠ 0 ∧ held w = 0 ∧ ∃ u, N prev = some u ∧
          Own s' (Function.update (Function.update N prev (some { u with next := v.next })) cur none)))) E s := by
  unfold removeRegion
  by_cases hmore : v.regions_used - 1 ≠ 0
  · simp only [if_pos hmore]
    exact wp_write laws own hv fun s' own' => ⟨_, removed_swap hi, .inl own'⟩
  · have hlast : v.regions_used - 1 = 0 := not_not.mp hmore
    simp only [if_neg hmore, wp_bind]
    refine wp_write laws own hv fun s₁ own₁ => ?_
    rw [wp_ite]
    split
    · rename_i hne
      obtain ⟨hcur, u, hu⟩ := hprev hne
      have hu₁ : Function.update N cur (some { v with regions_used := v.regions_used - 1 }) prev = some u := by
        rw [Function.update_of_ne hcur, hu]
      rw [wp_bind, wp_read laws own₁ hu₁, wp_bind]
      refine wp_write laws own₁ hu₁ fun s₂ own₂ => ?_
      rw [Function.update_comm hcur.symm] at own₂
      refine wp_imp (pages.free own₂ (Function.update_self ..)) fun _ s₃ own₃ => ?_
      rw [Function.update_idem] at own₃
      refine ⟨_, removed_last hi hlast, .inr ⟨hne, ?_, u, hu, own₃⟩⟩
      simp [Spec.held, bag, hlast]
    · rw [wp_pure]
      exact ⟨_, removed_last hi hlast, .inl own₁⟩

end Remove

/-! ## The three operations -/

section Ops

variable {σ : Type} {nodes : NodeStore σ} {Own : σ → Nodes → Prop} {E : Halt → Prop} {s : σ} {N : Nodes}
  {slab_alloc_locked : Word → Word → Kernel σ Word} {slab_free_locked : Word → Word → Kernel σ Unit}
  {vect : Word} {pages : List Word}

theorem hasSlot_update {a : Word} {v w : RegionVector} (hv : N a = some v) (hused : w.regions_used = v.regions_used)
    (h : HasSlot N pages) : HasSlot (Function.update N a (some w)) pages := by
  obtain ⟨b, hb, u, hu, hroom⟩ := h
  by_cases hba : b = a
  · subst hba
    rw [hv] at hu
    cases hu
    exact ⟨b, hb, w, Function.update_self .., by rwa [hused]⟩
  · exact ⟨b, hb, u, by rwa [Function.update_of_ne hba], hroom⟩

/-- Region `i` of the node at `a` becomes `r`. -/
theorem set_vector {a : Word} {v : RegionVector} {i : Nat} (hv : IsVector N vect pages) (ha : a ∈ pages) (hN : N a = some v)
    (hi : i < v.regions_used) (r : Region) :
    IsVector (Function.update N a (some (v.set i r))) vect pages ∧
      ranges (Function.update N a (some (v.set i r))) pages = r ::ₘ (ranges N pages).erase (v.regions i) := by
  have hmem : v.regions i ∈ ranges N pages := mem_contents.mpr ⟨a, ha, v, hN, region_mem_held hi⟩
  refine ⟨vector_update hv hN rfl (hv.used_le a ha v hN), ?_⟩
  have hheld : v.regions i ::ₘ held (v.set i r) = r ::ₘ held v := bag_set hi r
  have hbal := contents_update held (l := {v.regions i}) (r := {r}) hv.nodup ha hN (by simpa using hheld)
  simp only [Multiset.singleton_add] at hbal
  rw [← Multiset.cons_inj_right (v.regions i), hbal, Multiset.cons_swap, Multiset.cons_erase hmem]

/-- `region_alloc` takes from the first range that is long enough, and the nodes have as many ranges as before. -/
theorem wp_region_alloc_first (laws : StoreLaws nodes Own) (own : Own s N) (hv : IsVector N vect pages) (size : Word) :
    wp (region_alloc nodes vect size)
      (fun result s' =>
        (result = .error .Error_No_Memory ∧ s' = s ∧ firstFit N pages size = none) ∨
        ∃ r ∈ ranges N pages, size < r.size ∧ firstFit N pages size = some r ∧ result = .ok r.address ∧
          ∃ N', Own s' N' ∧ IsVector N' vect pages ∧
            ranges N' pages = ⟨r.address + size, r.size - size⟩ ::ₘ (ranges N pages).erase r ∧
            Frame N N' pages pages ∧ (HasSlot N pages → HasSlot N' pages)) E s := by
  unfold region_alloc
  simp only [wp_bind, Code.assert, wp_check, (vector_head hv).2, ne_eq, not_false_eq_true, decide_true,
    if_true]
  refine wp_imp (wp_regionAllocLoop laws own hv.linked hv.nonempty hv.used_le (nodup_length_le hv.nodup)) ?_
  rintro result s' (hnone | ⟨a, ha, v, i, hN, hi, hfit, hres, own'⟩)
  · exact .inl hnone
  · have hmem : v.regions i ∈ ranges N pages := mem_contents.mpr ⟨a, ha, v, hN, region_mem_held hi⟩
    have hlt : size < (v.regions i).size := by simpa using List.find?_some hfit
    rw [takeFront_eq hlt] at own'
    obtain ⟨hvec, hranges⟩ := set_vector hv ha hN hi ⟨(v.regions i).address + size, (v.regions i).size - size⟩
    exact .inr ⟨v.regions i, hmem, hlt, hfit, hres, _, own', hvec, hranges, frame_update ha _, hasSlot_update hN rfl⟩

theorem wp_region_alloc (laws : StoreLaws nodes Own) (own : Own s N) (hv : IsVector N vect pages) (size : Word) :
    wp (region_alloc nodes vect size)
      (fun result s' =>
        (result = .error .Error_No_Memory ∧ s' = s ∧ ∀ r ∈ ranges N pages, r.size ≤ size) ∨
        ∃ r ∈ ranges N pages, size < r.size ∧ result = .ok r.address ∧
          Becomes Own N vect pages s' (⟨r.address + size, r.size - size⟩ ::ₘ (ranges N pages).erase r)) E s := by
  refine wp_imp (wp_region_alloc_first laws own hv size) ?_
  rintro result s' (⟨hres, hs, hnone⟩ | ⟨r, hr, hlt, -, hres, N', own', hvec, hranges, hframe, -⟩)
  · exact .inl ⟨hres, hs, firstFit_none.mp hnone⟩
  · exact .inr ⟨r, hr, hlt, hres, N', pages, own', hvec, hranges, hframe⟩

/-- A node with room for the range `r` gets it. -/
theorem pushed_vector {a : Word} {v : RegionVector} (hv : IsVector N vect pages) (ha : a ∈ pages) (hN : N a = some v)
    (hroom : v.regions_used ≠ regions_count) (r : Region) :
    IsVector (Function.update N a (some (pushRegion v r))) vect pages ∧
      ranges (Function.update N a (some (pushRegion v r))) pages = r ::ₘ ranges N pages := by
  have hle := hv.used_le a ha v hN
  refine ⟨vector_update hv hN rfl ?_, ?_⟩
  · show v.regions_used + 1 ≤ regions_count
    omega
  · have hbal := contents_update held (l := 0) (r := {r}) hv.nodup ha hN (by simpa using held_pushRegion v r)
    simpa using hbal

/-- With room in a node, no page for a new one is needed. -/
theorem wp_region_free_room (laws : StoreLaws nodes Own) (own : Own s N) (hv : IsVector N vect pages)
    (hroom : HasSlot N pages) (address size : Word) :
    wp (region_free nodes slab_alloc_locked vect address size)
      (fun _ s' => ∃ N', Own s' N' ∧ IsVector N' vect pages ∧ ranges N' pages = ⟨address, size⟩ ::ₘ ranges N pages) E
      s := by
  unfold region_free
  rw [wp_bind]
  refine wp_imp (wp_regionFreeLoop laws own hv.linked hv.nonempty (nodup_length_le hv.nodup)) ?_
  rintro result s' (⟨rfl, a, ha, v, hN, hfew, own'⟩ | ⟨-, _, _, -, -, hfull⟩)
  · change wp (pure ()) _ _ _
    rw [wp_pure]
    exact ⟨_, own', pushed_vector hv ha hN hfew _⟩
  · obtain ⟨a, ha, v, hN, hfew⟩ := hroom
    exact absurd (hfull a ha v hN) hfew

theorem wp_region_free (laws : StoreLaws nodes Own)
    (hpages : PageLaws slab_alloc_locked slab_free_locked Own E) (own : Own s N) (hv : IsVector N vect pages)
    (address size : Word) :
    wp (region_free nodes slab_alloc_locked vect address size)
      (fun _ s' => Becomes Own N vect pages s' (⟨address, size⟩ ::ₘ ranges N pages)) E s := by
  unfold region_free
  rw [wp_bind]
  refine wp_imp (wp_regionFreeLoop laws own hv.linked hv.nonempty (nodup_length_le hv.nodup)) ?_
  rintro result s' (⟨rfl, a, ha, v, hN, hroom, own'⟩ | ⟨rfl, xs, prev, rfl, rfl, -⟩)
  · obtain ⟨hvec, hranges⟩ := pushed_vector hv ha hN hroom ⟨address, size⟩
    change wp (pure ()) _ _ _
    rw [wp_pure]
    exact ⟨_, pages, own', hvec, hranges, frame_update ha _⟩
  · obtain ⟨-, u, hu⟩ := segment_node hv.linked (x := prev) (by simp)
    refine wp_imp (wp_appendNode laws hpages own hu ⟨address, size⟩) ?_
    rintro _ s' ⟨p, w, hp, hfresh, hnext, hused, hheld, own'⟩
    obtain ⟨hvec, hranges, hframe⟩ := vector_extend hv hu hp hfresh hnext (by rw [hused]; decide) rfl
    refine ⟨_, _, own', hvec, ?_, hframe⟩
    rw [hranges, hheld, Multiset.singleton_add]

/-- The node `cur` loses a region, in whichever way. -/
theorem removed_becomes {xs ys : List Word} {prev cur : Word} {v w : RegionVector} {i : Nat} {s' : σ}
    (hv : IsVector N vect (xs ++ cur :: ys)) (hN : N cur = some v) (hprev : prev ≠ 0 → ∃ zs, xs = zs ++ [prev])
    (hi : i < v.regions_used) (hw : Removed v i w)
    (hown : Own s' (Function.update N cur (some w)) ∨ (prev ≠ 0 ∧ held w = 0 ∧ ∃ u, N prev = some u ∧
      Own s' (Function.update (Function.update N prev (some { u with next := v.next })) cur none))) :
    Becomes Own N vect (xs ++ cur :: ys) s' ((ranges N (xs ++ cur :: ys)).erase (v.regions i)) := by
  have hcur : cur ∈ xs ++ cur :: ys := by simp
  have hmem : v.regions i ∈ ranges N (xs ++ cur :: ys) := mem_contents.mpr ⟨cur, hcur, v, hN, region_mem_held hi⟩
  rcases hown with own | ⟨hne, hzero, u, hu, own⟩
  · have hvec := vector_update hv hN hw.next (hw.used.trans (hv.used_le cur hcur v hN))
    refine ⟨_, _, own, hvec, ?_, frame_update hcur _⟩
    have hbal := contents_update held (l := {v.regions i}) (r := 0) hv.nodup hcur hN
      (by simpa using hw.held)
    simp only [Multiset.singleton_add, zero_add] at hbal
    rw [← Multiset.cons_inj_right (v.regions i), hbal, Multiset.cons_erase hmem]
  · obtain ⟨zs, rfl⟩ := hprev hne
    have happend : zs ++ [prev] ++ cur :: ys = zs ++ prev :: cur :: ys := by simp
    rw [happend] at hv hmem ⊢
    obtain ⟨hvec, hranges, hframe⟩ := vector_unlink hv hu hN rfl
    refine ⟨_, _, own, hvec, ?_, hframe⟩
    rw [← hw.held, hzero, Multiset.cons_add, zero_add] at hranges
    rw [← Multiset.cons_inj_right (v.regions i), hranges, Multiset.cons_erase hmem]

theorem wp_regionFindLoop (laws : StoreLaws nodes Own)
    (hpages : PageLaws slab_alloc_locked slab_free_locked Own E) (own : Own s N) {address prev cur : Word}
    {xs as : List Word} {fuel : Nat} (hv : IsVector N vect (xs ++ as))
    (hseg : Segment RegionVector.next 0 N cur as 0) (hne : as ≠ [])
    (hprev : prev ≠ 0 → ∃ zs, xs = zs ++ [prev]) (hfuel : as.length ≤ fuel) :
    wp (regionFindLoop nodes slab_free_locked address fuel prev cur)
      (fun size s' => (size = 0 ∧ s' = s ∧ ∀ r ∈ ranges N as, r.address ≠ address) ∨
        ∃ r ∈ ranges N (xs ++ as), r.address = address ∧ size = r.size ∧
          Becomes Own N vect (xs ++ as) s' ((ranges N (xs ++ as)).erase r)) E s := by
  induction as generalizing xs prev cur fuel with
  | nil => exact (hne rfl).elim
  | cons a as ih =>
    obtain ⟨rfl, -, v, hN, hrest⟩ := hseg
    obtain ⟨fuel, rfl⟩ : ∃ n, fuel = n + 1 := ⟨fuel - 1, by simp at hfuel; omega⟩
    have hcur : cur ∈ xs ++ cur :: as := by simp
    unfold regionFindLoop
    rw [wp_bind, wp_read laws own hN]
    cases hfind : v.find fun r => r.address = address with
    | some i =>
      obtain ⟨hi, haddr⟩ := find_some hfind
      simp only [decide_eq_true_eq] at haddr
      simp only [wp_bind, wp_pure]
      have hprev' : prev ≠ 0 → prev ≠ cur ∧ ∃ u, N prev = some u := by
        intro hprev0
        obtain ⟨zs, rfl⟩ := hprev hprev0
        obtain ⟨-, u, hu⟩ := segment_node hv.linked (x := prev) (by simp)
        refine ⟨?_, u, hu⟩
        rintro rfl
        exact (not_mem_of_nodup hv.nodup).1 (by simp)
      refine wp_imp (wp_removeRegion laws hpages own hN hi hprev') ?_
      rintro _ s' ⟨w, hw, hown⟩
      refine .inr ⟨v.regions i, ?_, haddr, rfl, removed_becomes hv hN hprev hi hw hown⟩
      exact mem_contents.mpr ⟨cur, hcur, v, hN, region_mem_held hi⟩
    | none =>
      have hnone := find_none (hv.used_le cur hcur v hN) hfind
      simp only [decide_eq_true_eq] at hnone
      simp only [wp_ite]
      split
      · rename_i hlast
        rw [hlast] at hrest
        cases as with
        | nil =>
          rw [wp_pure]
          refine .inl ⟨rfl, rfl, ?_⟩
          simpa [hN] using hnone
        | cons b as => exact absurd rfl hrest.2.1
      · rename_i hlast
        have has : as ≠ [] := by
          rintro rfl
          exact hlast hrest
        have happend : xs ++ [cur] ++ as = xs ++ cur :: as := by simp
        have hv' : IsVector N vect (xs ++ [cur] ++ as) := happend ▸ hv
        refine wp_imp (ih hv' hrest has (fun _ => ⟨xs, rfl⟩)
          (by simpa using hfuel)) ?_
        rw [happend]
        rintro size s' (⟨hsize, hs, hall⟩ | hfound)
        · refine .inl ⟨hsize, hs, ?_⟩
          intro r hr
          simp only [ranges, contents_cons, hN, Option.elim_some, Multiset.mem_add] at hr
          rcases hr with hr | hr
          · exact hnone r hr
          · exact hall r hr
        · exact .inr hfound

theorem wp_region_find_size_and_free (laws : StoreLaws nodes Own)
    (hpages : PageLaws slab_alloc_locked slab_free_locked Own E) (own : Own s N) (hv : IsVector N vect pages)
    (address : Word) :
    wp (region_find_size_and_free nodes slab_free_locked vect address)
      (fun size s' => (size = 0 ∧ s' = s ∧ ∀ r ∈ ranges N pages, r.address ≠ address) ∨
        ∃ r ∈ ranges N pages, r.address = address ∧ size = r.size ∧
          Becomes Own N vect pages s' ((ranges N pages).erase r)) E s := by
  have hv' : IsVector N vect ([] ++ pages) := hv
  exact wp_regionFindLoop laws hpages own hv' hv.linked hv.nonempty (fun h => (h rfl).elim)
    (nodup_length_le hv.nodup)

/-! ## Runs -/

theorem becomes_refl (own : Own s N) (hv : IsVector N vect pages) :
    Becomes Own N vect pages s (ranges N pages) :=
  ⟨N, pages, own, hv, rfl, fun _ _ _ => rfl, fun _ ha => .inl ha⟩

theorem wp_runOp (laws : StoreLaws nodes Own)
    (hpages : PageLaws slab_alloc_locked slab_free_locked Own E) (own : Own s N) (hv : IsVector N vect pages)
    (op : VectorOp) :
    wp (runOp nodes slab_alloc_locked slab_free_locked vect op)
      (fun result s' => ∃ M', MultisetStep (ranges N pages) op result M' ∧ Becomes Own N vect pages s' M') E s := by
  cases op with
  | free address size =>
    simp only [runOp, wp_bind, wp_pure]
    refine wp_imp (wp_region_free laws hpages own hv address size) fun _ s' h => ?_
    exact ⟨_, .free address size, h⟩
  | alloc size =>
    simp only [runOp, wp_bind, wp_pure]
    refine wp_imp (wp_region_alloc laws own hv size) ?_
    rintro _ s' (⟨rfl, rfl, hall⟩ | ⟨r, hr, hlt, rfl, hb⟩)
    · exact ⟨_, .no_memory size hall, becomes_refl own hv⟩
    · exact ⟨_, .alloc size hr hlt, hb⟩
  | find_size_and_free address =>
    simp only [runOp, wp_bind, wp_pure]
    refine wp_imp (wp_region_find_size_and_free laws hpages own hv address) ?_
    rintro _ s' (⟨rfl, rfl, hall⟩ | ⟨r, hr, rfl, rfl, hb⟩)
    · exact ⟨_, .absent address hall, becomes_refl own hv⟩
    · exact ⟨_, .found hr, hb⟩

theorem frame_trans {N₁ N₂ : Nodes} {pages₁ pages₂ : List Word} (h₁ : Frame N N₁ pages pages₁)
    (h₂ : Frame N₁ N₂ pages₁ pages₂) : Frame N N₂ pages pages₂ := by
  refine ⟨fun a ha hne => ?_, fun a ha => ?_⟩
  · have h := h₁.others a ha hne
    have hnot : a ∉ pages₁ := fun hmem => (h₁.fresh a hmem).elim ha hne
    rw [h₂.others a hnot (h ▸ hne), h]
  · rcases h₂.fresh a ha with hmem | hnone
    · exact h₁.fresh a hmem
    · by_contra hcon
      rw [not_or] at hcon
      rw [h₁.others a hcon.1 hcon.2] at hnone
      exact hcon.2 hnone

theorem region_vector_refines_multiset (laws : StoreLaws nodes Own)
    (hpages : PageLaws slab_alloc_locked slab_free_locked Own E) (own : Own s N) (hv : IsVector N vect pages)
    (ops : List VectorOp) :
    wp (runOps nodes slab_alloc_locked slab_free_locked vect ops)
      (fun results s' => ∃ N' pages', Own s' N' ∧ IsVector N' vect pages' ∧
        MultisetRun (ranges N pages) ops results (ranges N' pages') ∧ Frame N N' pages pages') E s := by
  induction ops generalizing s N pages with
  | nil =>
    rw [runOps, wp_pure]
    exact ⟨N, pages, own, hv, .nil, fun _ _ _ => rfl, fun _ ha => .inl ha⟩
  | cons op ops ih =>
    simp only [runOps, wp_bind, wp_pure]
    refine wp_imp (wp_runOp laws hpages own hv op) ?_
    rintro result s₁ ⟨M, hstep, N₁, pages₁, own₁, hv₁, rfl, hframe₁⟩
    refine wp_imp (ih own₁ hv₁) ?_
    rintro results s₂ ⟨N₂, pages₂, own₂, hv₂, hrun, hframe₂⟩
    exact ⟨N₂, pages₂, own₂, hv₂, .cons hstep hrun, frame_trans hframe₁ hframe₂⟩

end Ops

/-! ## Memory with some spare pages -/

/-- The simplest memory for nodes: each address holds a node, and `spare` are the pages to hand out. -/
structure PageMemory where
  node : Word → RegionVector
  spare : List Word

def pageStore : NodeStore PageMemory where
  read a := do return (← get).node a
  write a v := modify fun s => { s with node := Function.update s.node a v }

def takeSpare (_bytes _attributes : Word) : Kernel PageMemory Word := do
  match (← get).spare with
  | [] => pure 0
  | p :: rest => do
    modify fun s => { s with spare := rest }
    pure p

def giveSpare (_bytes p : Word) : Kernel PageMemory Unit := modify fun s => { s with spare := p :: s.spare }

structure PageMemory.Own (s : PageMemory) (N : Nodes) : Prop where
  stored : ∀ a v, N a = some v → s.node a = v
  nodup : s.spare.Nodup
  fresh : ∀ p ∈ s.spare, p ≠ 0 ∧ N p = none
  null : N 0 = none

theorem pageStore_laws : StoreLaws pageStore PageMemory.Own := by
  refine ⟨?_, ?_⟩
  · intro s N a v own hv
    rw [← own.stored a v hv]
    rfl
  · intro s N a v w own hv
    refine ⟨_, rfl, ?_, own.nodup, ?_, ?_⟩
    · intro b u hb
      by_cases hba : b = a
      · subst hba
        rw [Function.update_self] at hb
        cases hb
        exact Function.update_self ..
      · rw [Function.update_of_ne hba] at hb
        exact (Function.update_of_ne hba ..).trans (own.stored b u hb)
    · intro p hp
      obtain ⟨h0, hnone⟩ := own.fresh p hp
      refine ⟨h0, ?_⟩
      rw [Function.update_of_ne, hnone]
      rintro rfl
      rw [hv] at hnone
      cases hnone
    · rw [Function.update_of_ne, own.null]
      rintro rfl
      rw [own.null] at hv
      cases hv

theorem spare_laws : PageLaws takeSpare giveSpare PageMemory.Own (· = .panic "region_free") := by
  refine ⟨?_, ?_, rfl⟩
  · rintro ⟨node, spare⟩ N own
    cases spare with
    | nil => exact (wp_of_run (by rfl)).mpr (.inl rfl)
    | cons p rest =>
      obtain ⟨hp, hnone⟩ := own.fresh p (by simp)
      obtain ⟨hnot, hnodup⟩ := List.nodup_cons.mp own.nodup
      refine (wp_of_run (by rfl)).mpr (.inr ⟨hp, hnone, node p, ?_, hnodup, ?_, ?_⟩)
      · intro b u hb
        by_cases hbp : b = p
        · subst hbp
          rw [Function.update_self] at hb
          cases hb
          rfl
        · rw [Function.update_of_ne hbp] at hb
          exact own.stored b u hb
      · intro q hq
        obtain ⟨h0, hq'⟩ := own.fresh q (by simp [hq])
        refine ⟨h0, ?_⟩
        rw [Function.update_of_ne, hq']
        rintro rfl
        exact hnot hq
      · rw [Function.update_of_ne hp.symm, own.null]
  · rintro ⟨node, spare⟩ N p v own hv
    have hp : p ≠ 0 := by
      rintro rfl
      rw [own.null] at hv
      cases hv
    rw [giveSpare, wp_modify]
    refine ⟨?_, ?_, ?_, ?_⟩
    · intro b u hb
      by_cases hbp : b = p
      · subst hbp
        rw [Function.update_self] at hb
        cases hb
      · rw [Function.update_of_ne hbp] at hb
        exact own.stored b u hb
    · refine List.nodup_cons.mpr ⟨fun hmem => ?_, own.nodup⟩
      rw [(own.fresh p hmem).2] at hv
      cases hv
    · intro q hq
      rcases List.mem_cons.mp hq with rfl | hq
      · exact ⟨hp, Function.update_self ..⟩
      · obtain ⟨h0, hq'⟩ := own.fresh q hq
        refine ⟨h0, ?_⟩
        by_cases hqp : q = p
        · subst hqp; exact Function.update_self ..
        · rw [Function.update_of_ne hqp, hq']
    · rw [Function.update_of_ne hp.symm, own.null]

/-- One empty node at `0x1000` and one spare page. -/
def oneNode : PageMemory := ⟨fun _ => ⟨0, 0, fun _ => ⟨0, 0⟩⟩, [0x2000]⟩

def oneNodeAt : Nodes := fun a => if a = 0x1000 then some ⟨0, 0, fun _ => ⟨0, 0⟩⟩ else none

theorem oneNode_own : oneNode.Own oneNodeAt := by
  refine ⟨?_, by decide, ?_, rfl⟩
  · intro a v hv
    unfold oneNodeAt at hv
    split at hv
    · cases hv; rfl
    · cases hv
  · intro p hp
    rw [List.mem_singleton.mp hp]
    exact ⟨by decide, rfl⟩

theorem oneNode_vector : IsVector oneNodeAt 0x1000 [0x1000] := by
  refine ⟨⟨rfl, by decide, _, rfl, rfl⟩, by simp, by simp, ?_⟩
  intro a ha v hv
  rw [List.mem_singleton.mp ha] at hv
  cases hv
  decide

theorem oneNode_refines_multiset :
    wp (runOps pageStore takeSpare giveSpare 0x1000
        [.free 0x100000 0x3000, .alloc 0x1000, .find_size_and_free 0x101000])
      (fun results s' => ∃ N' pages', s'.Own N' ∧ IsVector N' 0x1000 pages' ∧
        MultisetRun (ranges oneNodeAt [0x1000])
          [.free 0x100000 0x3000, .alloc 0x1000, .find_size_and_free 0x101000] results (ranges N' pages') ∧
        Frame oneNodeAt N' [0x1000] pages') (· = .panic "region_free") oneNode :=
  region_vector_refines_multiset pageStore_laws spare_laws oneNode_own oneNode_vector _

end KernelOfTruth.Regions
