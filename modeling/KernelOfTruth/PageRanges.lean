import KernelOfTruth.FreePages
import KernelOfTruth.PageOps
import KernelOfTruth.Spec.PageRanges
import KernelOfTruth.Bits

/-!
# Mapping and unmapping ranges of pages

One page after the other. A range outside of the recursive window has no page twice: the processor does not look at
the upper 16 bits of an address, but a range that came back to a page would have gone through the window.
-/

open KernelOfTruth.Lib KernelOfTruth.Code KernelOfTruth.Spec KernelOfTruth.Rules KernelOfTruth.Bits
  KernelOfTruth.Paging KernelOfTruth.MapPage KernelOfTruth.PageOps KernelOfTruth.PageStack KernelOfTruth.FreePages

namespace KernelOfTruth.PageRanges

/-! ## The pages of a range -/

theorem pageAt_zero (a : Word) : pageAt a 0 = a := by simp [pageAt]

theorem pageAt_succ (a : Word) (i : Nat) : pageAt a (i + 1) = pageAt a i + Page_Small := by
  unfold pageAt
  rw [Nat.succ_mul, BitVec.ofNat_add, BitVec.add_assoc]
  rfl

theorem pageAt_next (a : Word) (i : Nat) : pageAt (a + Page_Small) i = pageAt a (i + 1) := by
  rw [pageAt_succ]
  unfold pageAt
  rw [BitVec.add_assoc, BitVec.add_comm Page_Small, ← BitVec.add_assoc]

theorem index_toNat (a : Word) : (index4 a).toNat = a.toNat / 2 ^ 39 % 512 ∧ (index3 a).toNat = a.toNat / 2 ^ 30 % 512 ∧
    (index2 a).toNat = a.toNat / 2 ^ 21 % 512 ∧ (index1 a).toNat = a.toNat / 2 ^ 12 % 512 := by
  simp [index4, index3, index2, index1, BitVec.extractLsb'_toNat, Nat.shiftRight_eq_div_pow]

/-- Addresses of the same page agree in the bits from the 12th to the 47th. -/
theorem page_number_eq {a b : Word} (h : pagePath a = pagePath b) : a.toNat / 2 ^ 12 % 2 ^ 36 = b.toNat / 2 ^ 12 % 2 ^ 36 := by
  obtain ⟨ha4, ha3, ha2, ha1⟩ := index_toNat a
  obtain ⟨hb4, hb3, hb2, hb1⟩ := index_toNat b
  simp only [pagePath, List.cons.injEq, and_true] at h
  obtain ⟨h1, h2, h3, h4⟩ := h
  rw [h1] at ha1
  rw [h2] at ha2
  rw [h3] at ha3
  rw [h4] at ha4
  omega

theorem pageAt_number (a : Word) (i : Nat) :
    (pageAt a i).toNat / 2 ^ 12 % 2 ^ 36 = (a.toNat / 2 ^ 12 + i) % 2 ^ 36 := by
  unfold pageAt
  rw [BitVec.toNat_add, BitVec.toNat_ofNat]
  omega

theorem index4_fractal {a : Word} (h : a.toNat / 2 ^ 12 % 2 ^ 36 = 256 * 2 ^ 27) : index4 a = fractal := by
  apply BitVec.eq_of_toNat_eq
  rw [(index_toNat _).1]
  show _ = 256
  omega

theorem pagePath_injective {virt : Word} {count i j : Nat} (h : ∀ i < count, index4 (pageAt virt i) ≠ fractal)
    (hi : i < count) (hj : j < count) (heq : pagePath (pageAt virt i) = pagePath (pageAt virt j)) : i = j := by
  -- on the way from the one to the other lies a page of the window
  have key : ∀ i j, i < j → j < count → pagePath (pageAt virt i) ≠ pagePath (pageAt virt j) := by
    intro i j hij hj heq
    have hnum := page_number_eq heq
    rw [pageAt_number, pageAt_number] at hnum
    obtain ⟨k, hik, hkj, hk⟩ : ∃ k, i ≤ k ∧ k < j ∧ (virt.toNat / 2 ^ 12 + k) % 2 ^ 36 = 256 * 2 ^ 27 :=
      ⟨i + (256 * 2 ^ 27 + 2 ^ 36 - (virt.toNat / 2 ^ 12 + i) % 2 ^ 36) % 2 ^ 36, by omega, by omega, by omega⟩
    rw [← pageAt_number] at hk
    exact h k (by omega) (index4_fractal hk)
  rcases Nat.lt_trichotomy i j with hlt | rfl | hlt
  · exact absurd heq (key i j hlt hj)
  · rfl
  · exact absurd heq.symm (key j i hlt hi)

/-- A longer range would have a page of the window. -/
theorem count_lt {virt : Word} {count : Nat} (h : ∀ i < count, index4 (pageAt virt i) ≠ fractal) : count < 2 ^ 36 := by
  by_contra hlong
  obtain ⟨k, hk, hnumber⟩ : ∃ k < 2 ^ 36, (virt.toNat / 2 ^ 12 + k) % 2 ^ 36 = 256 * 2 ^ 27 :=
    ⟨(256 * 2 ^ 27 + 2 ^ 36 - virt.toNat / 2 ^ 12 % 2 ^ 36) % 2 ^ 36, by omega, by omega⟩
  rw [← pageAt_number] at hnumber
  exact h k (by omega) (index4_fractal hnumber)

section Ranges

variable {img : KernelImage} {ok : Set Word → Machine → Prop} {E : Halt → Prop} {m m' : Machine} {free free' : Set Word}
  {virt phys attrs : Word} {count : Nat} {physical_free : Word → Kernel Machine Unit}

theorem Avoids.next (h : Avoids img virt (count + 1)) : Avoids img (virt + Page_Small) count := by
  intro i hi
  rw [pageAt_next]
  exact h (i + 1) (by omega)

theorem Avoids.first (h : Avoids img virt (count + 1)) : index4 virt ≠ fractal ∧ pagePath virt ≠ pivotPage img := by
  have h0 := h 0 (by omega)
  rwa [pageAt_zero] at h0

theorem Avoids.mono {n : Nat} (h : Avoids img virt count) (hn : n ≤ count) : Avoids img virt n :=
  fun i hi => h i (by omega)

theorem Avoids.injective (h : Avoids img virt count) {i j : Nat} (hi : i < count) (hj : j < count)
    (heq : pagePath (pageAt virt i) = pagePath (pageAt virt j)) : i = j :=
  pagePath_injective (fun i hi => (h i hi).1) hi hj heq

theorem inRange_succ {page : List Index} :
    InRange virt (count + 1) page ↔ page = pagePath virt ∨ InRange (virt + Page_Small) count page := by
  constructor
  · rintro ⟨i, hi, rfl⟩
    cases i with
    | zero => exact .inl (by rw [pageAt_zero])
    | succ i => exact .inr ⟨i, by omega, by rw [pageAt_next]⟩
  · rintro (rfl | ⟨i, hi, rfl⟩)
    · exact ⟨0, by omega, by rw [pageAt_zero]⟩
    · exact ⟨i + 1, by omega, by rw [pageAt_next]⟩

theorem Avoids.first_not_later (h : Avoids img virt (count + 1)) : ¬ InRange (virt + Page_Small) count (pagePath virt) := by
  rintro ⟨i, hi, heq⟩
  rw [pageAt_next] at heq
  have h0 : pagePath (pageAt virt 0) = pagePath (pageAt virt (i + 1)) := by rw [pageAt_zero, heq]
  exact absurd (Avoids.injective h (by omega) (by omega) h0) (by omega)

/-! ## `unmap_range` -/

/-- What a call of `unmap_range` does. -/
structure UnmapsRange (img : KernelImage) (ok : Set Word → Machine → Prop) (virt : Word) (count : Nat) (freed : Set Word)
    (m m' : Machine) (free : Set Word) : Prop where
  ok : ok (free ∪ freed) m'
  tree : Tree m'
  tables : ∀ f, IsTable m' f ↔ IsTable m f
  others : ∀ {page : List Index}, PagePath page → page ≠ pivotPage img → ¬ InRange virt count page →
    walk m' page = walk m page
  pivot : PivotWalk img m m'
  unmapped : ∀ {page : List Index}, InRange virt count page → walk m' page = none

theorem unmapsRange_zero (ht : Tree m) (hok : ok free m) : UnmapsRange img ok virt 0 ∅ m m free := by
  refine ⟨by rwa [Set.union_empty], ht, fun _ => Iff.rfl, fun _ _ _ => rfl, .inl rfl, ?_⟩
  rintro page ⟨i, hi, -⟩
  omega

theorem unmapsRange_succ {m₁ : Machine} {flag : Bool} {freed : Set Word} (hav : Avoids img virt (count + 1))
    (hfirst : UnmapsPage img ok virt flag m m₁ free)
    (hrest : UnmapsRange img ok (virt + Page_Small) count freed m₁ m' (free ∪ freedBy m virt flag)) :
    UnmapsRange img ok virt (count + 1) (freedBy m virt flag ∪ freed) m m' free := by
  obtain ⟨hv, hne⟩ := Avoids.first hav
  refine ⟨?_, hrest.tree, fun f => (hrest.tables f).trans (hfirst.tables f), ?_, ?_, ?_⟩
  · rw [← Set.union_assoc]
    exact hrest.ok
  · intro page hpage hpivot hout
    rw [inRange_succ, not_or] at hout
    rw [hrest.others hpage hpivot hout.2, hfirst.others hpage hpivot hout.1]
  · exact pivotWalk_trans hfirst.pivot hrest.pivot
  · intro page hin
    rcases inRange_succ.mp hin with rfl | hin
    · rw [hrest.others (pagePath_of_index4 hv) hne (Avoids.first_not_later hav)]
      exact hfirst.unmapped
    · exact hrest.unmapped hin

theorem wp_unmap_range_keep (hav : Avoids img virt count) (laws : OkLaws img ok) (ht : Tree m) (hok : ok free m) :
    wp (unmap_range physical_free virt count false) (fun _ m' => UnmapsRange img ok virt count ∅ m m' free) E m := by
  induction count generalizing virt m with
  | zero => exact (wp_pure ..).mpr (unmapsRange_zero ht hok)
  | succ count ih =>
    obtain ⟨hv, hne⟩ := Avoids.first hav
    have hfreed : freedBy m virt false = ∅ := by simp [freedBy]
    rw [unmap_range, wp_bind]
    refine wp_imp (wp_unmap_page_keep hv hne laws ht hok) fun _ m₁ hfirst => ?_
    have hok₁ := hfirst.ok
    rw [hfreed, Set.union_empty] at hok₁
    refine wp_imp (ih (Avoids.next hav) hfirst.tree hok₁) fun _ m' hrest => ?_
    rw [← Set.union_empty free, ← hfreed] at hrest
    have hboth := unmapsRange_succ hav hfirst hrest
    rwa [hfreed, Set.union_empty] at hboth

/-! ## `map_range` -/

/-- What a call of `map_range` does. -/
structure MapsRange (img : KernelImage) (ok : Set Word → Machine → Prop) (virt phys : Word) (count : Nat) (attrs : Word)
    (status : Status) (m m' : Machine) (free free' : Set Word) : Prop where
  subset : free' ⊆ free
  ok : ok free' m'
  tree : Tree m'
  tables : ∀ f, IsTable m' f ↔ IsTable m f ∨ (f ∈ free ∧ f ∉ free')
  others : ∀ {page : List Index}, PagePath page → page ≠ pivotPage img → ¬ InRange virt count page →
    walk m' page = walk m page
  pivot : PivotWalk img m m'
  mapped : status = .Ok → ∀ i < count, walk m (pagePath (pageAt virt i)) = none ∧
    walk m' (pagePath (pageAt virt i)) = leafValue (leafEntry (pageAt phys i) attrs)
  failed : status ≠ .Ok → ∀ i < count, walk m' (pagePath (pageAt virt i)) = walk m (pagePath (pageAt virt i))

theorem mapsRange_zero (ht : Tree m) (hok : ok free m) : MapsRange img ok virt phys 0 attrs .Ok m m free free where
  subset := subset_rfl
  ok := hok
  tree := ht
  tables f := by tauto
  others _ _ _ := rfl
  pivot := .inl rfl
  mapped _ i hi := absurd hi (by omega)
  failed h := absurd rfl h

variable {i : Nat} {mi : Machine} {freei : Set Word} {alloc : Kernel Machine Word}

/-- One more page. -/
theorem mapsRange_next (hav : Avoids img virt (i + 1)) (h : MapsRange img ok virt phys i attrs .Ok m mi free freei)
    (hpage : MapsPage img ok (pageAt virt i) (pageAt phys i) attrs .Ok mi m' freei free') :
    MapsRange img ok virt phys (i + 1) attrs .Ok m m' free free' := by
  obtain ⟨hv, hne⟩ := hav i (by omega)
  obtain ⟨hbefore, hafter, -⟩ := hpage.mapped rfl
  have hnot : ¬ InRange virt i (pagePath (pageAt virt i)) := by
    rintro ⟨j, hj, heq⟩
    exact absurd (Avoids.injective hav (by omega) (by omega) heq) (by omega)
  refine ⟨hpage.subset.trans h.subset, hpage.ok, hpage.tree, ?_, ?_, pivotWalk_trans h.pivot hpage.pivot, ?_,
    fun h => absurd rfl h⟩
  · intro f
    have hsub := @h.subset f
    have hsub' := @hpage.subset f
    rw [hpage.tables, h.tables]
    tauto
  · intro page hp hpivot hout
    have hout' : ¬ InRange virt i page := fun ⟨j, hj, heq⟩ => hout ⟨j, by omega, heq⟩
    rw [hpage.others hp hpivot fun heq => hout ⟨i, by omega, heq⟩, h.others hp hpivot hout']
  · intro _ j hj
    rcases Nat.lt_succ_iff_lt_or_eq.mp hj with hj | rfl
    · obtain ⟨hvj, hnej⟩ := hav j (by omega)
      obtain ⟨hbeforej, hafterj⟩ := h.mapped rfl j hj
      refine ⟨hbeforej, ?_⟩
      rw [hpage.others (pagePath_of_index4 hvj) hnej, hafterj]
      exact fun heq => hnot ⟨j, hj, heq.symm⟩
    · rw [← h.others (pagePath_of_index4 hv) hne hnot]
      exact ⟨hbefore, hafter⟩

/-- A page cannot be mapped, and the ones before it are unmapped again. -/
theorem mapsRange_undone {status : Status} {m₁ : Machine} {free₁ : Set Word} (hav : Avoids img virt count)
    (h : MapsRange img ok virt phys i attrs .Ok m mi free freei) (hstatus : status ≠ .Ok)
    (hpage : MapsPage img ok (pageAt virt i) (pageAt phys i) attrs status mi m₁ freei free₁)
    (hundo : UnmapsRange img ok virt i ∅ m₁ m' free₁) :
    MapsRange img ok virt phys count attrs .Error_Present m m' free free₁ := by
  have hsame : ∀ {page : List Index}, PagePath page → page ≠ pivotPage img → walk m₁ page = walk mi page := by
    intro page hp hpivot
    by_cases heq : page = pagePath (pageAt virt i)
    · rw [heq]
      exact hpage.failed hstatus
    · exact hpage.others hp hpivot heq
  have hall : ∀ {page : List Index}, PagePath page → page ≠ pivotPage img → walk m' page = walk m page := by
    intro page hp hpivot
    by_cases hin : InRange virt i page
    · rw [hundo.unmapped hin]
      obtain ⟨j, hj, rfl⟩ := hin
      exact (h.mapped rfl j hj).1.symm
    · rw [hundo.others hp hpivot hin, hsame hp hpivot, h.others hp hpivot hin]
  have hok := hundo.ok
  rw [Set.union_empty] at hok
  refine ⟨hpage.subset.trans h.subset, hok, hundo.tree, ?_, fun hp hpivot _ => hall hp hpivot,
    pivotWalk_trans h.pivot (pivotWalk_trans hpage.pivot hundo.pivot), fun h => (by cases h), ?_⟩
  · intro f
    have hsub := @h.subset f
    have hsub' := @hpage.subset f
    rw [hundo.tables, hpage.tables, h.tables]
    tauto
  · intro _ j hj
    obtain ⟨hvj, hnej⟩ := hav j hj
    exact hall (pagePath_of_index4 hvj) hnej

-- by induction on the number of pages that are left
theorem wp_mapRangeFrom (laws : AllocLaws img ok alloc E) (hav : Avoids img virt (i + count))
    (h : MapsRange img ok virt phys i attrs .Ok m mi free freei) :
    wp (mapRangeFrom alloc physical_free virt attrs i (pageAt virt i) (pageAt phys i) count)
      (fun status m' => ∃ free', MapsRange img ok virt phys (i + count) attrs status m m' free free') E mi := by
  induction count generalizing i mi freei with
  | zero => exact (wp_pure ..).mpr ⟨freei, h⟩
  | succ count ih =>
    obtain ⟨hv, hne⟩ := hav i (by omega)
    rw [mapRangeFrom, wp_bind]
    refine wp_imp (wp_map_page hv hne laws h.tree h.ok) ?_
    rintro status m₁ ⟨free₁, hpage⟩
    rw [wp_ite]
    split
    · rename_i hstatus
      rw [wp_bind]
      refine wp_imp (wp_unmap_range_keep (Avoids.mono hav (by omega)) laws.toOkLaws hpage.tree hpage.ok) fun _ m' hundo => ?_
      exact (wp_pure ..).mpr ⟨free₁, mapsRange_undone hav h hstatus hpage hundo⟩
    · rename_i hstatus
      simp only [ne_eq, Decidable.not_not] at hstatus
      subst hstatus
      rw [← pageAt_succ, ← pageAt_succ, show i + (count + 1) = i + 1 + count by omega] at *
      exact ih hav (mapsRange_next (Avoids.mono hav (by omega)) h hpage)

theorem wp_map_range (laws : AllocLaws img ok alloc E) (hav : Avoids img virt count) (ht : Tree m) (hok : ok free m) :
    wp (map_range alloc physical_free virt phys count attrs)
      (fun status m' => ∃ free', MapsRange img ok virt phys count attrs status m m' free free') E m := by
  have hstart : MapsRange img ok virt phys 0 attrs .Ok m m free free := mapsRange_zero ht hok
  have hloop : wp (mapRangeFrom alloc physical_free virt attrs 0 (pageAt virt 0) (pageAt phys 0) count) _ E m :=
    wp_mapRangeFrom laws (by rwa [Nat.zero_add]) hstart
  rwa [pageAt_zero, pageAt_zero, Nat.zero_add] at hloop

theorem pageAt_toNat {a : Word} (h : a.toNat + i * 4096 < 2 ^ 64) : (pageAt a i).toNat = a.toNat + i * 4096 := by
  unfold pageAt
  rw [BitVec.toNat_add, BitVec.toNat_ofNat]
  omega

theorem pageAt_isFrame (halign : is_aligned phys Page_Small) (hphys : phys.toNat + count * 4096 ≤ 2 ^ 52)
    (hi : i < count) : IsFrame (pageAt phys i) := by
  have hal := (is_aligned_iff _).mp halign
  have hnat := pageAt_toNat (a := phys) (i := i) (by omega)
  exact page_entry_aligned (by omega) (by omega)

theorem mapsRange_ok (h : MapsRange img ok virt phys count attrs .Ok m m' free free') (halign : is_aligned phys Page_Small)
    (hphys : phys.toNat + count * 4096 ≤ 2 ^ 52) (hattrs : attrs &&& Memory_Permissions_Mask = attrs) :
    RangeMapped img virt phys count attrs m m' := by
  refine ⟨fun i hi => ?_, fun page hp hpivot hout => h.others hp hpivot hout⟩
  have hframe := pageAt_isFrame halign hphys hi
  rw [(h.mapped rfl i hi).2, leafValue, if_pos (leafEntry_present _ attrs), leafEntry_phys hframe hattrs,
    leafEntry_perms hattrs]

theorem mapsRange_failed {status : Status} (h : MapsRange img ok virt phys count attrs status m m' free free')
    (hstatus : status ≠ .Ok) : SameWalks img m m' := by
  intro page hp hpivot
  by_cases hin : InRange virt count page
  · obtain ⟨i, hi, rfl⟩ := hin
    exact h.failed hstatus i hi
  · exact h.others hp hpivot hin

/-- `map_range` maps all pages of the range, or it leaves every translation as it was. -/
theorem map_range_all_or_nothing (laws : AllocLaws img ok alloc E) (ht : Tree m) (hok : ok free m)
    (hav : Avoids img virt count) (halign : is_aligned phys Page_Small) (hphys : phys.toNat + count * 4096 ≤ 2 ^ 52)
    (hattrs : attrs &&& Memory_Permissions_Mask = attrs) :
    wp (map_range alloc physical_free virt phys count attrs) (fun status m' =>
      (status = .Ok → RangeMapped img virt phys count attrs m m') ∧ (status ≠ .Ok → SameWalks img m m')) E m := by
  refine wp_imp (wp_map_range laws hav ht hok) ?_
  rintro status m' ⟨free', h⟩
  refine ⟨?_, fun hstatus => mapsRange_failed h hstatus⟩
  rintro rfl
  exact mapsRange_ok h halign hphys hattrs

end Ranges

theorem map_range_one {alloc : Kernel Machine Word} (physical_free : Word → Kernel Machine Unit) {virt phys attrs : Word}
    {m m' : Machine} (h : (map_page alloc virt phys attrs).run m = .ok (.Ok, m')) :
    (map_range alloc physical_free virt phys 1 attrs).run m = .ok (.Ok, m') := by
  have hrun : wp (map_range alloc physical_free virt phys 1 attrs) (fun status m₁ => status = .Ok ∧ m₁ = m')
      (fun _ => False) m := by
    rw [map_range, mapRangeFrom, wp_bind, wp_of_run h, if_neg (by decide), mapRangeFrom, wp_pure]
    exact ⟨rfl, rfl⟩
  obtain ⟨_, _, hok, rfl, rfl⟩ := wp_total hrun
  exact hok

/-- One page, and three tables on the way to it. -/
theorem stocked_maps_range : Avoids linkedImage 0x1000 1 ∧ ∃ m',
    (map_range (physical_alloc linkedImage) (physical_free linkedImage) 0x1000 0x5000 1 Memory_Writable).run
      stockedMachine = .ok (.Ok, m') ∧
    RangeMapped linkedImage 0x1000 0x5000 1 Memory_Writable stockedMachine m' := by
  have hlaws := physical_alloc_laws (E := fun _ => True) linkedImage linkedTables trivial
  have hav : Avoids linkedImage 0x1000 1 := by
    unfold Avoids
    decide
  obtain ⟨m', hpage⟩ : ∃ m', (map_page (physical_alloc linkedImage) 0x1000 0x5000 Memory_Writable).run stockedMachine =
      .ok (.Ok, m') := ⟨_, rfl⟩
  have hrun := map_range_one (physical_free linkedImage) hpage
  have hall := wp_ok (map_range_all_or_nothing hlaws (boot_tree stocked_boot) stocked_ok hav (by decide) (by decide)
    (by decide)) hrun
  exact ⟨hav, m', hrun, hall.1 rfl⟩

end KernelOfTruth.PageRanges
