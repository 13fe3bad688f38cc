import KernelOfTruth.Slab
import Mathlib.Data.Set.Card

/-!
# `slab_free` undoes `slab_alloc`

Each page takes at most four free pages: its frame, and a table on each of the three levels. The frames come back, and
the tables stay.
-/

open KernelOfTruth.Lib KernelOfTruth.Code KernelOfTruth.Spec KernelOfTruth.Bits KernelOfTruth.Rules
  KernelOfTruth.Regions KernelOfTruth.Window KernelOfTruth.Tables KernelOfTruth.Paging
  KernelOfTruth.PhysicalAllocator KernelOfTruth.MapPage KernelOfTruth.PageOps KernelOfTruth.PageStack
  KernelOfTruth.FreePages KernelOfTruth.PageRanges KernelOfTruth.Slab

namespace KernelOfTruth.SlabRoundTrip

variable {img : KernelImage} {pt : PivotTables} {m m' : Machine} {free : Set Word} {E : Halt → Prop}
  {virt attrs : Word} {count : Nat}

/-! ## Enough pages -/

/-- The allocator has `k` pages, unless it was short of them from the start. -/
def Stocked (img : KernelImage) (pt : PivotTables) (short : Prop) (k : Nat) (free : Set Word) (m : Machine) : Prop :=
  PagesOk img pt free m ∧ ((k : ENat) ≤ free.encard ∨ short)

theorem stocked_laws (img : KernelImage) (pt : PivotTables) (short : Prop) :
    BudgetLaws img (Stocked img pt short) (physical_alloc img) (fun e => e = .page_fault ∧ short) False where
  laws k :=
    { link := fun ht hok hq hf habs he her hfresh hr => ⟨pagesOk_link ht hok.1 hq hf habs he her hfresh hr, hok.2⟩
      leaf := fun e ht hok hpage hne hf => ⟨pagesOk_leaf e ht hok.1 hpage hne hf, hok.2⟩ }
  fewer := by
    rintro k m free ⟨hok, henough⟩
    refine ⟨hok, henough.imp_left fun h => le_trans ?_ h⟩
    exact_mod_cast Nat.le_succ k
  alloc := by
    rintro k m free ht ⟨hok, henough⟩
    have hfault : free = ∅ → Halt.page_fault = .page_fault ∧ short := by
      rintro rfl
      rw [Set.encard_empty] at henough
      refine ⟨rfl, henough.resolve_left fun h => ?_⟩
      exact absurd (by exact_mod_cast h : k + 1 ≤ 0) (by omega)
    refine wp_imp (wp_alloc_confined hfault ht hok) ?_
    rintro r m' ⟨hr, hok', -, hmoved⟩
    refine ⟨hmoved, .inr ⟨hr, good_isFrame (free_good hok.stack hr), hok.apart r hr, hok', henough.imp_left fun h => ?_⟩⟩
    rw [← Set.encard_sdiff_singleton_add_one hr] at h
    exact_mod_cast (ENat.add_le_add_iff_right ENat.one_ne_top).mp h

/-! ## The loop of `slab_alloc_helper` -/

/-- The first `i` pages are mapped to the frames `frame 0`, .., which were free, and other pages that were free are now
page tables. -/
structure MapsFrames (img : KernelImage) (ok : Set Word → Machine → Prop) (virt : Word) (i : Nat) (frame : Nat → Word)
    (m mi : Machine) (free freei : Set Word) : Prop where
  subset : freei ⊆ free
  ok : ok freei mi
  tree : Tree mi
  tables : ∀ f, IsTable mi f ↔ IsTable m f ∨ (f ∈ free ∧ f ∉ freei ∧ ∀ j < i, frame j ≠ f)
  others : ∀ {page : List Index}, PagePath page → page ≠ pivotPage img → ¬ InRange virt i page → walk mi page = walk m page
  mapped : ∀ j < i, ∃ perms, walk mi (pagePath (pageAt virt j)) = some (frame j, perms)
  taken : ∀ j < i, frame j ∈ free ∧ frame j ∉ freei
  distinct : ∀ j < i, ∀ k < i, frame j = frame k → j = k

theorem mapsFrames_zero {ok : Set Word → Machine → Prop} (ht : Tree m) (hok : ok free m) (frame : Nat → Word) :
    MapsFrames img ok virt 0 frame m m free free where
  subset := subset_rfl
  ok := hok
  tree := ht
  tables f := by tauto
  others _ _ _ := rfl
  mapped j hj := absurd hj (by omega)
  taken j hj := absurd hj (by omega)
  distinct j hj := absurd hj (by omega)

theorem mapsFrames_next {ok ok' : Set Word → Machine → Prop} {i : Nat} {frame : Nat → Word} {mi m₁ : Machine}
    {freei free' : Set Word} {r : Word} (hav : Avoids img virt (i + 1)) (hattrs : page_entry_to_phys attrs = 0)
    (h : MapsFrames img ok virt i frame m mi free freei) (hmoved : MovesPivot img mi m₁) (hr : r ∈ freei) (hframe : IsFrame r)
    (hpage : MapsPage img ok' (pageAt virt i) r attrs .Ok m₁ m' (freei \ {r}) free') :
    MapsFrames img ok' virt (i + 1) (Function.update frame i r) m m' free free' := by
  obtain ⟨hv, hne⟩ := hav i (by omega)
  have hold : ∀ j < i, Function.update frame i r j = frame j := fun j hj => Function.update_of_ne (by omega) _ _
  have hnew : Function.update frame i r i = r := Function.update_self ..
  have hsub : ∀ f ∈ free', f ∈ freei ∧ f ≠ r := fun f hf => hpage.subset hf
  have hr' : ∀ j < i, frame j ≠ r := fun j hj heq => (h.taken j hj).2 (heq ▸ hr)
  refine ⟨fun f hf => h.subset (hsub f hf).1, hpage.ok, hpage.tree, ?_, ?_, ?_, ?_, ?_⟩
  · intro f
    have hsplit : (∀ j < i + 1, Function.update frame i r j ≠ f) ↔ (∀ j < i, frame j ≠ f) ∧ r ≠ f := by
      constructor
      · intro hall
        exact ⟨fun j hj => hold j hj ▸ hall j (by omega), hnew ▸ hall i (by omega)⟩
      · rintro ⟨hall, hlast⟩ j hj
        rcases Nat.lt_succ_iff_lt_or_eq.mp hj with hj | rfl
        · rw [hold j hj]
          exact hall j hj
        · rwa [hnew]
    have hfree := @h.subset f
    have hsub' := hsub f
    have hall : f ∈ freei → ∀ j < i, frame j ≠ f := fun hf j hj heq => (h.taken j hj).2 (heq ▸ hf)
    have heq : r = f → f ∈ freei := fun heq => heq ▸ hr
    rw [hsplit, hpage.tables, hmoved.same.isTable pivotPage_length, h.tables, Set.mem_sdiff, Set.mem_singleton_iff,
      eq_comm (a := f)]
    tauto
  · intro page hp hpivot hout
    have hout' : ¬ InRange virt i page := fun ⟨j, hj, heq⟩ => hout ⟨j, by omega, heq⟩
    rw [hpage.others hp hpivot fun heq => hout ⟨i, by omega, heq⟩, hmoved.same.walk pivotPage_length hp hpivot,
      h.others hp hpivot hout']
  · intro j hj
    rcases Nat.lt_succ_iff_lt_or_eq.mp hj with hj | rfl
    · obtain ⟨hvj, hnej⟩ := hav j (by omega)
      obtain ⟨perms, hwalk⟩ := h.mapped j hj
      refine ⟨perms, ?_⟩
      rw [hold j hj, hpage.others (pagePath_of_index4 hvj) hnej, hmoved.same.walk pivotPage_length (pagePath_of_index4 hvj) hnej,
        hwalk]
      exact fun heq => absurd (Avoids.injective hav (by omega) (by omega) heq) (by omega)
    · refine ⟨leafEntry r attrs &&& Memory_Permissions_Mask, ?_⟩
      rw [hnew, (hpage.mapped rfl).2.1, leafValue, if_pos (leafEntry_present _ _), leafEntry_frame hframe hattrs]
  · intro j hj
    rcases Nat.lt_succ_iff_lt_or_eq.mp hj with hj | rfl
    · rw [hold j hj]
      exact ⟨(h.taken j hj).1, fun hf => (h.taken j hj).2 (hsub _ hf).1⟩
    · rw [hnew]
      exact ⟨h.subset hr, fun hf => (hsub _ hf).2 rfl⟩
  · intro j hj k hk heq
    rcases Nat.lt_succ_iff_lt_or_eq.mp hj with hj | rfl <;> rcases Nat.lt_succ_iff_lt_or_eq.mp hk with hk | rfl
    · rw [hold j hj, hold k hk] at heq
      exact h.distinct j hj k hk heq
    · rw [hold j hj, hnew] at heq
      exact absurd heq (hr' j hj)
    · rw [hold k hk, hnew] at heq
      exact absurd heq.symm (hr' k hk)
    · rfl

/-- Without user access, the address does not matter. -/
theorem permissionsRefused_congr {v w : Word} (huser : attrs &&& Memory_User_Access = 0) :
    permissionsRefused v attrs = permissionsRefused w attrs := by
  simp [permissionsRefused, huser]

section Alloc

variable {short : Prop} {s : SlabState}
  (hattrs : page_entry_to_phys attrs = 0) (hallowed : ∀ v, permissionsRefused v attrs = false)
include hattrs hallowed

-- by induction on the number of pages that are left
theorem wp_slabAllocLoop {i : Nat} {frame : Nat → Word} {freei : Set Word} {p : Word}
    (hav : Avoids img virt (i + count))
    (hnone : ∀ j < i + count, walk m (pagePath (pageAt virt j)) = none)
    (h : MapsFrames img (Stocked img pt short (4 * count)) virt i frame m s.machine free freei) :
    wp (slabAllocLoop img virt attrs i (pageAt virt i) p count) (fun _ s' => s' = { s with machine := s'.machine } ∧
      ∃ frame' free', MapsFrames img (PagesOk img pt) virt (i + count) frame' m s'.machine free free')
      (fun e => e = .page_fault ∧ short) s := by
  induction count generalizing i frame freei p s with
  | zero => exact (wp_pure ..).mpr ⟨rfl, frame, freei, { h with ok := h.ok.1 }⟩
  | succ count ih =>
    obtain ⟨hv, hne⟩ := hav i (by omega)
    have hpath := pagePath_of_index4 hv
    have hok : Stocked img pt short (4 * count + 3 + 1) freei s.machine := h.ok
    have laws := stocked_laws img pt short
    simp only [slabAllocLoop, wp_bind, wp_onMachine]
    refine wp_imp (laws.alloc h.tree hok) ?_
    rintro r m₁ ⟨hmoved, ⟨-, hfalse, -⟩ | ⟨hr, hframe, -, hok₁⟩⟩
    · exact hfalse.elim
    have hvalid : r ≠ invalid_phys_addr := by
      rintro rfl
      exact absurd hframe (by unfold IsFrame; decide)
    rw [wp_assert_decide hvalid]
    have ht₁ : Tree m₁ := hmoved.same.tree pivotPage_length h.tree
    refine wp_imp (wp_map_page_budget hv hne laws ht₁ hok₁) ?_
    rintro status m₂ ⟨free₂, hpage, hreason⟩
    have hfresh : walk m₁ (pagePath (pageAt virt i)) = none := by
      rw [hmoved.same.walk pivotPage_length hpath hne, h.others hpath hne, hnone i (by omega)]
      rintro ⟨j, hj, heq⟩
      exact absurd (Avoids.injective hav (by omega) (by omega) heq) (by omega)
    obtain rfl : status = .Ok := by
      by_contra hstatus
      rcases hreason hstatus with hrefused | hmapped | hfalse
      · rw [hallowed] at hrefused
        cases hrefused
      · exact hmapped hfresh
      · exact hfalse
    rw [if_neg (by decide)]
    have hnext := mapsFrames_next (Avoids.mono hav (by omega)) hattrs h hmoved hr hframe hpage
    rw [← pageAt_succ]
    rw [show i + (count + 1) = i + 1 + count by omega] at hav hnone ⊢
    exact ih (s := { s with machine := m₂ }) hav hnone hnext

end Alloc

/-! ## The frames come back -/

/-- Pages that are mapped to different frames are unmapped, and the frames are freed. -/
theorem wp_unmap_range_frames (frame : Nat → Word) (hav : Avoids img virt count) (ht : Tree m) (hok : PagesOk img pt free m)
    (hmapped : ∀ j < count, ∃ perms, walk m (pagePath (pageAt virt j)) = some (frame j, perms))
    (hused : ∀ j < count, frame j ∉ free ∧ ¬ IsTable m (frame j) ∧ (frame j).toNat + Page_Small.toNat < 2 ^ 48)
    (hdistinct : ∀ j < count, ∀ k < count, frame j = frame k → j = k) :
    wp (unmap_range (physical_free img) virt count true)
      (fun _ m' => UnmapsRange img (PagesOk img pt) virt count { f | ∃ j < count, frame j = f } m m' free) E m := by
  induction count generalizing virt m free frame with
  | zero =>
    have hempty : { f | ∃ j < 0, frame j = f } = ∅ := by simp
    rw [hempty]
    exact (wp_pure ..).mpr (unmapsRange_zero ht hok)
  | succ count ih =>
    obtain ⟨hv, hne⟩ := Avoids.first hav
    obtain ⟨hfree, htable, hbelow⟩ := hused 0 (by omega)
    obtain ⟨perms, hwalk⟩ := hmapped 0 (by omega)
    rw [pageAt_zero] at hwalk
    have hfirst : freedBy m virt true = {frame 0} := by
      ext f
      simp [freedBy, hwalk, eq_comm]
    rw [unmap_range, wp_bind]
    refine wp_imp (wp_unmap_page_given hv hne (pagesOk_laws img pt) ht hok fun e he => ?_) fun _ m₁ hunmaps => ?_
    · -- the entry is the one that the page is mapped with
      have hleaf : leafValue e = some (frame 0, perms) := by simpa [walk, he] using hwalk
      unfold leafValue at hleaf
      split at hleaf
      · rename_i hpres
        have hphys : page_entry_to_phys e = frame 0 := congrArg Prod.fst (Option.some.inj hleaf)
        have hframe := isFrame_page_entry e
        rw [hphys] at hframe ⊢
        exact ⟨hpres, pagesOk_free (fun hnot => absurd hbelow hnot) ht hok hframe hfree htable⟩
      · cases hleaf
    have hrest : wp _ _ E m₁ := ih (fun j => frame (j + 1)) (Avoids.next hav) hunmaps.tree hunmaps.ok ?_ ?_ ?_
    · refine wp_imp hrest fun _ m' hlater => ?_
      have hboth := unmapsRange_succ hav hunmaps hlater
      have hunion : freedBy m virt true ∪ { f | ∃ j < count, frame (j + 1) = f } = { f | ∃ j < count + 1, frame j = f } := by
        ext f
        rw [hfirst]
        constructor
        · rintro (rfl | ⟨j, hj, rfl⟩)
          · exact ⟨0, by omega, rfl⟩
          · exact ⟨j + 1, by omega, rfl⟩
        · rintro ⟨_ | j, hj, rfl⟩
          · exact .inl rfl
          · exact .inr ⟨j, by omega, rfl⟩
      rwa [hunion] at hboth
    · intro j hj
      obtain ⟨hvj, hnej⟩ := Avoids.next hav j hj
      obtain ⟨perms', hlater⟩ := hmapped (j + 1) (by omega)
      refine ⟨perms', ?_⟩
      rw [hunmaps.others (pagePath_of_index4 hvj) hnej, pageAt_next, hlater]
      exact fun heq => Avoids.first_not_later hav ⟨j, hj, heq.symm⟩
    · intro j hj
      obtain ⟨hfree', htable', hbelow'⟩ := hused (j + 1) (by omega)
      refine ⟨?_, by rwa [hunmaps.tables], hbelow'⟩
      rw [hfirst]
      rintro (hmem | hmem)
      · exact hfree' hmem
      · exact absurd (hdistinct (j + 1) (by omega) 0 (by omega) hmem) (by omega)
    · intro j hj k hk heq
      exact Nat.succ.inj (hdistinct (j + 1) (by omega) (k + 1) (by omega) heq)

/-! ## Both calls -/

section RoundTrip

variable {slab_higher_half : Word} {pages : List Word} {s : SlabState} {n : Word} {r : Region}

theorem wp_slab_alloc (h : Ready img pt slab_higher_half pages free s) (hn : is_aligned n Page_Small)
    (hattrs : page_entry_to_phys attrs = 0) (huser : attrs &&& Memory_User_Access = 0)
    (hallowed : permissionsRefused r.address attrs = false) (hfit : firstFit (slabMemory s) pages n = some r)
    (hnone : ∀ i < n.toNat / Page_Small.toNat, walk s.machine (pagePath (pageAt r.address i)) = none) :
    wp (slab_alloc img slab_higher_half n attrs) (fun result s' => result = r.address ∧ s'.Usage = s.Usage - n ∧
      IsVector (slabMemory s') slab_higher_half pages ∧ HasSlot (slabMemory s') pages ∧
      ranges (slabMemory s') pages = ⟨r.address + n, r.size - n⟩ ::ₘ (ranges (slabMemory s) pages).erase r ∧
      ∃ frame free', MapsFrames img (PagesOk img pt) r.address (n.toNat / Page_Small.toNat) frame s.machine s'.machine free
        free')
      (fun e => e = .page_fault ∧ free.encard < 4 * (n.toNat / Page_Small.toNat : Nat)) s := by
  have hshh : slab_higher_half ≠ 0 := (vector_head h.vector).2
  unfold slab_alloc slab_alloc_helper
  simp only [wp_bind, wp_assert_decide huser, wp_assert_decide hshh, hn, Bool.not_true, if_neg Bool.false_ne_true]
  refine wp_imp (wp_slab_region_alloc h.vector h.slot n) ?_
  rintro _ s₁ (⟨-, -, hno⟩ | ⟨r', hr, hlt, hfit', rfl, hslot, htaken⟩)
  · rw [hfit] at hno
    cases hno
  · obtain rfl : r = r' := Option.some.inj (hfit.symm.trans hfit')
    have hav := front_avoids (h.kernel r hr) hlt
    generalize n.toNat / Page_Small.toNat = count at hnone hav ⊢
    have hstart : MapsFrames img (Stocked img pt (free.encard < 4 * (count : Nat)) (4 * count)) r.address 0 (fun _ => 0)
        s.machine s₁.machine free free := by
      rw [htaken.machine]
      refine mapsFrames_zero h.tree ⟨h.stock, ?_⟩ _
      exact_mod_cast le_or_gt _ _
    have hallowed' : ∀ v, permissionsRefused v attrs = false := fun v => (permissionsRefused_congr huser).trans hallowed
    have hloop := wp_slabAllocLoop (p := 0) hattrs hallowed' (by rwa [Nat.zero_add]) (by rwa [Nat.zero_add]) hstart
    rw [pageAt_zero, Nat.zero_add] at hloop
    simp only [wp_bind, subUsage, wp_modify, wp_pure]
    refine wp_imp hloop ?_
    rintro _ s₂ ⟨hs₂, hframes⟩
    rw [hs₂] at hframes ⊢
    exact ⟨trivial, by rw [← htaken.usage], htaken.vector, hslot, htaken.ranges, hframes⟩

/-- The frames that are still mapped are freed, and the range is put back. -/
theorem wp_slab_free (h : Ready img pt slab_higher_half pages free s) {s₁ : SlabState} {frame : Nat → Word} {free₁ : Set Word}
    (hr : r ∈ ranges (slabMemory s) pages) (hlt : n < r.size) (husage : s₁.Usage = s.Usage - n)
    (hnone : ∀ i < n.toNat / Page_Small.toNat, walk s.machine (pagePath (pageAt r.address i)) = none)
    (hvector : IsVector (slabMemory s₁) slab_higher_half pages) (hslot : HasSlot (slabMemory s₁) pages)
    (hranges : ranges (slabMemory s₁) pages = ⟨r.address + n, r.size - n⟩ ::ₘ (ranges (slabMemory s) pages).erase r)
    (hframes : MapsFrames img (PagesOk img pt) r.address (n.toNat / Page_Small.toNat) frame s.machine s₁.machine free free₁) :
    wp (slab_free img slab_higher_half n r.address) (fun _ s' =>
      Untouched img slab_higher_half (freeBytes (ranges (slabMemory s) pages)) s s' ∧
      Holds s'.machine (free \ { f | IsTable s'.machine f })) E s₁ := by
  have hkernel := h.kernel r hr
  have hav := front_avoids hkernel hlt
  have hhigh : memory_is_lower_half r.address = false := by
    rw [BitVec.lt_def] at hlt
    exact hkernel.higher _ ⟨le_rfl, by omega⟩
  unfold slab_free slab_free_helper
  rw [wp_bind, wp_assert (by rw [hhigh]; rfl), if_neg (front_ne_zero hkernel hlt)]
  generalize n.toNat / Page_Small.toNat = count at hnone hframes hav ⊢
  simp only [wp_bind, wp_onMachine, addUsage, wp_modify]
  have hused : ∀ j < count, frame j ∉ free₁ ∧ ¬ IsTable s₁.machine (frame j) ∧
      (frame j).toNat + Page_Small.toNat < 2 ^ 48 := by
    intro j hj
    obtain ⟨hfree, hnot⟩ := hframes.taken j hj
    refine ⟨hnot, ?_, (free_good h.stock.stack hfree).below⟩
    rw [hframes.tables]
    rintro (htable | ⟨-, -, hall⟩)
    · exact h.stock.apart _ hfree htable
    · exact hall j hj rfl
  refine wp_imp (wp_unmap_range_frames frame hav hframes.tree hframes.ok hframes.mapped hused hframes.distinct) ?_
  rintro _ m₂ hunmaps
  refine wp_imp (wp_slabRegionFree (s := ⟨m₂, s₁.nodes, s₁.Usage + n⟩) hvector hslot r.address n) ?_
  rintro _ s₃ hback
  refine ⟨⟨⟨pages, hback.vector, ?_⟩, ?_, ?_⟩, ?_⟩
  · have hranges₂ : ranges (slabMemory ⟨m₂, s₁.nodes, s₁.Usage + n⟩) pages = _ := hranges
    rw [hback.ranges, hranges₂]
    exact freeBytes_restored hr hlt hkernel.fits
  · rw [hback.usage]
    show s₁.Usage + n = s.Usage
    rw [husage, BitVec.sub_add_cancel]
  · intro page hp hpivot
    rw [hback.machine]
    by_cases hin : InRange r.address count page
    · rw [hunmaps.unmapped hin]
      obtain ⟨i, hi, rfl⟩ := hin
      exact (hnone i hi).symm
    · rw [hunmaps.others hp hpivot hin, hframes.others hp hpivot hin]
  · rw [hback.machine]
    have hset : free₁ ∪ { f | ∃ j < count, frame j = f } = free \ { f | IsTable m₂ f } := by
      ext f
      have hsub := @hframes.subset f
      have happart := h.stock.apart f
      have htaken : (∃ j < count, frame j = f) → f ∈ free := by
        rintro ⟨j, hj, rfl⟩
        exact (hframes.taken j hj).1
      have hall : (∀ j < count, frame j ≠ f) ↔ ¬ ∃ j < count, frame j = f := by simp
      rw [Set.mem_union, Set.mem_sdiff, Set.mem_ofPred_eq, Set.mem_ofPred_eq, hunmaps.tables, hframes.tables, hall]
      generalize (∃ j < count, frame j = f) = mapped at htaken ⊢
      tauto
    rw [← hset]
    exact hunmaps.ok.stack.holds

theorem slab_free_undoes_slab_alloc (h : Ready img pt slab_higher_half pages free s) (hn : is_aligned n Page_Small)
    (hattrs : page_entry_to_phys attrs = 0) (huser : attrs &&& Memory_User_Access = 0)
    (hallowed : permissionsRefused r.address attrs = false) (hfit : firstFit (slabMemory s) pages n = some r)
    (hnone : ∀ i < n.toNat / Page_Small.toNat, walk s.machine (pagePath (pageAt r.address i)) = none) :
    wp (do
        let address ← slab_alloc img slab_higher_half n attrs
        slab_free img slab_higher_half n address)
      (fun _ s' => Untouched img slab_higher_half (freeBytes (ranges (slabMemory s) pages)) s s' ∧
        Holds s'.machine (free \ { f | IsTable s'.machine f }))
      (fun e => e = .page_fault ∧ free.encard < 4 * (n.toNat / Page_Small.toNat : Nat)) s := by
  have hr : r ∈ ranges (slabMemory s) pages := mem_inOrder.mp (List.mem_of_find?_eq_some hfit)
  have hlt : n < r.size := by simpa using List.find?_some hfit
  rw [wp_bind]
  refine wp_imp (wp_slab_alloc h hn hattrs huser hallowed hfit hnone) ?_
  rintro _ s₁ ⟨rfl, husage, hvector, hslot, hranges, frame, free₁, hframes⟩
  exact wp_slab_free h hr hlt husage hnone hvector hslot hranges hframes

end RoundTrip

theorem stockedPages_four : (4 : ENat) ≤ stockedPages.encard := by
  have hsub : (({0x200000, 0x201000, 0x202000, 0x203000} : Finset Word) : Set Word) ⊆ stockedPages := by
    intro f hf
    rw [stockedPages, mem_pages]
    simp only [Finset.coe_insert, Finset.coe_singleton, Set.mem_insert_iff, Set.mem_singleton_iff] at hf
    rcases hf with rfl | rfl | rfl | rfl <;> decide
  have hle := Set.encard_le_encard hsub
  rwa [Set.encard_coe_eq_coe_finsetCard, show Finset.card _ = 4 from rfl] at hle

/-- Of the four free pages three become page tables. -/
theorem stocked_round_trip : ∃ s', (do
      let address ← slab_alloc linkedImage imageNode 0x1000 Memory_Writable
      slab_free linkedImage imageNode 0x1000 address).run stockedSlab = .ok ((), s') ∧
    Untouched linkedImage imageNode (freeBytes (ranges (slabMemory stockedSlab) [imageNode])) stockedSlab s' ∧
    Holds s'.machine (stockedPages \ { f | IsTable s'.machine f }) := by
  have hnone : ∀ i < (0x1000 : Word).toNat / Page_Small.toNat,
      walk stockedSlab.machine (pagePath (pageAt 0xffffc80000000000 i)) = none := by
    intro i hi
    obtain rfl : i = 0 := by
      rw [show (0x1000 : Word).toNat / Page_Small.toNat = 1 from rfl] at hi
      omega
    rfl
  have hattrs : page_entry_to_phys Memory_Writable = 0 := by decide
  have hwp := slab_free_undoes_slab_alloc stockedSlab_ready (by decide) hattrs (by decide) (by decide) stockedSlab_fit hnone
  obtain ⟨_, s', hrun, hback⟩ := wp_total (wp_mono hwp (fun _ _ h => h) fun e he => not_lt.mpr stockedPages_four he.2)
  exact ⟨s', hrun, hback⟩

end KernelOfTruth.SlabRoundTrip
