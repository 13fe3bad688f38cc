import KernelOfTruth.PageRanges
import KernelOfTruth.RegionVector
import KernelOfTruth.Spec.Slab

/-! # A request of the slab allocator is granted, or nothing has happened -/

open KernelOfTruth.Lib KernelOfTruth.Code KernelOfTruth.Spec KernelOfTruth.Bits KernelOfTruth.Regions
  KernelOfTruth.PageStack KernelOfTruth.FreePages KernelOfTruth.PageRanges

namespace KernelOfTruth.Slab

variable {img : KernelImage} {pt : PivotTables} {slab_higher_half : Word} {E : Halt → Prop} {s s' : SlabState}
  {free : Set Word} {pages : List Word}

/-! ## The nodes -/

/-- The nodes `N` are in memory, and the rest of the state is known. -/
def SlabOwn (m : Machine) (usage : Word) (s : SlabState) (N : Nodes) : Prop :=
  slabMemory s = N ∧ s.machine = m ∧ s.Usage = usage

theorem slabMemory_some {a : Word} {v : RegionVector} (h : slabMemory s a = some v) : a ≠ 0 ∧ s.nodes a = v := by
  unfold slabMemory at h
  split at h
  · cases h
  · rename_i ha
    exact ⟨ha, Option.some.inj h⟩

theorem slab_laws (m : Machine) (usage : Word) : StoreLaws slabNodes (SlabOwn m usage) where
  read := by
    rintro s _ a v ⟨rfl, -, -⟩ hv
    obtain ⟨ha, rfl⟩ := slabMemory_some hv
    simp only [slabNodes, if_neg ha]
    rfl
  write := by
    rintro s _ a v w ⟨rfl, hm, hu⟩ hv
    obtain ⟨ha, -⟩ := slabMemory_some hv
    refine ⟨{ s with nodes := Function.update s.nodes a w }, rfl, ?_, hm, hu⟩
    funext b
    by_cases hba : b = a
    · subst hba
      rw [slabMemory, if_neg ha]
      simp
    · simp [slabMemory, Function.update_of_ne hba]

/-- A change of the ranges leaves the pages and the usage alone. -/
structure MovesRanges (slab_higher_half : Word) (pages : List Word) (M : Multiset Region) (s s' : SlabState) : Prop where
  machine : s'.machine = s.machine
  usage : s'.Usage = s.Usage
  vector : IsVector (slabMemory s') slab_higher_half pages
  ranges : ranges (slabMemory s') pages = M

theorem wp_slab_region_alloc (hv : IsVector (slabMemory s) slab_higher_half pages)
    (hslot : HasSlot (slabMemory s) pages) (size : Word) :
    wp (region_alloc slabNodes slab_higher_half size) (fun result s' =>
      (result = .error .Error_No_Memory ∧ s' = s ∧ firstFit (slabMemory s) pages size = none) ∨
      ∃ r ∈ ranges (slabMemory s) pages, size < r.size ∧ firstFit (slabMemory s) pages size = some r ∧
        result = .ok r.address ∧ HasSlot (slabMemory s') pages ∧ MovesRanges slab_higher_half pages
          (⟨r.address + size, r.size - size⟩ ::ₘ (ranges (slabMemory s) pages).erase r) s s') E s := by
  refine wp_imp (wp_region_alloc_first (slab_laws s.machine s.Usage) ⟨rfl, rfl, rfl⟩ hv size) ?_
  rintro result s' (hnone | ⟨r, hr, hlt, hfit, hres, _, ⟨rfl, hm, hu⟩, hv', hranges, -, hslot'⟩)
  · exact .inl hnone
  · exact .inr ⟨r, hr, hlt, hfit, hres, hslot' hslot, hm, hu, hv', hranges⟩

theorem wp_slabRegionFree (hv : IsVector (slabMemory s) slab_higher_half pages) (hslot : HasSlot (slabMemory s) pages)
    (address size : Word) :
    wp (slabRegionFree img slab_higher_half address size) (fun _ s' =>
      MovesRanges slab_higher_half pages (⟨address, size⟩ ::ₘ ranges (slabMemory s) pages) s s') E s := by
  refine wp_imp (wp_region_free_room (slab_laws s.machine s.Usage) ⟨rfl, rfl, rfl⟩ hv hslot address size) ?_
  rintro _ s' ⟨_, ⟨rfl, hm, hu⟩, hv', hranges⟩
  exact ⟨hm, hu, hv', hranges⟩

/-! ## Free addresses -/

theorem freeBytes_cons (r : Region) (M : Multiset Region) : freeBytes (r ::ₘ M) = bytesOf r ∪ freeBytes M := by
  ext x
  simp [freeBytes]

/-- The front of a range is taken and put back as a range of its own. -/
theorem freeBytes_restored {M : Multiset Region} {r : Region} {size : Word} (hr : r ∈ M) (hlt : size < r.size)
    (hfits : r.address.toNat + r.size.toNat ≤ 2 ^ 64) :
    freeBytes (⟨r.address, size⟩ ::ₘ ⟨r.address + size, r.size - size⟩ ::ₘ M.erase r) = freeBytes M := by
  rw [freeBytes_cons, freeBytes_cons, ← Set.union_assoc, ← (bytesOf_cut hlt hfits).1, ← freeBytes_cons,
    Multiset.cons_erase hr]

/-- The slab allocator and the allocators below it are in order, and a range can be put back. -/
structure Ready (img : KernelImage) (pt : PivotTables) (slab_higher_half : Word) (pages : List Word) (free : Set Word)
    (s : SlabState) : Prop where
  vector : IsVector (slabMemory s) slab_higher_half pages
  slot : HasSlot (slabMemory s) pages
  kernel : ∀ r ∈ ranges (slabMemory s) pages, KernelRange img r
  tree : Tree s.machine
  stock : PagesOk img pt free s.machine

/-- The pages at the front of a range. -/
theorem front_avoids {r : Region} {size : Word} (h : KernelRange img r) (hlt : size < r.size) :
    Avoids img r.address (size.toNat / Page_Small.toNat) := by
  intro i hi
  rw [BitVec.lt_def] at hlt
  have hfits := h.fits
  have hpage : Page_Small.toNat = 4096 := rfl
  rw [hpage] at hi
  refine h.avoids _ ?_
  have hnat := pageAt_toNat (a := r.address) (i := i) (by omega)
  rw [bytesOf, Set.mem_ofPred_eq, hnat]
  omega

theorem front_ne_zero {r : Region} {size : Word} (h : KernelRange img r) (hlt : size < r.size) : r.address ≠ 0 := by
  intro hzero
  rw [BitVec.lt_def] at hlt
  have hhigh := h.higher r.address ⟨le_rfl, by omega⟩
  rw [hzero] at hhigh
  exact absurd hhigh (by decide)

/-- The lock is free before the call, and so it is afterwards. -/
theorem wp_underLock {α : Type} {s : LockedSlab} (hlock : s.slab_higher_half_lock = Lock_Clear) (p : Kernel SlabState α)
    (Q : α → LockedSlab → Prop) : wp (underLock p) Q E s ↔ wp p (fun a slab => Q a ⟨slab, Lock_Clear⟩) E s.slab := by
  have hlock' : s = ⟨s.slab, Lock_Clear⟩ := by rw [← hlock]
  rw [hlock']
  simp [underLock, lock_acquire_writer, lock_release_writer, Lock_Clear, Code.assert]

/-! ## Frames that the caller names -/

theorem wp_onMachine {α : Type} (p : Kernel Machine α) (Q : α → SlabState → Prop) :
    wp (onMachine p) Q E s ↔ wp p (fun a m => Q a { s with machine := m }) E s.machine := wp_zoom ..

section Request

variable {phys size attrs : Word} (halign : is_aligned phys Page_Small) (hphys : phys.toNat + size.toNat ≤ 2 ^ 52)
  (hattrs : attrs &&& Memory_Permissions_Mask = attrs)
include halign hphys hattrs

theorem wp_slab_alloc_request_physical (hfault : E .page_fault) (h : Ready img pt slab_higher_half pages free s) :
    wp (slab_alloc_request_physical img slab_higher_half phys size attrs) (fun result s' =>
      (result = 0 → Untouched img slab_higher_half (freeBytes (ranges (slabMemory s) pages)) s s') ∧
      (result ≠ 0 → Granted img (ranges (slabMemory s) pages) result phys size attrs s s')) E s := by
  have hsame : Untouched img slab_higher_half (freeBytes (ranges (slabMemory s) pages)) s s :=
    ⟨⟨pages, h.vector, rfl⟩, rfl, fun _ _ _ => rfl⟩
  have hcount : size.toNat / Page_Small.toNat * 4096 ≤ size.toNat := Nat.div_mul_le_self ..
  have hphys' : phys.toNat + size.toNat / Page_Small.toNat * 4096 ≤ 2 ^ 52 := by omega
  unfold slab_alloc_request_physical requestPhysical
  split
  · exact (wp_pure ..).mpr ⟨fun _ => hsame, fun h => absurd rfl h⟩
  split
  · exact (wp_pure ..).mpr ⟨fun _ => hsame, fun h => absurd rfl h⟩
  rw [wp_bind]
  refine wp_imp (wp_slab_region_alloc h.vector h.slot size) ?_
  rintro _ s₁ (⟨rfl, rfl, -⟩ | ⟨r, hr, hlt, -, rfl, hslot₁, htaken⟩)
  · exact (wp_pure ..).mpr ⟨fun _ => hsame, fun h => absurd rfl h⟩
  · have hkernel := h.kernel r hr
    have htree : Tree s₁.machine := htaken.machine ▸ h.tree
    have hstock : PagesOk img pt free s₁.machine := htaken.machine ▸ h.stock
    simp only [wp_bind, wp_onMachine]
    refine wp_imp (wp_map_range (physical_alloc_laws img pt hfault) (front_avoids hkernel hlt) htree hstock) ?_
    rintro status m₂ ⟨free', hmaps⟩
    rw [htaken.machine] at hmaps
    rw [wp_ite]
    split
    · -- the range goes back into the vector, and the pages are as they were
      rename_i hstatus
      have hv₂ : IsVector (slabMemory { s₁ with machine := m₂ }) slab_higher_half pages := htaken.vector
      have hranges₂ : ranges (slabMemory { s₁ with machine := m₂ }) pages = _ := htaken.ranges
      rw [wp_bind]
      refine wp_imp (wp_slabRegionFree hv₂ hslot₁ r.address size) ?_
      rintro _ s₃ hback
      refine (wp_pure ..).mpr ⟨fun _ => ⟨⟨pages, hback.vector, ?_⟩, hback.usage.trans htaken.usage, ?_⟩,
        fun h => absurd rfl h⟩
      · rw [hback.ranges, hranges₂]
        exact freeBytes_restored hr hlt hkernel.fits
      · rw [hback.machine]
        exact mapsRange_failed hmaps hstatus
    · rename_i hstatus
      obtain rfl : status = .Ok := not_not.mp hstatus
      simp only [wp_bind, subUsage, wp_modify, wp_pure]
      refine ⟨fun hzero => absurd hzero (front_ne_zero hkernel hlt), fun _ => ⟨⟨r, hr, ?_⟩, ?_, ?_, ?_⟩⟩
      · rw [(bytesOf_cut hlt hkernel.fits).1]
        exact Set.subset_union_left
      · exact fun i hi => (hmaps.mapped rfl i hi).1
      · exact mapsRange_ok hmaps halign hphys' hattrs
      · rw [← htaken.usage]

/-- A request is granted, or the state is as before but for page tables and the pivot page. Either way the lock is
free again. -/
theorem request_granted_or_undone {s : LockedSlab} (hlock : s.slab_higher_half_lock = Lock_Clear)
    (h : Ready img pt slab_higher_half pages free s.slab) :
    wp (LockedSlab.slab_alloc_request_physical img slab_higher_half phys size attrs) (fun result s' =>
      s'.slab_higher_half_lock = Lock_Clear ∧
      (result = 0 → Untouched img slab_higher_half (freeBytes (ranges (slabMemory s.slab) pages)) s.slab s'.slab) ∧
      (result ≠ 0 → Granted img (ranges (slabMemory s.slab) pages) result phys size attrs s.slab s'.slab))
      (· = .page_fault) s := by
  have hsame : Untouched img slab_higher_half (freeBytes (ranges (slabMemory s.slab) pages)) s.slab s.slab :=
    ⟨⟨pages, h.vector, rfl⟩, rfl, fun _ _ _ => rfl⟩
  unfold LockedSlab.slab_alloc_request_physical
  split
  · exact (wp_pure ..).mpr ⟨hlock, fun _ => hsame, fun h => absurd rfl h⟩
  split
  · exact (wp_pure ..).mpr ⟨hlock, fun _ => hsame, fun h => absurd rfl h⟩
  rw [wp_underLock hlock]
  refine wp_imp (wp_slab_alloc_request_physical halign hphys hattrs rfl h) ?_
  exact fun result s' hresult => ⟨rfl, hresult⟩

end Request

/-! ## One range of three pages -/

/-- The only node of the vector is in the kernel image. -/
def stockedSlab : SlabState where
  machine := stockedMachine
  nodes _ := ⟨1, 0, fun _ => ⟨0xffffc80000000000, 0x3000⟩⟩
  Usage := 0x3000

def imageNode : Word := 0xffffffff80170000

theorem kernelRange_low {r : Region} (ha : is_aligned r.address Page_Small) (hs : is_aligned r.size Page_Small)
    (hlow : 0xffffc80000000000 ≤ r.address.toNat) (hhigh : r.address.toNat + r.size.toNat ≤ 0xffffc88000000000) :
    KernelRange linkedImage r := by
  refine ⟨ha, hs, by omega, ?_, ?_⟩
  · rintro a ⟨h1, h2⟩
    have hend : Lower_Half_End.toNat = 0x00007fffffffffff := rfl
    simp only [memory_is_lower_half, decide_eq_false_iff_not, BitVec.le_def]
    omega
  · rintro a ⟨h1, h2⟩
    have hindex := (index_toNat a).1
    have h400 : (index4 a).toNat = 400 := by omega
    refine ⟨fun heq => ?_, fun heq => ?_⟩
    · rw [heq] at h400
      exact absurd h400 (by decide)
    · simp only [pivotPage, pagePath, List.cons.injEq, and_true] at heq
      rw [heq.2.2.2] at h400
      exact absurd h400 (by decide)

theorem stockedSlab_ready : Ready linkedImage linkedTables imageNode [imageNode] stockedPages stockedSlab := by
  have hnode : slabMemory stockedSlab imageNode = some ⟨1, 0, fun _ => ⟨0xffffc80000000000, 0x3000⟩⟩ := rfl
  refine ⟨⟨⟨rfl, by decide, _, hnode, rfl⟩, by simp, by simp, ?_⟩, ⟨imageNode, by simp, _, hnode, by decide⟩, ?_,
    boot_tree stocked_boot, stocked_ok⟩
  · intro a ha v hv
    rw [List.mem_singleton.mp ha, hnode] at hv
    cases hv
    decide
  · intro r hr
    simp only [ranges, contents_cons, contents_nil, hnode, Option.elim_some, add_zero, held] at hr
    obtain ⟨i, hi, rfl⟩ := mem_bag.mp hr
    exact kernelRange_low (by decide) (by decide) (by decide) (by decide)

theorem stockedSlab_fit : firstFit (slabMemory stockedSlab) [imageNode] 0x1000 = some ⟨0xffffc80000000000, 0x3000⟩ := rfl

theorem stocked_request_run : wp (LockedSlab.slab_alloc_request_physical linkedImage imageNode 0x5000 0x1000
    Memory_Writable) (fun result _ => result = 0xffffc80000000000) (fun _ => False) ⟨stockedSlab, Lock_Clear⟩ := by
  obtain ⟨m', hpage⟩ : ∃ m', (map_page (physical_alloc linkedImage) 0xffffc80000000000 0x5000 Memory_Writable).run
      stockedMachine = .ok (.Ok, m') := ⟨_, rfl⟩
  unfold LockedSlab.slab_alloc_request_physical
  rw [if_neg (by decide), if_neg (by decide), wp_underLock rfl]
  unfold slab_alloc_request_physical requestPhysical
  rw [if_neg (by decide), if_neg (by decide), wp_bind]
  refine wp_imp (wp_slab_region_alloc stockedSlab_ready.vector stockedSlab_ready.slot 0x1000) ?_
  rintro _ s₁ (⟨rfl, rfl, hnone⟩ | ⟨r, hr, hlt, hfit, rfl, -, htaken⟩)
  · cases hnone
  · obtain rfl : ⟨0xffffc80000000000, 0x3000⟩ = r := Option.some.inj hfit
    have hmachine : s₁.machine = stockedMachine := htaken.machine
    simp only [wp_bind, wp_onMachine]
    rw [hmachine, show (0x1000 : Word).toNat / Page_Small.toNat = 1 from rfl, wp_of_run (map_range_one _ hpage)]
    simp [subUsage]

theorem stocked_request_granted : ∃ s', (LockedSlab.slab_alloc_request_physical linkedImage imageNode 0x5000 0x1000
      Memory_Writable).run ⟨stockedSlab, Lock_Clear⟩ = .ok (0xffffc80000000000, s') ∧
    s'.slab_higher_half_lock = Lock_Clear ∧
    Granted linkedImage (ranges (slabMemory stockedSlab) [imageNode]) 0xffffc80000000000 0x5000 0x1000 Memory_Writable
      stockedSlab s'.slab := by
  obtain ⟨_, s', hrun, rfl⟩ := wp_total stocked_request_run
  have hphys : (0x5000 : Word).toNat + (0x1000 : Word).toNat ≤ 2 ^ 52 := by decide
  have hall := wp_ok (request_granted_or_undone (by decide) hphys (by decide) rfl stockedSlab_ready) hrun
  exact ⟨s', hrun, hall.1, hall.2.2 (by decide)⟩

end KernelOfTruth.Slab
