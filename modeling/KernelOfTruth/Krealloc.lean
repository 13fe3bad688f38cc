import KernelOfTruth.WrappedSizes

/-!
# `krealloc` does not free the old block

It copies as many bytes as the new block has, and returns NULL for NULL.
-/

open KernelOfTruth.Lib KernelOfTruth.Code KernelOfTruth.Spec KernelOfTruth.Strings KernelOfTruth.Regions KernelOfTruth.Heap
  KernelOfTruth.HeapRuns KernelOfTruth.FirstFit KernelOfTruth.Realloc KernelOfTruth.WrappedSizes

namespace KernelOfTruth.Krealloc

variable {σ : Type} {nodes : NodeStore σ} {Own : σ → Nodes → Prop} {E : Halt → Prop} {P : Nat → Prop}
  {slab_alloc_locked : Word → Word → Kernel σ Word} {slab_free_locked : Word → Word → Kernel σ Unit}
  {live : Multiset Block} {free : Multiset Region} {w₀ w : HeapWorld σ} {b : Block} {ptr n q : Word} {s s' : HeapState σ}

theorem krealloc_run (hptr : ptr ≠ 0) (hrun : (krealloc nodes slab_alloc_locked ptr n).run s = .ok (q, s')) :
    ∃ s₁, (kmalloc nodes slab_alloc_locked n).run s = .ok (q, s₁) ∧ s'.Used = s₁.Used ∧ (q = 0 → s' = s₁) := by
  have hwp : wp (krealloc nodes slab_alloc_locked ptr n) (fun q s' => ∃ s₁,
      (kmalloc nodes slab_alloc_locked n).run s = .ok (q, s₁) ∧ s'.Used = s₁.Used ∧ (q = 0 → s' = s₁)) (fun _ => True) s := by
    unfold krealloc
    rw [if_neg hptr, wp_bind]
    refine wp_partial.mpr fun p s₁ hmalloc => ?_
    split
    · rename_i hp
      exact (wp_pure ..).mpr ⟨s₁, hp ▸ hmalloc, rfl, fun _ => rfl⟩
    · rename_i hp
      rw [wp_bind, onMem, wp_zoom]
      refine wp_any (fun _ mem => ?_) fun _ => trivial
      exact (wp_pure ..).mpr ⟨s₁, hmalloc, rfl, fun hzero => absurd hzero hp⟩
  exact wp_ok hwp hrun

theorem kmalloc_refused (laws : StoreLaws nodes Own) (hpages : PageLaws slab_alloc_locked slab_free_locked Own E)
    (h : HeapRules P Own s live free) (halign : is_aligned s.heap Page_Small) :
    (∃ s', (kmalloc nodes slab_alloc_locked n).run s = .ok (0, s')) ↔ ∀ r ∈ free, r.size ≤ blockSize n := by
  refine kmalloc_refused_iff laws (pageLaws_true hpages) h.metadata n fun r hr hpos => nonnull_of_lt h halign ?_
  have hin := h.region_in_heap (Multiset.mem_add.mpr (.inr hr)) hpos
  omega

/-- A call that returns NULL has changed nothing. -/
theorem kmalloc_null (laws : StoreLaws nodes Own) (hpages : PageLaws slab_alloc_locked slab_free_locked Own E)
    (h : HeapRules P Own s live free) (halign : is_aligned s.heap Page_Small)
    (hrun : (kmalloc nodes slab_alloc_locked n).run s = .ok (0, s')) : s' = s := by
  have hnone := (kmalloc_refused laws hpages h halign).mp ⟨s', hrun⟩
  rcases wp_ok (wp_kmalloc_vectors laws (pageLaws_true hpages) h.metadata n) hrun with ⟨-, hsame, -⟩ | ⟨r, hr, hlt, -⟩
  · exact hsame
  · exact absurd hlt (BitVec.not_lt.mpr (hnone r hr))

-- the old block is still counted
theorem not_moved (h : HeapRules P Own w.state w.live free) (hb : b ∈ w.live)
    (hused : s'.Used = w.state.Used + (n + 2 * Heap_Red_Zone_Size)) {free' : Multiset Region} :
    ¬ HeapIntact Own s' (⟨q, n⟩ ::ₘ w.live.erase b) free' := by
  intro h'
  have husage := h.usage
  have husage' := h'.usage
  rw [← Multiset.cons_erase hb, Multiset.map_cons, Multiset.sum_cons] at husage
  rw [Multiset.map_cons, Multiset.sum_cons, hused, BitVec.toNat_add, BitVec.toNat_add,
    show (2 * Heap_Red_Zone_Size).toNat = 16 from rfl] at husage'
  have hsize := (h.sizes b hb).2
  have hlt := w.state.Used.isLt
  dsimp only at husage'
  omega

/-- A call that returns has done what it is for exactly when there is no room, and then nothing. -/
theorem krealloc_right_iff (laws : StoreLaws nodes Own) (hpages : PageLaws slab_alloc_locked slab_free_locked Own E)
    {slab_alloc : Word → Word → Kernel (HeapState σ) Word} {slab_free : Word → Word → Kernel (HeapState σ) Unit}
    (boot : BootLaws slab_alloc Own) (hstart : w₀.Start nodes slab_alloc_locked slab_alloc slab_free Own)
    (hrun : Relation.ReflTransGen (HeapWorld.Call nodes slab_alloc_locked slab_free_locked) w₀ w)
    (halign : is_aligned w.state.heap Page_Small) :
    ∃ free, HeapIntact Own w.state w.live free ∧
      (∀ b ∈ w.live, ∀ n q s', (krealloc nodes slab_alloc_locked b.ptr n).run w.state = .ok (q, s') →
        (w.Reallocates nodes slab_alloc_locked Own b n q s' ↔ ∀ r ∈ free, r.size ≤ blockSize n)) ∧
      ∀ n, (krealloc nodes slab_alloc_locked 0 n).run w.state = (kmalloc nodes slab_alloc_locked n).run w.state ↔
        ∀ r ∈ free, r.size ≤ blockSize n := by
  obtain ⟨free, h⟩ := calls_inv laws hpages boot hstart hrun
  refine ⟨free, h.toHeapIntact, fun b hb n q s' hrealloc => ?_, fun n => ?_⟩
  · obtain ⟨s₁, hmalloc, hused, hzero⟩ := krealloc_run (ptr_ne_zero h hb) hrealloc
    rw [← kmalloc_refused laws hpages h halign]
    unfold HeapWorld.Reallocates
    constructor
    · intro hmoves
      split at hmoves
      · rename_i hq
        exact ⟨s₁, hq ▸ hmalloc⟩
      · rename_i hq
        obtain ⟨⟨free', hintact⟩, -⟩ := hmoves
        exact absurd hintact (not_moved h hb (hused.trans ((kmalloc_frame hmalloc).2.2 hq)))
    · rintro ⟨s₂, hnull⟩
      rw [hmalloc] at hnull
      obtain rfl : q = 0 := congrArg Prod.fst (Except.ok.inj hnull)
      obtain rfl : s₁ = w.state := kmalloc_null laws hpages h halign hmalloc
      rw [if_pos rfl, hzero rfl]
      exact ⟨⟨free, h.toHeapIntact⟩, fun _ _ => rfl⟩
  · rw [← kmalloc_refused laws hpages h halign]
    have hnull : (krealloc nodes slab_alloc_locked 0 n).run w.state = .ok (0, w.state) := rfl
    rw [hnull]
    constructor
    · exact fun hsame => ⟨_, hsame.symm⟩
    · rintro ⟨s', hmalloc⟩
      rw [hmalloc, kmalloc_null laws hpages h halign hmalloc]

/-! ## A block that becomes smaller -/

theorem bootedHeap_mapped {s : HeapState PageMemory} (hmem : s.mem = bootedHeap.mem) {k n : Nat} (hfits : k + n ≤ 65536) :
    Mapped s.mem (0x100000 + BitVec.ofNat 64 k) n :=
  fun i hi => Option.isSome_of_eq_some (bootedHeap_filled hmem hfits i hi)

/-- From 80 to 16 bytes, the number of bytes in use becomes larger. -/
theorem old_block_kept : ∃ (w₀ w : HeapWorld PageMemory) (s₁ s₂ : HeapState PageMemory),
    w₀.Start pageStore takeSpare bootAlloc bootFree PageMemory.Own ∧
    Relation.ReflTransGen (HeapWorld.Call pageStore takeSpare giveSpare) w₀ w ∧ is_aligned w.state.heap Page_Small ∧
    ⟨0x100008, 80⟩ ∈ w.live ∧ w.state.Used = 96 ∧
    (krealloc pageStore takeSpare 0x100008 16).run w.state = .ok (0x100068, s₁) ∧ s₁.Used = 128 ∧
    (krealloc pageStore takeSpare 0 16).run w.state = .ok (0, w.state) ∧
    (kmalloc pageStore takeSpare 16).run w.state = .ok (0x100068, s₂) := by
  obtain ⟨s₂, hmalloc, hmem, hused⟩ := firstBlock_kmalloc (.inr (.inl rfl))
  have hwp : wp (krealloc pageStore takeSpare 0x100008 16) (fun q s₁ => q = 0x100068 ∧ s₁.Used = 128) (fun _ => False)
      firstBlock := by
    unfold krealloc
    rw [if_neg (by decide), wp_bind, wp_of_run hmalloc, if_neg (by decide), wp_bind, onMem, wp_zoom]
    refine wp_imp (wp_memcpy (by decide) (bootedHeap_mapped hmem (k := 0x68) (by decide))
      (bootedHeap_mapped hmem (k := 8) (by decide))) fun _ _ _ => ?_
    exact (wp_pure ..).mpr ⟨rfl, hused⟩
  obtain ⟨_, s₁, hrealloc, rfl, hused₁⟩ := wp_total hwp
  exact ⟨_, _, s₁, s₂, bootedHeap_start, firstBlock_reached, by decide, Multiset.mem_singleton_self _, rfl, hrealloc, hused₁,
    rfl, hmalloc⟩

theorem no_room_for_heap : HeapWorld.Reallocates pageStore takeSpare PageMemory.Own ⟨firstBlock, {⟨0x100008, 80⟩}⟩
    ⟨0x100008, 80⟩ Heap_Size 0 firstBlock := by
  obtain ⟨free, -, hright, hnull⟩ := krealloc_right_iff pageStore_laws spare_laws bootAlloc_laws bootedHeap_start
    firstBlock_reached (by decide)
  refine (hright _ (Multiset.mem_singleton_self _) Heap_Size 0 firstBlock ?_).mpr ((hnull Heap_Size).mp ?_)
  · rfl
  · rfl

end KernelOfTruth.Krealloc
