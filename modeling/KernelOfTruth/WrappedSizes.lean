import KernelOfTruth.FirstFit
import KernelOfTruth.Realloc

/-!
# Sizes that wrap around

`kmalloc` adds the size of the red zones to the request, and `kcalloc` multiplies, in 64 bits. A request that is near to
the largest number becomes one for a few bytes.
-/

open KernelOfTruth.Lib KernelOfTruth.Code KernelOfTruth.Spec KernelOfTruth.Strings KernelOfTruth.Regions KernelOfTruth.Heap
  KernelOfTruth.HeapRuns KernelOfTruth.FirstFit KernelOfTruth.Realloc

namespace KernelOfTruth.WrappedSizes

variable {σ : Type} {nodes : NodeStore σ} {Own : σ → Nodes → Prop} {E : Halt → Prop} {P : Nat → Prop}
  {slab_alloc_locked : Word → Word → Kernel σ Word} {slab_free_locked : Word → Word → Kernel σ Unit}
  {live : Multiset Block} {free : Multiset Region} {w₀ w w' : HeapWorld σ} {p : Word} {s' : HeapState σ}

/-! ## Runs with empty blocks -/

/-- What holds between two calls of clients that may ask for any number of bytes. -/
abbrev AnyInv (Own : σ → Nodes → Prop) (w : HeapWorld σ) : Prop := ∃ free, HeapRules (fun _ => True) Own w.state w.live free

theorem call_inv (laws : StoreLaws nodes Own) (hpages : PageLaws slab_alloc_locked slab_free_locked Own E) (h : AnyInv Own w)
    (hcall : HeapWorld.Call nodes slab_alloc_locked slab_free_locked w w') : AnyInv Own w' := by
  obtain ⟨free, h⟩ := h
  cases hcall with
  | step hstep =>
    cases hstep with
    | kmalloc bytes _ hfits hrun => exact kmalloc_inv laws hpages h ⟨trivial, hfits⟩ hrun
    | kfree p hrun => exact kfree_inv laws hpages h hrun
    | write mem' hmem => exact ⟨free, write_inv h hmem⟩
  | empty hrun => exact kmalloc_inv laws hpages h ⟨trivial, by decide⟩ hrun

theorem calls_inv (laws : StoreLaws nodes Own) (hpages : PageLaws slab_alloc_locked slab_free_locked Own E)
    {slab_alloc : Word → Word → Kernel (HeapState σ) Word} {slab_free : Word → Word → Kernel (HeapState σ) Unit}
    (boot : BootLaws slab_alloc Own) (hstart : w₀.Start nodes slab_alloc_locked slab_alloc slab_free Own)
    (hrun : Relation.ReflTransGen (HeapWorld.Call nodes slab_alloc_locked slab_free_locked) w₀ w) : AnyInv Own w := by
  induction hrun with
  | refl => exact start_inv laws hpages boot hstart
  | tail _ hcall ih => exact call_inv laws hpages ih hcall

/-! ## New blocks -/

/-- So many bytes are in the heap only if their number is at most its size. -/
theorem le_of_unused {n : Nat} (h : w.Unused p n) : n ≤ Heap_Size.toNat := by
  by_contra hlt
  have hfirst := (h p.toNat le_rfl (by omega)).1
  have hlast := (h (p.toNat + Heap_Size.toNat) (by omega) (by omega)).1
  exact absurd hlast.2 (by have := hfirst.1; omega)

theorem unused_of_inv {bytes : Word} (h : HeapRules P Own s' (⟨p, bytes⟩ ::ₘ w.live) free) (hheap : s'.heap = w.state.heap) :
    w.Unused p bytes.toNat := by
  have hnew : (⟨p, bytes⟩ : Block) ∈ (⟨p, bytes⟩ : Block) ::ₘ w.live := Multiset.mem_cons_self _ _
  intro x hlow hhigh
  have hx : x ∈ bytesOf (⟨p, bytes⟩ : Block).extent := h.client_subset hnew ⟨hlow, hhigh⟩
  refine ⟨?_, fun b hb hin => ?_⟩
  · have hin := h.tiles.subset (Multiset.mem_add.mpr (.inl (Multiset.mem_map_of_mem _ hnew))) hx
    unfold heapBytes at hin ⊢
    rwa [hheap] at hin
  · have herase : b ∈ ((⟨p, bytes⟩ : Block) ::ₘ w.live).erase ⟨p, bytes⟩ := by rwa [Multiset.erase_cons_head]
    exact Set.disjoint_left.mp ((h.apart hnew).1 b herase) hx hin

theorem kmalloc_unused_iff (laws : StoreLaws nodes Own) (hpages : PageLaws slab_alloc_locked slab_free_locked Own E)
    (h : AnyInv Own w) {size : Word} (hrun : (kmalloc nodes slab_alloc_locked size).run w.state = .ok (p, s')) (hp : p ≠ 0) :
    w.Unused p size.toNat ↔ size.toNat + 16 < 2 ^ 64 := by
  obtain ⟨free, h⟩ := h
  constructor
  · intro hunused
    have hle := le_of_unused hunused
    rw [show Heap_Size.toNat = 65536 from rfl] at hle
    omega
  · intro hfits
    obtain ⟨free', h'⟩ := kmalloc_inv laws hpages h ⟨trivial, hfits⟩ hrun
    rw [if_neg hp] at h'
    exact unused_of_inv h' (kmalloc_frame hrun).2.1

theorem kcalloc_heap {s : HeapState σ} {count size : Word}
    (hrun : (kcalloc nodes slab_alloc_locked count size).run s = .ok (p, s')) : s'.heap = s.heap := by
  have hkeeps : wp (kcalloc nodes slab_alloc_locked count size) (fun _ s' => s'.heap = s.heap) (fun _ => True) s := by
    unfold kcalloc
    rw [wp_bind]
    refine wp_partial.mpr fun q s₁ hmalloc => ?_
    have hheap := (kmalloc_frame hmalloc).2.1
    split
    · exact (wp_pure ..).mpr hheap
    · rw [wp_bind]
      refine wp_imp (wp_memset_any ..) ?_
      rintro _ _ ⟨mem, rfl⟩
      exact (wp_pure ..).mpr hheap
  have hheap := wp_ok hkeeps hrun
  exact hheap

theorem kcalloc_unused_iff (laws : StoreLaws nodes Own) (hpages : PageLaws slab_alloc_locked slab_free_locked Own E)
    (h : AnyInv Own w) {count size : Word}
    (hrun : (kcalloc nodes slab_alloc_locked count size).run w.state = .ok (p, s')) (hp : p ≠ 0) :
    (w.Unused p (count.toNat * size.toNat) ∧ AllZero s' p (count.toNat * size.toNat)) ↔
      count.toNat * size.toNat + 16 < 2 ^ 64 := by
  obtain ⟨free, h⟩ := h
  constructor
  · rintro ⟨hunused, -⟩
    have hle := le_of_unused hunused
    rw [show Heap_Size.toNat = 65536 from rfl] at hle
    omega
  · intro hfits
    have hproduct : (count * size).toNat = count.toNat * size.toNat := by
      rw [BitVec.toNat_mul, Nat.mod_eq_of_lt (by omega)]
    rw [← hproduct] at hfits ⊢
    rcases wp_ok (wp_kcalloc laws hpages h ⟨trivial, hfits⟩) hrun with ⟨hzero, -⟩ | ⟨-, ⟨free', h'⟩, hzeroed⟩
    · exact absurd hzero hp
    · refine ⟨unused_of_inv h' (kcalloc_heap hrun), fun i hi => ?_⟩
      exact hzeroed _ ((covers_iff (count * size).isLt.le).mpr ⟨i, hi, rfl⟩)

/-- A block is where it should be exactly if its size with the red zones fits in 64 bits. -/
theorem blocks_fit_iff (laws : StoreLaws nodes Own) (hpages : PageLaws slab_alloc_locked slab_free_locked Own E)
    {slab_alloc : Word → Word → Kernel (HeapState σ) Word} {slab_free : Word → Word → Kernel (HeapState σ) Unit}
    (boot : BootLaws slab_alloc Own) (hstart : w₀.Start nodes slab_alloc_locked slab_alloc slab_free Own)
    (hrun : Relation.ReflTransGen (HeapWorld.Call nodes slab_alloc_locked slab_free_locked) w₀ w) :
    (∀ size p s', (kmalloc nodes slab_alloc_locked size).run w.state = .ok (p, s') → p ≠ 0 →
      (w.Unused p size.toNat ↔ size.toNat + 16 < 2 ^ 64)) ∧
    ∀ count size p s', (kcalloc nodes slab_alloc_locked count size).run w.state = .ok (p, s') → p ≠ 0 →
      ((w.Unused p (count.toNat * size.toNat) ∧ AllZero s' p (count.toNat * size.toNat)) ↔
        count.toNat * size.toNat + 16 < 2 ^ 64) := by
  have hinv := calls_inv laws hpages boot hstart hrun
  exact ⟨fun size p s' hmalloc hp => kmalloc_unused_iff laws hpages hinv hmalloc hp,
    fun count size p s' hcalloc hp => kcalloc_unused_iff laws hpages hinv hcalloc hp⟩

/-! ## After the first block -/

theorem bootedHeap_filled {s : HeapState PageMemory} (hmem : s.mem = bootedHeap.mem) {k n : Nat} (hfits : k + n ≤ 65536) :
    Filled s (0x100000 + BitVec.ofNat 64 k) n := by
  intro i hi
  have hstart : (0x100000 : Word).toNat = 0x100000 := rfl
  have hadd := add_ofNat_toNat (a := 0x100000) (k := k + i) (by omega)
  rw [hmem, BitVec.add_assoc, ← BitVec.ofNat_add]
  refine (mem_filled (fun _ => some 0) (r := ⟨0x100000, Heap_Size⟩) (by decide) 0xcc _).1 ?_
  show (0x100000 : Word).toNat ≤ _ ∧ _ < (0x100000 : Word).toNat + 65536
  omega

def firstBlock : HeapState PageMemory :=
  { bootedHeap with
    vectors := ⟨Function.update (Function.update bootedHeap.vectors.node 0x2000 ((bootedHeap.vectors.node 0x2000).takeFront 0 96))
      0x1000 (pushRegion emptyNode ⟨0x100000, 96⟩), []⟩
    Used := 96 }

theorem firstBlock_run : (kmalloc pageStore takeSpare 80).run bootedHeap = .ok (0x100008, firstBlock) :=
  kmalloc_eq 80 rfl rfl (bootedHeap_filled rfl (k := 0) (by decide)) (by decide)

theorem firstBlock_reached : Relation.ReflTransGen (HeapWorld.Call pageStore takeSpare giveSpare) ⟨bootedHeap, 0⟩
    ⟨firstBlock, {⟨0x100008, 80⟩}⟩ := by
  have hcall : HeapWorld.Call pageStore takeSpare giveSpare ⟨bootedHeap, 0⟩ _ :=
    .step (.kmalloc 80 (by decide) (by decide) firstBlock_run)
  exact .single hcall

theorem firstBlock_kmalloc {bytes : Word} (hbytes : bytes = -16 ∨ bytes = 16 ∨ bytes = 80) :
    ∃ s', (kmalloc pageStore takeSpare bytes).run firstBlock = .ok (0x100068, s') ∧ s'.mem = bootedHeap.mem ∧
      s'.Used = 96 + blockSize bytes := by
  have hfill : Filled firstBlock 0x100060 96 := bootedHeap_filled rfl (k := 96) (by decide)
  rcases hbytes with rfl | rfl | rfl
  · exact ⟨_, kmalloc_eq (-16) rfl rfl (hfill.mono (by decide)) (by decide), rfl, rfl⟩
  · exact ⟨_, kmalloc_eq 16 rfl rfl (hfill.mono (by decide)) (by decide), rfl, rfl⟩
  · exact ⟨_, kmalloc_eq 80 rfl rfl (hfill.mono (by decide)) (by decide), rfl, rfl⟩

theorem firstBlock_kcalloc : ∃ s', (kcalloc pageStore takeSpare 2 0x8000000000000028).run firstBlock = .ok (0x100068, s') := by
  obtain ⟨s₁, hmalloc, hmem, -⟩ := firstBlock_kmalloc (.inr (.inr rfl))
  have hmapped : ∀ k < (80 : Word).toNat, (s₁.mem (0x100068 + BitVec.ofNat 64 k)).isSome := by
    intro k hk
    have hfilled := bootedHeap_filled hmem (k := 0x68) (n := 80) (by decide) k hk
    exact Option.isSome_of_eq_some hfilled
  have hwp : wp (kcalloc pageStore takeSpare 2 0x8000000000000028) (fun p _ => p = 0x100068) (fun _ => False) firstBlock := by
    unfold kcalloc
    rw [wp_bind, show (2 : Word) * 0x8000000000000028 = 80 by decide, wp_of_run hmalloc, if_neg (by decide), wp_bind,
      wp_memset hmapped, wp_pure]
  obtain ⟨_, s', hrun, rfl⟩ := wp_total hwp
  exact ⟨s', hrun⟩

/-- With the red zones the first size is 0, and the product of the second call is 80. -/
theorem wrapped_sizes_granted : ∃ w₀ w : HeapWorld PageMemory,
    w₀.Start pageStore takeSpare bootAlloc bootFree PageMemory.Own ∧
    Relation.ReflTransGen (HeapWorld.Call pageStore takeSpare giveSpare) w₀ w ∧
    (∃ s', (kmalloc pageStore takeSpare (-16)).run w.state = .ok (0x100068, s')) ∧ ¬ w.Unused 0x100068 (2 ^ 64 - 16) ∧
    (∃ s', (kcalloc pageStore takeSpare 2 0x8000000000000028).run w.state = .ok (0x100068, s')) ∧
    ¬ w.Unused 0x100068 (2 * (2 ^ 63 + 40)) := by
  obtain ⟨s₁, hmalloc, -⟩ := firstBlock_kmalloc (.inl rfl)
  refine ⟨_, _, bootedHeap_start, firstBlock_reached, ⟨s₁, hmalloc⟩, ?_, firstBlock_kcalloc, ?_⟩
  · exact fun hunused => absurd (le_of_unused hunused) (by decide)
  · exact fun hunused => absurd (le_of_unused hunused) (by decide)

theorem firstBlock_fits : ∃ s', (kmalloc pageStore takeSpare 80).run firstBlock = .ok (0x100068, s') ∧
    HeapWorld.Unused ⟨firstBlock, {⟨0x100008, 80⟩}⟩ 0x100068 80 := by
  obtain ⟨s', hmalloc, -⟩ := firstBlock_kmalloc (.inr (.inr rfl))
  have hblocks := (blocks_fit_iff pageStore_laws spare_laws bootAlloc_laws bootedHeap_start firstBlock_reached).1
  exact ⟨s', hmalloc, (hblocks 80 _ s' hmalloc (by decide)).mpr (by decide)⟩

end KernelOfTruth.WrappedSizes
