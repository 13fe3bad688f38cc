import KernelOfTruth.Heap

/-! # Every run of `kmalloc` and `kfree` -/

open KernelOfTruth.Lib KernelOfTruth.Code KernelOfTruth.Spec KernelOfTruth.Rules KernelOfTruth.Regions
  KernelOfTruth.Heap

namespace KernelOfTruth.HeapRuns

variable {σ : Type} {E : Halt → Prop} {s : HeapState σ} {nodes : NodeStore σ} {Own : σ → Nodes → Prop}
  {slab_alloc_locked : Word → Word → Kernel σ Word} {slab_free_locked : Word → Word → Kernel σ Unit}
  {P : Nat → Prop} {live : Multiset Block} {free : Multiset Region}

/-! ## `kfree` -/

theorem wp_checkBlock {b : Block} (h : HeapRules P Own s live free) (hb : b ∈ live) {s₁ : HeapState σ}
    (hmem : s₁.mem = s.mem) (hheap : s₁.heap = s.heap) {Q : Unit → HeapState σ → Prop} :
    wp (checkBlock b.extent.address b.extent.size) Q E s₁ ↔ Q () s₁ := by
  obtain ⟨hsize, hlow, hhigh, hptr⟩ := h.block hb
  have hfits := h.fits
  -- Both red zones lie in the block and outside of the client's part.
  have hzone : ∀ n, n ≤ b.extent.size.toNat → (n < 8 ∨ 8 + b.bytes.toNat ≤ n) →
      n < b.extent.size.toNat → s₁.mem (b.extent.address + BitVec.ofNat 64 n) = some 0xcc := by
    intro n hn hout hlt
    have hadd := add_ofNat_toNat (a := b.extent.address) (k := n) (by omega)
    rw [hmem]
    refine h.red_zone hb ?_ ?_
    · show _ ≤ _ ∧ _ < _
      omega
    · rintro ⟨h1, h2⟩
      omega
  have hprefix : Filled s₁ b.extent.address 8 := fun k hk => hzone k (by omega) (.inl hk) (by omega)
  have hsuffix : Filled s₁ (b.extent.address + b.extent.size - Heap_Red_Zone_Size) 8 := by
    intro k hk
    have haddr : b.extent.address + b.extent.size - Heap_Red_Zone_Size + BitVec.ofNat 64 k =
        b.extent.address + BitVec.ofNat 64 (b.extent.size.toNat - 8 + k) := by
      apply BitVec.eq_of_toNat_eq
      have hlt := b.extent.size.isLt
      rw [add_ofNat_toNat (a := b.extent.address) (by omega)]
      simp only [BitVec.toNat_add, BitVec.toNat_sub, BitVec.toNat_ofNat, show Heap_Red_Zone_Size.toNat = 8 from rfl]
      omega
    rw [haddr]
    exact hzone _ (by omega) (.inr (by omega)) (by omega)
  have hend : (s.heap + Heap_Size).toNat = s.heap.toNat + Heap_Size.toNat := by
    rw [BitVec.toNat_add]; omega
  have hblockEnd : (b.extent.address + b.extent.size).toNat = b.extent.address.toNat + b.extent.size.toNat := by
    rw [BitVec.toNat_add]; omega
  unfold checkBlock
  rw [wp_bind, wp_loadLong hprefix, wp_bind, wp_assert_decide rfl, wp_bind, wp_loadLong hsuffix, wp_bind,
    wp_assert_decide rfl, wp_bind, wp_get, hheap, wp_bind,
    wp_assert_decide (by rw [ge_iff_le, BitVec.le_def]; exact hlow), wp_bind,
    wp_assert_decide (by rw [BitVec.lt_def, hend]; omega), wp_bind,
    wp_assert_decide (by rw [gt_iff_lt, BitVec.lt_def, hblockEnd]; omega),
    wp_assert_decide (by rw [BitVec.le_def, hblockEnd, hend]; omega)]

theorem erase_extent {b : Block} (hb : b ∈ live) :
    (live.map Block.extent).erase b.extent = (live.erase b).map Block.extent := by
  conv_lhs => rw [← Multiset.cons_erase hb, Multiset.map_cons, Multiset.erase_cons_head]

theorem wp_kfree_live (laws : StoreLaws nodes Own) (hpages : PageLaws slab_alloc_locked slab_free_locked Own E)
    (h : HeapRules P Own s live free) {b : Block} (hb : b ∈ live) :
    wp (kfree nodes slab_alloc_locked slab_free_locked b.ptr)
      (fun _ s' => HeapRules P Own s' (live.erase b) (b.extent ::ₘ free) ∧
        ∀ x : Word, x.toNat ∉ bytesOf b.extent → s'.mem x = s.mem x) E s := by
  obtain ⟨hsize, hlow, hhigh, hptr⟩ := h.block hb
  have hfits := h.fits
  have hne : b.ptr ≠ 0 := by
    intro h0
    rw [h0, show (0 : Word).toNat = 0 from rfl] at hptr
    omega
  unfold kfree
  rw [if_neg hne, wp_bind, wp_get, wp_bind]
  refine wp_imp (wp_find_used laws hpages h.metadata _) ?_
  rintro size s₁ (⟨-, -, hnone⟩ | ⟨r, hr, haddr, rfl, v₁, hs₁, hmeta₁⟩)
  · exact (hnone b.extent (Multiset.mem_map_of_mem _ hb) rfl).elim
  · obtain ⟨b', hb', rfl⟩ := Multiset.mem_map.mp hr
    have heq : b' = b := by
      by_contra hne
      refine h.ptr_ne hb ((Multiset.mem_erase_of_ne hne).mpr hb') ?_
      have : b'.ptr - Heap_Red_Zone_Size = b.ptr - Heap_Red_Zone_Size := haddr
      simpa using this
    subst heq
    rw [erase_extent hb] at hmeta₁
    have hmem₁ : s₁.mem = s.mem := by rw [hs₁]
    have hheap₁ : s₁.heap = s.heap := by rw [hs₁]
    have hmapped : ∀ k < b'.extent.size.toNat, (s₁.mem (b'.extent.address + BitVec.ofNat 64 k)).isSome := by
      intro k hk
      rw [hmem₁]
      refine h.mapped _ ?_
      show _ ≤ _ ∧ _ < _
      rw [add_ofNat_toNat (by omega)]
      omega
    rw [wp_bind, ← haddr, wp_checkBlock h hb hmem₁ hheap₁, wp_bind, wp_memset hmapped, wp_bind, wp_modify,
      wp_bind, wp_get]
    have hmeta₂ : Metadata Own
        { s₁ with mem := filled s₁.mem b'.extent.address b'.extent.size.toNat (Heap_Red_Zone_Fill.setWidth 8),
                  Used := s₁.Used - b'.extent.size } ((live.erase b').map Block.extent) free := hmeta₁
    refine wp_imp (wp_free_free laws hpages hmeta₂ _ _) ?_
    rintro _ s₂ ⟨v₂, rfl, hmeta₃⟩
    subst hs₁
    exact ⟨h.given_back hb hmeta₃, fun x => (mem_filled s.mem (r := b'.extent) (by omega) _ x).2⟩

/-! ## `kfree` of any other pointer -/

theorem readOnly_loadByte (a : Word) : ReadOnly (loadByte a : Kernel (HeapState σ) Byte) := by
  refine readOnly_bind readOnly_get fun s => ?_
  cases s.mem a with
  | some b => exact readOnly_pure b
  | none => exact readOnly_throw _

theorem readOnly_loadLong (a : Word) : ReadOnly (loadLong a : Kernel (HeapState σ) Word) := by
  unfold loadLong
  iterate 8 refine readOnly_bind (readOnly_loadByte _) fun _ => ?_
  apply readOnly_pure

theorem readOnly_checkBlock (addr size : Word) : ReadOnly (checkBlock addr size : Kernel (HeapState σ) Unit) := by
  unfold checkBlock
  refine readOnly_bind (readOnly_loadLong _) fun _ => readOnly_bind (readOnly_assert _ _) fun _ => ?_
  refine readOnly_bind (readOnly_loadLong _) fun _ => readOnly_bind (readOnly_assert _ _) fun _ => ?_
  refine readOnly_bind readOnly_get fun _ => readOnly_bind (readOnly_assert _ _) fun _ => ?_
  refine readOnly_bind (readOnly_assert _ _) fun _ => readOnly_bind (readOnly_assert _ _) fun _ => ?_
  exact readOnly_assert _ _

theorem readOnly_checkFill (chunk : Word) (count : Nat) : ReadOnly (checkFill chunk count : Kernel (HeapState σ) Unit) := by
  induction count generalizing chunk with
  | zero => exact readOnly_pure _
  | succ count ih =>
    exact readOnly_bind (readOnly_loadLong _) fun _ => readOnly_bind (readOnly_assert _ _) fun _ => ih _

theorem pageLaws_true (h : PageLaws slab_alloc_locked slab_free_locked Own E) :
    PageLaws slab_alloc_locked slab_free_locked Own fun _ => True :=
  ⟨fun own => wp_mono (h.alloc own) (fun _ _ hQ => hQ) fun _ _ => trivial,
    fun own hv => wp_mono (h.free own hv) (fun _ _ hQ => hQ) fun _ _ => trivial, trivial⟩

theorem bytesOf_empty (address : Word) : bytesOf ⟨address, 0⟩ = ∅ := by
  ext x
  simp [bytesOf]

/-- An empty range is added to the free ones. -/
theorem HeapRules.add_empty (h : HeapRules P Own s live free) {address : Word} {v' : σ}
    (hmeta : Metadata Own { s with vectors := v' } (live.map Block.extent) (⟨address, 0⟩ ::ₘ free)) :
    HeapRules P Own { s with vectors := v' } live (⟨address, 0⟩ ::ₘ free) := by
  refine ⟨⟨hmeta, ?_, h.fill, h.usage⟩, h.mapped, h.fits, h.sizes, ?_⟩
  · rw [Multiset.add_cons, tiles_empty (bytesOf_empty address)]
    exact h.tiles
  · rw [Multiset.map_cons, Multiset.sum_cons, show (0 : Word).toNat = 0 from rfl, Nat.zero_add]
    exact h.total

theorem wp_kfree_dead (laws : StoreLaws nodes Own) (hpages : PageLaws slab_alloc_locked slab_free_locked Own E)
    (h : HeapRules P Own s live free) {p : Word} (hdead : ∀ b ∈ live, b.ptr ≠ p) :
    wp (kfree nodes slab_alloc_locked slab_free_locked p)
      (fun _ s' => s'.Used = s.Used ∧ s'.mem = s.mem ∧
        ∃ free', freeBytes free' = freeBytes free ∧ HeapRules P Own s' live free') (fun _ => True) s := by
  have hpages' := pageLaws_true hpages
  unfold kfree
  split
  · rw [wp_pure]
    exact ⟨rfl, rfl, free, rfl, h⟩
  · rw [wp_bind, wp_get, wp_bind]
    refine wp_imp (wp_find_used laws hpages' h.metadata _) ?_
    rintro size s₁ (⟨rfl, rfl, -⟩ | ⟨r, hr, haddr, -⟩)
    · rw [wp_bind]
      refine wp_imp ((readOnly_checkBlock _ _).keeps s₁) ?_
      rintro _ s₂ rfl
      have hzero : s₂.Used - 0 = s₂.Used := by simp
      rw [wp_bind, show (0 : Word).toNat = 0 from rfl, memset, wp_pure, wp_bind, wp_modify, hzero, wp_bind, wp_get]
      refine wp_imp (wp_free_free laws hpages' h.metadata _ _) ?_
      rintro _ s₃ ⟨v₃, rfl, hmeta₃⟩
      refine ⟨rfl, rfl, _, ?_, HeapRules.add_empty h hmeta₃⟩
      ext x
      simp only [freeBytes, Set.mem_ofPred_eq, Multiset.mem_cons, exists_eq_or_imp, bytesOf_empty,
        Set.mem_empty_iff_false, false_or]
    · obtain ⟨b, hb, rfl⟩ := Multiset.mem_map.mp hr
      have : b.ptr - Heap_Red_Zone_Size = p - Heap_Red_Zone_Size := haddr
      exact (hdead b hb (by simpa using this)).elim

/-! ## `heap_init` -/

section Init

variable {N : Nodes}

/-- Both vectors are set up, and empty. -/
theorem wp_init_vectors (laws : StoreLaws nodes Own) (own : Own s.vectors N) {u f : RegionVector}
    (hu : N s.heap_metadata_used = some u) (hf : N s.heap_metadata_free = some f)
    (hne : s.heap_metadata_used ≠ s.heap_metadata_free) (hu0 : s.heap_metadata_used ≠ 0)
    (hf0 : s.heap_metadata_free ≠ 0) {Q : Unit → HeapState σ → Prop}
    (hQ : ∀ v', Metadata Own { s with vectors := v' } 0 0 → Q () { s with vectors := v' }) :
    wp (do onVectors (region_vector_init nodes s.heap_metadata_used)
           onVectors (region_vector_init nodes s.heap_metadata_free)) Q E s := by
  rw [wp_bind, wp_onVectors]
  refine wp_imp (wp_region_vector_init laws own hu) fun _ v₁ own₁ => ?_
  rw [wp_onVectors]
  have hf₁ : Function.update N s.heap_metadata_used (some { u with next := 0, regions_used := 0 })
      s.heap_metadata_free = some f := by
    rw [Function.update_of_ne hne.symm, hf]
  refine wp_imp (wp_region_vector_init laws own₁ hf₁) fun _ v₂ own₂ => hQ v₂ ?_
  obtain ⟨hup, hup0⟩ := vector_single
    (v := { u with next := 0, regions_used := 0 }) ((Function.update_of_ne hne ..).trans (Function.update_self ..)) hu0 rfl rfl
  obtain ⟨hfp, hfp0⟩ := vector_single
    (v := { f with next := 0, regions_used := 0 }) (Function.update_self ..) hf0 rfl rfl
  exact ⟨_, _, _, own₂, hup, hup0, hfp, hfp0, by simpa using hne.symm⟩

/-- All of the heap is one free range with the fill pattern. -/
theorem fresh_inv (hmeta : Metadata Own s 0 {⟨s.heap, Heap_Size⟩}) (hfits : s.heap.toNat + Heap_Size.toNat < 2 ^ 64)
    (hUsed : s.Used = 0) (mem : Word → Option Byte) :
    HeapRules P Own { s with mem := filled mem s.heap Heap_Size.toNat 0xcc } 0 {⟨s.heap, Heap_Size⟩} := by
  have hmem := mem_filled mem (r := ⟨s.heap, Heap_Size⟩) hfits 0xcc
  refine ⟨⟨hmeta, ⟨?_, ?_⟩, fun x hx _ => (hmem x).1 hx, ?_⟩, ?_, hfits, by simp, by simp⟩
  · rw [Multiset.map_zero, zero_add, ← Multiset.cons_zero, apart_cons]
    exact ⟨by simp, Multiset.pairwise_zero _⟩
  · intro x
    simp only [Multiset.map_zero, zero_add, Multiset.mem_singleton, exists_eq_left]
    exact Iff.rfl
  · rw [hUsed]
    rfl
  · intro x hx
    exact Option.isSome_iff_exists.mpr ⟨_, (hmem x).1 hx⟩

theorem wp_initMetadata (laws : StoreLaws nodes Own) (hpages : PageLaws slab_alloc_locked slab_free_locked Own E)
    (own : Own s.vectors N) {u f : RegionVector} (hu : N s.heap_metadata_used = some u)
    (hf : N s.heap_metadata_free = some f) (hne : s.heap_metadata_used ≠ s.heap_metadata_free)
    (hu0 : s.heap_metadata_used ≠ 0) (hf0 : s.heap_metadata_free ≠ 0)
    (hfits : s.heap.toNat + Heap_Size.toNat < 2 ^ 64)
    (hmapped : ∀ x : Word, s.heap.toNat ≤ x.toNat → x.toNat < s.heap.toNat + Heap_Size.toNat → (s.mem x).isSome)
    (hUsed : s.Used = 0) :
    wp (initMetadata nodes slab_alloc_locked) (fun _ s' => ∃ free, HeapRules P Own s' 0 free) E s := by
  unfold initMetadata
  rw [wp_bind, wp_get, ← bind_assoc, wp_bind]
  refine wp_init_vectors laws own hu hf hne hu0 hf0 fun v₁ hmeta₁ => ?_
  rw [wp_bind]
  refine wp_imp (wp_free_free laws hpages hmeta₁ s.heap Heap_Size) ?_
  rintro _ s₂ ⟨v₂, rfl, hmeta₂⟩
  have hmapped' : ∀ k < Heap_Size.toNat, (s.mem (s.heap + BitVec.ofNat 64 k)).isSome := by
    intro k hk
    have hadd := add_ofNat_toNat (a := s.heap) (k := k) (by omega)
    exact hmapped _ (by omega) (by omega)
  rw [wp_bind, wp_memset (s := { s with vectors := v₂ }) hmapped', wp_pure]
  exact ⟨_, fresh_inv hmeta₂ hfits hUsed s.mem⟩

theorem wp_heap_init (laws : StoreLaws nodes Own) (hpages : PageLaws slab_alloc_locked slab_free_locked Own E)
    {slab_alloc : Word → Word → Kernel (HeapState σ) Word} {slab_free : Word → Word → Kernel (HeapState σ) Unit}
    (boot : BootLaws slab_alloc Own) (own : Own s.vectors N) (hUsed : s.Used = 0) :
    wp (heap_init nodes slab_alloc_locked slab_alloc slab_free)
      (fun _ s' => ∃ free, HeapRules P Own s' 0 free) (fun _ => True) s := by
  unfold heap_init
  rw [wp_bind]
  refine wp_imp (boot.page own) ?_
  rintro used s₁ ⟨hsame₁, hused⟩
  rw [wp_bind, wp_modify]
  split
  · simp [Code.assert]
  · rename_i hused0
    obtain ⟨-, u, own₁⟩ := hused hused0
    rw [wp_bind]
    refine wp_imp (boot.page (s := { s₁ with heap_metadata_used := used }) own₁) ?_
    rintro free s₂ ⟨hsame₂, hfree⟩
    rw [wp_bind, wp_modify]
    split
    · rw [wp_bind]
      exact wp_any (fun _ _ => by simp [Code.assert]) fun _ => trivial
    · rename_i hfree0
      obtain ⟨hfresh, f, own₂⟩ := hfree hfree0
      have hne : used ≠ free := by
        rintro rfl
        rw [Function.update_self] at hfresh
        cases hfresh
      rw [wp_bind]
      refine wp_imp (boot.heap (s := { s₂ with heap_metadata_free := free }) own₂) ?_
      rintro heap s₃ ⟨hsame₃, hheap⟩
      rw [wp_bind, wp_modify]
      split
      · rw [wp_bind]
        refine wp_any (fun _ _ => ?_) fun _ => trivial
        rw [wp_bind]
        exact wp_any (fun _ _ => by simp [Code.assert]) fun _ => trivial
      · rename_i hheap0
        obtain ⟨own₃, hfits, hmapped⟩ := hheap hheap0
        have hused₃ : s₃.heap_metadata_used = used := hsame₃.used.trans hsame₂.used
        have hfree₃ : s₃.heap_metadata_free = free := hsame₃.free
        have hUsed₃ : s₃.Used = 0 := hsame₃.Used.trans (hsame₂.Used.trans (hsame₁.Used.trans hUsed))
        exact wp_initMetadata (s := { s₃ with heap := heap }) (u := u) (f := f) laws (pageLaws_true hpages) own₃
          (by rw [hused₃, Function.update_of_ne hne, Function.update_self])
          (by rw [hfree₃, Function.update_self]) (by rw [hused₃, hfree₃]; exact hne)
          (by rw [hused₃]; exact hused0) (by rw [hfree₃]; exact hfree0) hfits hmapped hUsed₃

end Init

/-! ## Runs -/

theorem kmalloc_inv (laws : StoreLaws nodes Own) (hpages : PageLaws slab_alloc_locked slab_free_locked Own E)
    (h : HeapRules P Own s live free) {bytes p : Word} {s' : HeapState σ}
    (hbytes : P bytes.toNat ∧ bytes.toNat + 16 < 2 ^ 64)
    (hrun : (kmalloc nodes slab_alloc_locked bytes).run s = .ok (p, s')) :
    ∃ free', HeapRules P Own s' (if p = 0 then live else ⟨p, bytes⟩ ::ₘ live) free' := by
  rcases wp_ok (wp_kmalloc_any laws (pageLaws_true hpages) h hbytes fun _ => trivial) hrun with ⟨rfl, rfl⟩ | ⟨hp, free', h'⟩
  · exact ⟨free, by simpa using h⟩
  · rw [if_neg hp]
    exact ⟨free', h'⟩

theorem kfree_inv (laws : StoreLaws nodes Own) (hpages : PageLaws slab_alloc_locked slab_free_locked Own E)
    (h : HeapRules P Own s live free) {p : Word} {s' : HeapState σ}
    (hrun : (kfree nodes slab_alloc_locked slab_free_locked p).run s = .ok ((), s')) :
    ∃ free', HeapRules P Own s' (live.filter fun b => b.ptr ≠ p) free' := by
  by_cases hlive : ∃ b ∈ live, b.ptr = p
  · obtain ⟨b, hb, rfl⟩ := hlive
    obtain ⟨h', -⟩ := wp_ok (wp_kfree_live laws hpages h hb) hrun
    rw [h.filter_eq hb]
    exact ⟨_, h'⟩
  · have hdead : ∀ b ∈ live, b.ptr ≠ p := fun b hb hp => hlive ⟨b, hb, hp⟩
    obtain ⟨-, -, free', -, h'⟩ := wp_ok (wp_kfree_dead laws hpages h hdead) hrun
    rw [Multiset.filter_eq_self.mpr hdead]
    exact ⟨free', h'⟩

theorem write_inv (h : HeapRules P Own s live free) {mem' : Word → Option Byte}
    (hmem : ∀ x : Word, x.toNat ∈ heapBytes s → (mem' x).isSome ∧
      ((∀ b ∈ live, x.toNat ∉ b.client) → mem' x = s.mem x)) :
    HeapRules P Own { s with mem := mem' } live free := by
  refine ⟨⟨h.metadata, h.tiles, ?_, h.usage⟩, fun x hx => (hmem x hx).1, h.fits, h.sizes, h.total⟩
  intro x hx hall
  exact ((hmem x hx).2 hall).trans (h.fill x hx hall)

section Run

variable {w w' : HeapWorld σ}

theorem step_inv (laws : StoreLaws nodes Own) (hpages : PageLaws slab_alloc_locked slab_free_locked Own E)
    (h : ∃ free, HeapInv Own w.state w.live free)
    (hstep : HeapWorld.Step nodes slab_alloc_locked slab_free_locked w w') :
    ∃ free, HeapInv Own w'.state w'.live free := by
  obtain ⟨free, h⟩ := h
  cases hstep with
  | kmalloc bytes hpos hfits hrun => exact kmalloc_inv laws hpages h ⟨hpos, hfits⟩ hrun
  | kfree p hrun => exact kfree_inv laws hpages h hrun
  | write mem' hmem => exact ⟨free, write_inv h hmem⟩

theorem run_inv (laws : StoreLaws nodes Own) (hpages : PageLaws slab_alloc_locked slab_free_locked Own E)
    (h : ∃ free, HeapInv Own w.state w.live free)
    (hrun : Relation.ReflTransGen (HeapWorld.Step nodes slab_alloc_locked slab_free_locked) w w') :
    ∃ free, HeapInv Own w'.state w'.live free := by
  induction hrun with
  | refl => exact h
  | tail _ hstep ih => exact step_inv laws hpages ih hstep

theorem start_inv (laws : StoreLaws nodes Own) (hpages : PageLaws slab_alloc_locked slab_free_locked Own E)
    {slab_alloc : Word → Word → Kernel (HeapState σ) Word} {slab_free : Word → Word → Kernel (HeapState σ) Unit}
    (boot : BootLaws slab_alloc Own) (h : w.Start nodes slab_alloc_locked slab_alloc slab_free Own) :
    ∃ free, HeapRules P Own w.state w.live free := by
  obtain ⟨hlive, s, N, own, hUsed, hrun⟩ := h
  rw [hlive]
  exact wp_ok (wp_heap_init laws hpages boot own hUsed) hrun

end Run

/-! ## A heap in memory with spare pages -/

/-- `slab_alloc` for the two calls that `heap_init` makes: a spare page, or a heap at `0x100000`. -/
def bootAlloc (bytes attributes : Word) : Kernel (HeapState PageMemory) Word :=
  if bytes = Heap_Size then do
    modify fun s => { s with mem := fun _ => some 0 }
    pure 0x100000
  else onVectors (takeSpare bytes attributes)

def bootFree (bytes p : Word) : Kernel (HeapState PageMemory) Unit := onVectors (giveSpare bytes p)

def bootHeap : HeapState PageMemory where
  vectors := ⟨fun _ => ⟨0, 0, fun _ => ⟨0, 0⟩⟩, [0x1000, 0x2000]⟩
  mem := fun _ => none
  heap_metadata_used := 0
  heap_metadata_free := 0
  heap := 0
  Used := 0

theorem bootAlloc_laws : BootLaws bootAlloc PageMemory.Own := by
  have hpages := pageLaws_true spare_laws
  refine ⟨fun {s N} own => ?_, fun {s N} own => ?_⟩
  · rw [bootAlloc, if_neg (by decide), wp_onVectors]
    refine wp_imp (hpages.alloc own) fun p v' hp => ⟨⟨rfl, rfl, rfl, rfl⟩, fun hne => ?_⟩
    rcases hp with rfl | ⟨-, hfresh, hown⟩
    · exact (hne rfl).elim
    · exact ⟨hfresh, hown⟩
  · rw [bootAlloc, if_pos rfl, wp_bind, wp_modify, wp_pure]
    exact ⟨⟨rfl, rfl, rfl, rfl⟩, fun _ => ⟨own, by decide, fun _ _ _ => rfl⟩⟩

theorem bootHeap_own : bootHeap.vectors.Own fun _ => none := by
  refine ⟨fun a v h => by simp at h, by decide, fun p hp => ⟨?_, rfl⟩, rfl⟩
  simp only [bootHeap, List.mem_cons, List.not_mem_nil, or_false] at hp
  rcases hp with rfl | rfl <;> decide

def emptyNode : RegionVector := ⟨0, 0, fun _ => ⟨0, 0⟩⟩

/-- The heap after `heap_init`. -/
def bootedHeap : HeapState PageMemory where
  vectors := ⟨Function.update (Function.update (Function.update (fun _ => emptyNode) 0x1000 emptyNode) 0x2000 emptyNode) 0x2000
    (pushRegion emptyNode ⟨0x100000, Heap_Size⟩), []⟩
  mem := filled (fun _ => some 0) 0x100000 Heap_Size.toNat 0xcc
  heap_metadata_used := 0x1000
  heap_metadata_free := 0x2000
  heap := 0x100000
  Used := 0

theorem bootHeap_init : (heap_init pageStore takeSpare bootAlloc bootFree).run bootHeap = .ok (.Ok, bootedHeap) := by
  have hwp : wp (heap_init pageStore takeSpare bootAlloc bootFree) (fun status s => status = .Ok ∧ s = bootedHeap)
      (fun _ => False) bootHeap := by
    unfold heap_init
    rw [wp_bind, wp_of_run (by rfl), wp_bind, wp_modify, if_neg (by decide), wp_bind, wp_of_run (by rfl), wp_bind,
      wp_modify, if_neg (by decide), wp_bind, bootAlloc, if_pos rfl, wp_bind, wp_modify, wp_pure, wp_bind, wp_modify,
      if_neg (by decide)]
    unfold initMetadata
    rw [wp_bind, wp_get, wp_bind, wp_onVectors, wp_of_run (by rfl), wp_bind, wp_onVectors, wp_of_run (by rfl),
      wp_bind, wp_onVectors, wp_of_run (by rfl), wp_bind, wp_memset (fun _ _ => rfl), wp_pure]
    exact ⟨rfl, rfl⟩
  obtain ⟨_, _, hrun, rfl, rfl⟩ := wp_total hwp
  exact hrun

theorem bootedHeap_start : HeapWorld.Start pageStore takeSpare bootAlloc bootFree PageMemory.Own ⟨bootedHeap, 0⟩ :=
  ⟨rfl, bootHeap, _, bootHeap_own, rfl, bootHeap_init⟩

end KernelOfTruth.HeapRuns
