import KernelOfTruth.Bits
import KernelOfTruth.HeapRuns

/-!
# What first fit refuses

`region_alloc` takes a range only if it is larger than the request. So a range of exactly the requested size, as
`kfree` leaves it, does not serve the same request again.
-/

open KernelOfTruth.Lib KernelOfTruth.Code KernelOfTruth.Spec KernelOfTruth.Rules KernelOfTruth.Regions
  KernelOfTruth.Heap KernelOfTruth.HeapRuns

namespace KernelOfTruth.FirstFit

variable {σ : Type} {nodes : NodeStore σ} {Own : σ → Nodes → Prop} {E : Halt → Prop}

/-! ## One vector -/

/-- The request is granted exactly if some range is large enough. -/
def Complete (nodes : NodeStore σ) (vect size : Word) (M : Multiset Region) (s : σ) : Prop :=
  (∃ a s', (region_alloc nodes vect size).run s = .ok (.ok a, s')) ↔ ∃ r ∈ M, size ≤ r.size

theorem region_alloc_ok_iff (laws : StoreLaws nodes Own) {s : σ} {N : Nodes} {vect : Word} {pages : List Word}
    (own : Own s N) (hv : IsVector N vect pages) (size : Word) :
    (∃ a s', (region_alloc nodes vect size).run s = .ok (.ok a, s')) ↔ ∃ r ∈ ranges N pages, size < r.size := by
  obtain ⟨result, s', hrun, hresult⟩ := wp_total (wp_region_alloc laws own hv size)
  rcases hresult with ⟨rfl, -, hnone⟩ | ⟨r, hr, hlt, rfl, -⟩
  · refine iff_of_false ?_ ?_
    · rintro ⟨a, s'', hrun'⟩
      rw [hrun] at hrun'
      cases hrun'
    · rintro ⟨r, hr, hlt⟩
      exact absurd hlt (BitVec.not_lt.mpr (hnone r hr))
  · exact iff_of_true ⟨_, _, hrun⟩ ⟨r, hr, hlt⟩

theorem complete_iff (laws : StoreLaws nodes Own) {s : σ} {N : Nodes} {vect : Word} {pages : List Word}
    (own : Own s N) (hv : IsVector N vect pages) (size : Word) :
    Complete nodes vect size (ranges N pages) s ↔
      (∃ r ∈ ranges N pages, size < r.size) ∨ ∀ r ∈ ranges N pages, r.size ≠ size := by
  unfold Complete
  rw [region_alloc_ok_iff laws own hv]
  constructor
  · intro hcomplete
    by_contra hnot
    push Not at hnot
    obtain ⟨hnone, r, hr, rfl⟩ := hnot
    obtain ⟨r', hr', hlt⟩ := hcomplete.mpr ⟨r, hr, BitVec.le_refl _⟩
    exact hnone r' hr' hlt
  · rintro (hlarge | hne)
    · refine iff_of_true hlarge ?_
      obtain ⟨r, hr, hlt⟩ := hlarge
      exact ⟨r, hr, BitVec.le_of_lt hlt⟩
    · refine ⟨fun ⟨r, hr, hlt⟩ => ⟨r, hr, BitVec.le_of_lt hlt⟩, fun ⟨r, hr, hle⟩ => ⟨r, hr, ?_⟩⟩
      exact Nat.lt_of_le_of_ne hle fun heq => hne r hr (BitVec.eq_of_toNat_eq heq).symm

/-! ## The vectors of the heap -/

variable {s s' : HeapState σ} {slab_alloc_locked : Word → Word → Kernel σ Word}
  {slab_free_locked : Word → Word → Kernel σ Unit} {used free : Multiset Region}

/-- The size of a block with its red zones. -/
def blockSize (bytes : Word) : Word := bytes + 2 * Heap_Red_Zone_Size

theorem wp_takeBlock_vectors (laws : StoreLaws nodes Own)
    (hpages : PageLaws slab_alloc_locked slab_free_locked Own fun _ => True) (h : Metadata Own s used free)
    (bytes size address : Word) :
    wp (takeBlock nodes slab_alloc_locked bytes size address)
      (fun p s' => p = address + Heap_Red_Zone_Size ∧ s'.heap = s.heap ∧ Metadata Own s' (⟨address, size⟩ ::ₘ used) free)
      (fun _ => True) s := by
  unfold takeBlock
  rw [wp_bind, wp_get, wp_bind]
  refine wp_imp (wp_free_used laws hpages h address size) ?_
  rintro _ _ ⟨v', rfl, hmeta⟩
  rw [wp_bind]
  refine wp_imp ((readOnly_checkFill _ _).keeps _) ?_
  rintro _ _ rfl
  rw [wp_bind, wp_get]
  repeat (rw [wp_bind]; refine wp_assert_partial ?_)
  rw [wp_bind, wp_modify, wp_pure]
  exact ⟨rfl, rfl, hmeta⟩

theorem wp_kmalloc_vectors (laws : StoreLaws nodes Own)
    (hpages : PageLaws slab_alloc_locked slab_free_locked Own fun _ => True) (h : Metadata Own s used free) (bytes : Word) :
    wp (kmalloc nodes slab_alloc_locked bytes) (fun p s' => (p = 0 ∧ s' = s ∧ ∀ r ∈ free, r.size ≤ blockSize bytes) ∨
      ∃ r ∈ free, blockSize bytes < r.size ∧ p = r.address + Heap_Red_Zone_Size ∧ s'.heap = s.heap ∧
        Metadata Own s' (⟨r.address, blockSize bytes⟩ ::ₘ used)
          (⟨r.address + blockSize bytes, r.size - blockSize bytes⟩ ::ₘ free.erase r)) (fun _ => True) s := by
  unfold kmalloc
  simp only [wp_bind, wp_get]
  refine wp_imp (wp_alloc_free laws h _) ?_
  rintro _ s₁ (⟨rfl, rfl, hnone⟩ | ⟨r, hr, hlt, rfl, v₁, rfl, hmeta⟩)
  · exact (wp_pure ..).mpr (.inl ⟨rfl, rfl, hnone⟩)
  · refine wp_imp (wp_takeBlock_vectors laws hpages hmeta bytes _ _) ?_
    rintro p s' ⟨hp, hheap, hmeta'⟩
    exact .inr ⟨r, hr, hlt, hp, hheap, hmeta'⟩

/-- A call of `kmalloc`, from the results of the two vectors. -/
theorem kmalloc_eq (bytes : Word) {address : Word} {v₁ v₂ : σ}
    (halloc : (region_alloc nodes s.heap_metadata_free (blockSize bytes)).run s.vectors = .ok (.ok address, v₁))
    (hused : (region_free nodes slab_alloc_locked s.heap_metadata_used address (blockSize bytes)).run v₁ = .ok ((), v₂))
    (hfill : Filled s address (8 * ((blockSize bytes).toNat / 8)))
    (hinside : address < s.heap + Heap_Size ∧ address ≥ s.heap ∧ address + bytes > s.heap ∧
      address + bytes ≤ s.heap + Heap_Size) :
    (kmalloc nodes slab_alloc_locked bytes).run s =
      .ok (address + Heap_Red_Zone_Size, { s with vectors := v₂, Used := s.Used + blockSize bytes }) := by
  unfold blockSize at *
  have hwp : wp (kmalloc nodes slab_alloc_locked bytes) (fun p s' => p = address + Heap_Red_Zone_Size ∧
      s' = { s with vectors := v₂, Used := s.Used + (bytes + 2 * Heap_Red_Zone_Size) }) (fun _ => False) s := by
    have hfill' : Filled { s with vectors := v₂ } address (8 * ((bytes + 2 * Heap_Red_Zone_Size).toNat / 8)) := hfill
    unfold kmalloc
    rw [wp_bind, wp_get, wp_bind, wp_onVectors, wp_of_run halloc]
    unfold takeBlock
    rw [wp_bind, wp_get, wp_bind, wp_onVectors, wp_of_run hused, wp_bind, wp_checkFill hfill', wp_bind, wp_get, wp_bind,
      wp_assert_decide hinside.1, wp_bind, wp_assert_decide hinside.2.1, wp_bind, wp_assert_decide hinside.2.2.1, wp_bind,
      wp_assert_decide hinside.2.2.2, wp_bind, wp_modify, wp_pure]
    exact ⟨rfl, rfl⟩
  obtain ⟨_, _, hrun, rfl, rfl⟩ := wp_total hwp
  exact hrun

theorem wp_memset_any (buffer value : Word) (n : Nat) :
    wp (memset buffer value n) (fun _ s' => ∃ mem, s' = { s with mem := mem }) (fun _ => True) s := by
  induction n generalizing buffer s with
  | zero => exact (wp_pure ..).mpr ⟨_, rfl⟩
  | succ n ih =>
    unfold memset storeByte
    rw [wp_bind, wp_bind]
    refine wp_imp ((readOnly_loadByte _).keeps _) ?_
    rintro _ _ rfl
    rw [wp_modify]
    refine wp_imp (ih _) ?_
    rintro _ _ ⟨mem, rfl⟩
    exact ⟨mem, rfl⟩

/-- `kfree` of any pointer. Where no block is found, an empty range is added to the free ones. -/
theorem wp_kfree_any (laws : StoreLaws nodes Own)
    (hpages : PageLaws slab_alloc_locked slab_free_locked Own fun _ => True) (h : Metadata Own s used free) {p : Word}
    (hp : p ≠ 0) :
    wp (kfree nodes slab_alloc_locked slab_free_locked p) (fun _ s' => s'.heap = s.heap ∧
      (((∀ r ∈ used, r.address ≠ p - Heap_Red_Zone_Size) ∧ Metadata Own s' used (⟨p - Heap_Red_Zone_Size, 0⟩ ::ₘ free)) ∨
      ∃ r ∈ used, r.address = p - Heap_Red_Zone_Size ∧ Metadata Own s' (used.erase r) (r ::ₘ free))) (fun _ => True) s := by
  have hrest : ∀ {s₁ : HeapState σ} {used₁ : Multiset Region} {addr size : Word}, Metadata Own s₁ used₁ free →
      wp (do
          checkBlock addr size
          memset addr Heap_Red_Zone_Fill size.toNat
          modify fun s : HeapState σ => { s with Used := s.Used - size }
          onVectors (region_free nodes slab_alloc_locked (← get).heap_metadata_free addr size))
        (fun _ s' => s'.heap = s₁.heap ∧ Metadata Own s' used₁ (⟨addr, size⟩ ::ₘ free)) (fun _ => True) s₁ := by
    intro s₁ used₁ addr size hmeta
    rw [wp_bind]
    refine wp_imp ((readOnly_checkBlock _ _).keeps _) ?_
    rintro _ s₁ rfl
    rw [wp_bind]
    refine wp_imp (wp_memset_any ..) ?_
    rintro _ _ ⟨mem, rfl⟩
    rw [wp_bind, wp_modify, wp_bind, wp_get]
    have hmeta' : Metadata Own { s₁ with mem := mem, Used := s₁.Used - size } used₁ free := hmeta
    refine wp_imp (wp_free_free laws hpages hmeta' _ _) ?_
    rintro _ _ ⟨v₂, rfl, hmeta''⟩
    exact ⟨rfl, hmeta''⟩
  unfold kfree
  rw [if_neg hp, wp_bind, wp_get, wp_bind]
  refine wp_imp (wp_find_used laws hpages h _) ?_
  rintro size s₁ (⟨rfl, rfl, hnone⟩ | ⟨r, hr, haddress, rfl, v₁, rfl, hmeta⟩)
  · exact wp_imp (hrest h) fun _ s' ⟨hheap, hmeta⟩ => ⟨hheap, .inl ⟨hnone, hmeta⟩⟩
  · refine wp_imp (hrest hmeta) fun _ s' ⟨hheap, hmeta'⟩ => ⟨hheap, .inr ⟨r, hr, haddress, ?_⟩⟩
    rwa [← haddress] at hmeta'

theorem wp_kfree_vectors (laws : StoreLaws nodes Own)
    (hpages : PageLaws slab_alloc_locked slab_free_locked Own fun _ => True) (h : Metadata Own s used free) {p : Word}
    (hp : p ≠ 0) {block : Region} (hblock : block ∈ used) (haddress : block.address = p - Heap_Red_Zone_Size)
    (hunique : ∀ r ∈ used, r.address = block.address → r = block) :
    wp (kfree nodes slab_alloc_locked slab_free_locked p)
      (fun _ s' => s'.heap = s.heap ∧ Metadata Own s' (used.erase block) (block ::ₘ free)) (fun _ => True) s := by
  refine wp_imp (wp_kfree_any laws hpages h hp) ?_
  rintro _ s' ⟨hheap, ⟨hnone, -⟩ | ⟨r, hr, hr', hmeta⟩⟩
  · exact absurd haddress (hnone block hblock)
  · obtain rfl := hunique r hr (hr'.trans haddress.symm)
    exact ⟨hheap, hmeta⟩

theorem kmalloc_refused_iff (laws : StoreLaws nodes Own)
    (hpages : PageLaws slab_alloc_locked slab_free_locked Own fun _ => True) (h : Metadata Own s used free) (bytes : Word)
    (hnonnull : ∀ r ∈ free, 0 < r.size.toNat → r.address + Heap_Red_Zone_Size ≠ 0) :
    (∃ s', (kmalloc nodes slab_alloc_locked bytes).run s = .ok (0, s')) ↔ ∀ r ∈ free, r.size ≤ blockSize bytes := by
  constructor
  · rintro ⟨s', hrun⟩
    rcases wp_ok (wp_kmalloc_vectors laws hpages h bytes) hrun with ⟨-, -, hnone⟩ | ⟨r, hr, hlt, hp, -⟩
    · exact hnone
    · exact absurd hp.symm (hnonnull r hr (Nat.zero_lt_of_lt hlt))
  · intro hnone
    have hwp : wp (kmalloc nodes slab_alloc_locked bytes) (fun p _ => p = 0) (fun _ => False) s := by
      unfold kmalloc
      simp only [wp_bind, wp_get]
      refine wp_imp (wp_alloc_free laws h _) ?_
      rintro _ s₁ (⟨rfl, -⟩ | ⟨r, hr, hlt, -⟩)
      · exact (wp_pure ..).mpr rfl
      · exact absurd hlt (BitVec.not_lt.mpr (hnone r hr))
    obtain ⟨_, s', hrun, rfl⟩ := wp_total hwp
    exact ⟨s', hrun⟩

/-! ## A block that is freed and asked for again -/

/-- Two requests of this size, one after the other, can be served. -/
def ServesTwo (size : Word) (free : Multiset Region) : Prop :=
  ∃ r ∈ free, size < r.size ∧ (size < r.size - size ∨ ∃ r' ∈ free.erase r, size < r'.size)

/-- It does not matter which range is taken first. -/
theorem servesTwo_iff {size : Word} {r : Region} (hr : r ∈ free) (hlt : size < r.size) :
    ServesTwo size free ↔ size < r.size - size ∨ ∃ r' ∈ free.erase r, size < r'.size := by
  refine ⟨?_, fun h => ⟨r, hr, hlt, h⟩⟩
  rintro ⟨q, hq, hq', h⟩
  by_cases heq : q = r
  · rwa [heq] at h
  · exact .inr ⟨q, (Multiset.mem_erase_of_ne heq).mpr hq, hq'⟩

section Run

variable {live : Multiset Block}

/-- The heap is a number of whole pages, and so does not end with the last bytes of memory. -/
theorem nonnull_of_lt {P : Nat → Prop} (h : HeapRules P Own s live free) (halign : is_aligned s.heap Page_Small) {a : Word}
    (ha : a.toNat < s.heap.toNat + Heap_Size.toNat) : a + Heap_Red_Zone_Size ≠ 0 := by
  intro hzero
  have hfits := h.fits
  have hpages := (Bits.is_aligned_iff _).mp halign
  have hnat := congrArg BitVec.toNat hzero
  rw [BitVec.toNat_add, show Heap_Red_Zone_Size.toNat = 8 from rfl, show (0 : Word).toNat = 0 from rfl] at hnat
  rw [show Heap_Size.toNat = 65536 from rfl] at ha hfits
  omega

theorem new_block_unique (h : HeapInv Own s live free) {r : Region} (hr : r ∈ free) {size : Word} (hlt : size < r.size) :
    ∀ r' ∈ ⟨r.address, size⟩ ::ₘ live.map Block.extent, r'.address = r.address → r' = ⟨r.address, size⟩ := by
  intro r' hr' haddress
  rcases Multiset.mem_cons.mp hr' with rfl | hr'
  · rfl
  · obtain ⟨b, hb, rfl⟩ := Multiset.mem_map.mp hr'
    have hsize := (h.block hb).1
    have hr0 : 0 < r.size.toNat := Nat.zero_lt_of_lt hlt
    have hfirst : r.address.toNat ∈ bytesOf b.extent := by
      rw [← haddress]
      exact ⟨le_rfl, by omega⟩
    exact absurd ⟨le_rfl, by omega⟩ (Set.disjoint_left.mp ((h.apart hb).2 r hr) hfirst)

/-- The ranges after a block has been taken from `r` and given back. -/
theorem given_back_nonnull (h : HeapInv Own s live free) (halign : is_aligned s.heap Page_Small) {r : Region}
    (hr : r ∈ free) {size : Word} (hlt : size < r.size) :
    ∀ r' ∈ ⟨r.address, size⟩ ::ₘ ⟨r.address + size, r.size - size⟩ ::ₘ free.erase r, 0 < r'.size.toNat →
      r'.address + Heap_Red_Zone_Size ≠ 0 := by
  have hin : ∀ r' ∈ free, 0 < r'.size.toNat → r'.address.toNat + r'.size.toNat ≤ s.heap.toNat + Heap_Size.toNat :=
    fun r' hr' hpos => (h.region_in_heap (Multiset.mem_add.mpr (.inr hr')) hpos).2
  have hend := hin r hr (Nat.zero_lt_of_lt hlt)
  have hfits := h.fits
  rw [BitVec.lt_def] at hlt
  intro r' hr' hpos
  rcases Multiset.mem_cons.mp hr' with rfl | hr'
  · exact nonnull_of_lt h halign (show r.address.toNat < _ by omega)
  · rcases Multiset.mem_cons.mp hr' with rfl | hr'
    · refine nonnull_of_lt h halign (show (r.address + size).toNat < _ from ?_)
      rw [BitVec.toNat_add]
      omega
    · have hle := hin r' (Multiset.mem_of_mem_erase hr') hpos
      exact nonnull_of_lt h halign (by omega)

theorem again_iff (laws : StoreLaws nodes Own) (hpages : PageLaws slab_alloc_locked slab_free_locked Own fun _ => True)
    (h : HeapInv Own s live free) (halign : is_aligned s.heap Page_Small) {bytes p : Word} {s₁ s₂ : HeapState σ}
    {mem : Word → Option Byte} (hp : p ≠ 0) (hmalloc : (kmalloc nodes slab_alloc_locked bytes).run s = .ok (p, s₁))
    (hfree : (kfree nodes slab_alloc_locked slab_free_locked p).run { s₁ with mem := mem } = .ok ((), s₂)) :
    (¬ ∃ s₃, (kmalloc nodes slab_alloc_locked bytes).run s₂ = .ok (0, s₃)) ↔ ServesTwo (blockSize bytes) free := by
  rcases wp_ok (wp_kmalloc_vectors laws hpages h.metadata bytes) hmalloc with ⟨hzero, -⟩ | ⟨r, hr, hlt, hp', hheap, hmeta⟩
  · exact absurd hzero hp
  have haddress : r.address = p - Heap_Red_Zone_Size := by rw [hp', BitVec.add_sub_cancel]
  have hmeta₁ : Metadata Own { s₁ with mem := mem } _ _ := hmeta
  obtain ⟨-, hmeta₂⟩ := wp_ok (wp_kfree_vectors laws hpages hmeta₁ hp (Multiset.mem_cons_self _ _) haddress
    (new_block_unique h hr hlt)) hfree
  rw [kmalloc_refused_iff laws hpages hmeta₂ bytes (given_back_nonnull h halign hr hlt), servesTwo_iff hr hlt]
  push Not
  simp only [Multiset.mem_cons, exists_eq_or_imp, BitVec.not_le, BitVec.lt_irrefl, false_or]

variable {slab_alloc : Word → Word → Kernel (HeapState σ) Word} {slab_free : Word → Word → Kernel (HeapState σ) Unit}
  {w₀ w : HeapWorld σ}

end Run

/-! ## One range -/

/-- A node with one range of a page. -/
def rangeNode : RegionVector := ⟨1, 0, fun _ => ⟨0x5000, Page_Small⟩⟩

def rangeMemory : PageMemory := ⟨fun _ => rangeNode, []⟩

def rangeNodes : Nodes := fun a => if a = 0x1000 then some rangeNode else none

theorem rangeMemory_own : rangeMemory.Own rangeNodes := by
  refine ⟨?_, by decide, by simp [rangeMemory], rfl⟩
  intro a v hv
  unfold rangeNodes at hv
  split at hv
  · cases hv
    rfl
  · cases hv

theorem rangeNodes_vector : IsVector rangeNodes 0x1000 [0x1000] := by
  refine ⟨⟨rfl, by decide, rangeNode, rfl, rfl⟩, by simp, by simp, ?_⟩
  intro a ha v hv
  rw [List.mem_singleton.mp ha] at hv
  cases hv
  decide

theorem rangeNodes_ranges : ranges rangeNodes [0x1000] = {⟨0x5000, Page_Small⟩} := rfl

end KernelOfTruth.FirstFit
