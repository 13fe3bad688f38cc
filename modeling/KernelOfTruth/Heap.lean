import KernelOfTruth.RegionVector
import KernelOfTruth.Rules
import KernelOfTruth.Spec.Heap
import KernelOfTruth.Strings

/-! # The heap keeps its blocks apart -/

open KernelOfTruth.Lib KernelOfTruth.Code KernelOfTruth.Spec KernelOfTruth.Rules
  KernelOfTruth.Regions

namespace KernelOfTruth.Heap

variable {σ : Type} {E : Halt → Prop} {s : HeapState σ}

/-! ## Bytes -/

theorem add_ofNat_toNat {a : Word} {k : Nat} (h : a.toNat + k < 2 ^ 64) :
    (a + BitVec.ofNat 64 k).toNat = a.toNat + k := by
  rw [BitVec.toNat_add, BitVec.toNat_ofNat]
  omega

theorem wp_loadByte {a : Word} {b : Byte} {Q : Byte → HeapState σ → Prop} (h : s.mem a = some b) :
    wp (loadByte a) Q E s ↔ Q b s := by
  simp [loadByte, h]

/-- All of the `n` bytes at `a` have the fill pattern. -/
def Filled (s : HeapState σ) (a : Word) (n : Nat) : Prop := ∀ k < n, s.mem (a + BitVec.ofNat 64 k) = some 0xcc

theorem Filled.mono {a : Word} {n m : Nat} (h : Filled s a n) (hm : m ≤ n) : Filled s a m :=
  fun k hk => h k (by omega)

theorem Filled.shift {a : Word} {n m : Nat} (h : Filled s a (n + m)) : Filled s (a + BitVec.ofNat 64 n) m := by
  intro k hk
  have := h (n + k) (by omega)
  rwa [BitVec.ofNat_add, ← BitVec.add_assoc] at this

theorem wp_loadLong {a : Word} {Q : Word → HeapState σ → Prop} (h : Filled s a 8) :
    wp (loadLong a) Q E s ↔ Q Heap_Red_Zone_Fill s := by
  have h0 : s.mem a = some 0xcc := by simpa using h 0 (by omega)
  have h1 : s.mem (a + 1) = some 0xcc := h 1 (by omega)
  have h2 : s.mem (a + 2) = some 0xcc := h 2 (by omega)
  have h3 : s.mem (a + 3) = some 0xcc := h 3 (by omega)
  have h4 : s.mem (a + 4) = some 0xcc := h 4 (by omega)
  have h5 : s.mem (a + 5) = some 0xcc := h 5 (by omega)
  have h6 : s.mem (a + 6) = some 0xcc := h 6 (by omega)
  have h7 : s.mem (a + 7) = some 0xcc := h 7 (by omega)
  unfold loadLong
  simp only [wp_bind, wp_pure, wp_loadByte h0, wp_loadByte h1, wp_loadByte h2, wp_loadByte h3, wp_loadByte h4,
    wp_loadByte h5, wp_loadByte h6, wp_loadByte h7]
  exact Iff.rfl

theorem wp_checkFill {a : Word} {n : Nat} {Q : Unit → HeapState σ → Prop} (h : Filled s a (8 * n)) :
    wp (checkFill a n) Q E s ↔ Q () s := by
  induction n generalizing a with
  | zero => rw [checkFill, wp_pure]
  | succ n ih =>
    unfold checkFill
    have hrest : Filled s (a + 8) (8 * n) := (h.mono (m := 8 + 8 * n) (by omega)).shift
    simp only [wp_bind, wp_loadLong (h.mono (m := 8) (by omega)), Code.assert, wp_check, decide_true, if_true]
    exact ih hrest

theorem wp_memset {a v : Word} {n : Nat} {Q : Unit → HeapState σ → Prop}
    (h : ∀ k < n, (s.mem (a + BitVec.ofNat 64 k)).isSome) :
    wp (memset a v n) Q E s ↔ Q () { s with mem := filled s.mem a n (v.setWidth 8) } := by
  induction n generalizing a s with
  | zero => rw [Strings.filled_zero, memset, wp_pure]
  | succ n ih =>
    obtain ⟨b, hb⟩ := Option.isSome_iff_exists.mp (h 0 (by omega))
    rw [BitVec.add_zero] at hb
    unfold memset storeByte
    simp only [wp_bind, wp_loadByte hb, wp_modify]
    rw [ih ?_, Strings.filled_succ]
    intro k hk
    have hk' := h (1 + k) (by omega)
    rw [BitVec.ofNat_add, ← BitVec.add_assoc] at hk'
    by_cases hka : a + 1 + BitVec.ofNat 64 k = a
    · rw [hka]; simp
    · simp only
      rw [Function.update_of_ne hka]
      exact hk'

/-! ## The two vectors -/

section Metadata

variable {nodes : NodeStore σ} {Own : σ → Nodes → Prop} {slab_alloc_locked : Word → Word → Kernel σ Word}
  {slab_free_locked : Word → Word → Kernel σ Unit} {used free : Multiset Region}

theorem wp_onVectors {α : Type} {p : Kernel σ α} {Q : α → HeapState σ → Prop} :
    wp (onVectors p) Q E s ↔ wp p (fun a v => Q a { s with vectors := v }) E s.vectors :=
  wp_zoom ..

theorem metadata_free {N : Nodes} {up fp : List Word} {v' : σ} {M' : Multiset Region}
    (hup : IsVector N s.heap_metadata_used up) (hused : ranges N up = used) (hdisj : up.Disjoint fp)
    (h : Becomes Own N s.heap_metadata_free fp v' M') : Metadata Own { s with vectors := v' } used M' := by
  obtain ⟨N', fp', own', hfp', hM', hframe⟩ := h
  obtain ⟨hup', hranges, hdisj'⟩ := vector_frame hup hframe hdisj
  exact ⟨N', up, fp', own', hup', hranges.trans hused, hfp', hM', hdisj'⟩

theorem metadata_used {N : Nodes} {up fp : List Word} {v' : σ} {M' : Multiset Region}
    (hfp : IsVector N s.heap_metadata_free fp) (hfree : ranges N fp = free) (hdisj : up.Disjoint fp)
    (h : Becomes Own N s.heap_metadata_used up v' M') : Metadata Own { s with vectors := v' } M' free := by
  obtain ⟨N', up', own', hup', hM', hframe⟩ := h
  obtain ⟨hfp', hranges, hdisj'⟩ := vector_frame hfp hframe hdisj.symm
  exact ⟨N', up', fp, own', hup', hM', hfp', hranges.trans hfree, hdisj'.symm⟩

theorem wp_alloc_free (laws : StoreLaws nodes Own) (h : Metadata Own s used free) (size : Word) :
    wp (onVectors (region_alloc nodes s.heap_metadata_free size))
      (fun result s' => (result = .error .Error_No_Memory ∧ s' = s ∧ ∀ r ∈ free, r.size ≤ size) ∨
        ∃ r ∈ free, size < r.size ∧ result = .ok r.address ∧ ∃ v', s' = { s with vectors := v' } ∧
          Metadata Own s' used (⟨r.address + size, r.size - size⟩ ::ₘ free.erase r)) E s := by
  obtain ⟨N, up, fp, own, hup, hused, hfp, rfl, hdisj⟩ := h
  rw [wp_onVectors]
  refine wp_imp (wp_region_alloc laws own hfp size) ?_
  rintro result v' (⟨rfl, rfl, hnone⟩ | ⟨r, hr, hlt, rfl, hb⟩)
  · exact .inl ⟨rfl, rfl, hnone⟩
  · exact .inr ⟨r, hr, hlt, rfl, v', rfl, metadata_free hup hused hdisj hb⟩

theorem wp_free_free (laws : StoreLaws nodes Own)
    (hpages : PageLaws slab_alloc_locked slab_free_locked Own E) (h : Metadata Own s used free)
    (address size : Word) :
    wp (onVectors (region_free nodes slab_alloc_locked s.heap_metadata_free address size))
      (fun _ s' => ∃ v', s' = { s with vectors := v' } ∧ Metadata Own s' used (⟨address, size⟩ ::ₘ free)) E s := by
  obtain ⟨N, up, fp, own, hup, hused, hfp, rfl, hdisj⟩ := h
  rw [wp_onVectors]
  refine wp_imp (wp_region_free laws hpages own hfp address size) fun _ v' hb => ?_
  exact ⟨v', rfl, metadata_free hup hused hdisj hb⟩

theorem wp_free_used (laws : StoreLaws nodes Own)
    (hpages : PageLaws slab_alloc_locked slab_free_locked Own E) (h : Metadata Own s used free)
    (address size : Word) :
    wp (onVectors (region_free nodes slab_alloc_locked s.heap_metadata_used address size))
      (fun _ s' => ∃ v', s' = { s with vectors := v' } ∧ Metadata Own s' (⟨address, size⟩ ::ₘ used) free) E s := by
  obtain ⟨N, up, fp, own, hup, rfl, hfp, hfree, hdisj⟩ := h
  rw [wp_onVectors]
  refine wp_imp (wp_region_free laws hpages own hup address size) fun _ v' hb => ?_
  exact ⟨v', rfl, metadata_used hfp hfree hdisj hb⟩

theorem wp_find_used (laws : StoreLaws nodes Own)
    (hpages : PageLaws slab_alloc_locked slab_free_locked Own E) (h : Metadata Own s used free) (address : Word) :
    wp (onVectors (region_find_size_and_free nodes slab_free_locked s.heap_metadata_used address))
      (fun size s' => (size = 0 ∧ s' = s ∧ ∀ r ∈ used, r.address ≠ address) ∨
        ∃ r ∈ used, r.address = address ∧ size = r.size ∧ ∃ v', s' = { s with vectors := v' } ∧
          Metadata Own s' (used.erase r) free) E s := by
  obtain ⟨N, up, fp, own, hup, rfl, hfp, hfree, hdisj⟩ := h
  rw [wp_onVectors]
  refine wp_imp (wp_region_find_size_and_free laws hpages own hup address) ?_
  rintro size v' (⟨rfl, rfl, hall⟩ | ⟨r, hr, haddr, rfl, hb⟩)
  · exact .inl ⟨rfl, rfl, hall⟩
  · exact .inr ⟨r, hr, haddr, rfl, v', rfl, metadata_used hfp hfree hdisj hb⟩

end Metadata

/-! ## The invariant -/

/-- What holds between any two calls: the heap is intact, all of it is mapped, and no range has wrapped. The clients ask
for numbers of bytes with the property `P`. -/
structure HeapRules (P : Nat → Prop) (Own : σ → Nodes → Prop) (s : HeapState σ) (live : Multiset Block)
    (free : Multiset Region) : Prop extends HeapIntact Own s live free where
  mapped : ∀ x : Word, x.toNat ∈ heapBytes s → (s.mem x).isSome
  fits : s.heap.toNat + Heap_Size.toNat < 2 ^ 64
  sizes : ∀ b ∈ live, P b.bytes.toNat ∧ b.bytes.toNat + 16 < 2 ^ 64
  total : (live.map fun b => b.bytes.toNat + 16).sum + (free.map fun r => r.size.toNat).sum = Heap_Size.toNat

/-- No client asks for a block without bytes. -/
abbrev HeapInv (Own : σ → Nodes → Prop) (s : HeapState σ) (live : Multiset Block) (free : Multiset Region) : Prop :=
  HeapRules (0 < ·) Own s live free

section Invariant

variable {P : Nat → Prop} {Own : σ → Nodes → Prop} {live : Multiset Block} {free : Multiset Region}

theorem HeapRules.region_in_heap (h : HeapRules P Own s live free) {r : Region}
    (hr : r ∈ live.map Block.extent + free) (hpos : 0 < r.size.toNat) :
    s.heap.toNat ≤ r.address.toNat ∧ r.address.toNat + r.size.toNat ≤ s.heap.toNat + Heap_Size.toNat := by
  have hsub := h.tiles.subset hr
  have hfirst : r.address.toNat ∈ heapBytes s := hsub ⟨le_rfl, by omega⟩
  have hlast : r.address.toNat + r.size.toNat - 1 ∈ heapBytes s := hsub ⟨by omega, by omega⟩
  obtain ⟨h1, -⟩ := hfirst
  obtain ⟨-, h2⟩ := hlast
  omega

theorem extent_size {b : Block} (h : b.bytes.toNat + 16 < 2 ^ 64) : b.extent.size.toNat = b.bytes.toNat + 16 := by
  show (b.bytes + 2 * Heap_Red_Zone_Size).toNat = _
  rw [BitVec.toNat_add, show (2 * Heap_Red_Zone_Size).toNat = 16 from rfl]
  omega

theorem extent_address {b : Block} (h : b.extent.address.toNat + 8 < 2 ^ 64) :
    b.ptr.toNat = b.extent.address.toNat + 8 := by
  have hptr : b.ptr = b.extent.address + Heap_Red_Zone_Size := by
    show b.ptr = b.ptr - Heap_Red_Zone_Size + Heap_Red_Zone_Size
    rw [BitVec.sub_add_cancel]
  have := congrArg BitVec.toNat hptr
  rw [BitVec.toNat_add, show Heap_Red_Zone_Size.toNat = 8 from rfl] at this
  omega

/-- Where a live block and its red zones are. -/
theorem HeapRules.block (h : HeapRules P Own s live free) {b : Block} (hb : b ∈ live) :
    b.extent.size.toNat = b.bytes.toNat + 16 ∧ s.heap.toNat ≤ b.extent.address.toNat ∧
      b.extent.address.toNat + b.bytes.toNat + 16 ≤ s.heap.toNat + Heap_Size.toNat ∧
      b.ptr.toNat = b.extent.address.toNat + 8 := by
  have hext := extent_size (h.sizes b hb).2
  have hin := h.region_in_heap (r := b.extent) (Multiset.mem_add.mpr (.inl (Multiset.mem_map_of_mem _ hb))) (by omega)
  have hfits := h.fits
  exact ⟨hext, hin.1, by omega, extent_address (by omega)⟩

theorem HeapRules.client_subset (h : HeapRules P Own s live free) {b : Block} (hb : b ∈ live) :
    b.client ⊆ bytesOf b.extent := by
  obtain ⟨hsize, -, -, hptr⟩ := h.block hb
  rintro x ⟨h1, h2⟩
  show b.extent.address.toNat ≤ x ∧ x < b.extent.address.toNat + b.extent.size.toNat
  omega

/-- The bytes of a free range have the fill pattern. -/
theorem HeapRules.free_filled (h : HeapRules P Own s live free) {r : Region} (hr : r ∈ free) {x : Word}
    (hx : x.toNat ∈ bytesOf r) : s.mem x = some 0xcc := by
  have hmem : r ∈ live.map Block.extent + free := Multiset.mem_add.mpr (.inr hr)
  refine h.fill x (h.tiles.subset hmem hx) fun b hb hclient => ?_
  have htiles := h.tiles
  obtain ⟨rest, hrest⟩ := Multiset.exists_cons_of_mem hr
  rw [hrest, Multiset.add_cons] at htiles
  have hdisj := htiles.disjoint (b := b.extent)
    (Multiset.mem_add.mpr (.inl (Multiset.mem_map_of_mem _ hb)))
  exact Set.disjoint_left.mp hdisj hx (h.client_subset hb hclient)

/-! ## `kmalloc` -/

/-- The front of the free range `r` becomes a block. -/
theorem HeapRules.taken (h : HeapRules P Own s live free) {r : Region} (hr : r ∈ free) {bytes size : Word}
    (hbytes : P bytes.toNat ∧ bytes.toNat + 16 < 2 ^ 64) (hsize : size = bytes + 2 * Heap_Red_Zone_Size)
    (hlt : size < r.size) {v' : σ}
    (hmeta : Metadata Own { s with vectors := v' } (⟨r.address, size⟩ ::ₘ live.map Block.extent)
      (⟨r.address + size, r.size - size⟩ ::ₘ free.erase r)) :
    HeapRules P Own { s with vectors := v', Used := s.Used + size } (⟨r.address + Heap_Red_Zone_Size, bytes⟩ ::ₘ live)
      (⟨r.address + size, r.size - size⟩ ::ₘ free.erase r) := by
  have hsize' : size.toNat = bytes.toNat + 16 := by
    rw [hsize, BitVec.toNat_add, show (2 * Heap_Red_Zone_Size).toNat = 16 from rfl]
    omega
  have hlt' := hlt
  rw [BitVec.lt_def] at hlt'
  have hin := h.region_in_heap (Multiset.mem_add.mpr (.inr hr)) (by omega)
  have hfits := h.fits
  have hext : (⟨r.address + Heap_Red_Zone_Size, bytes⟩ : Block).extent = ⟨r.address, size⟩ := by
    rw [Block.extent, hsize, BitVec.add_sub_cancel]
  have hsub : (r.size - size).toNat = r.size.toNat - size.toNat :=
    BitVec.toNat_sub_of_le (by rw [BitVec.le_def]; omega)
  have htotal := h.total
  rw [← Multiset.cons_erase hr, Multiset.map_cons, Multiset.sum_cons] at htotal
  refine ⟨⟨?_, ?_, ?_, ?_⟩, h.mapped, h.fits, ?_, ?_⟩
  · rw [Multiset.map_cons, hext]
    exact hmeta
  · obtain ⟨hunion, hdisj⟩ := bytesOf_cut hlt (by omega)
    have htiles := h.tiles
    rw [← Multiset.cons_erase hr, Multiset.add_cons, tiles_cut hunion hdisj] at htiles
    rw [Multiset.map_cons, hext, Multiset.cons_add, Multiset.add_cons]
    exact htiles
  · intro x hx hall
    exact h.fill x hx fun b hb => hall b (Multiset.mem_cons_of_mem hb)
  · show (s.Used + size).toNat = _
    have husage := h.usage
    have hheap : Heap_Size.toNat = 65536 := rfl
    simp only [BitVec.toNat_add, Multiset.map_cons, Multiset.sum_cons, hsize', husage]
    omega
  · intro b hb
    rcases Multiset.mem_cons.mp hb with rfl | hb
    · exact hbytes
    · exact h.sizes b hb
  · simp only [Multiset.map_cons, Multiset.sum_cons, hsub]
    omega

theorem HeapRules.range_filled (h : HeapRules P Own s live free) {r : Region} (hr : r ∈ free) :
    Filled s r.address r.size.toNat := by
  intro k hk
  have hin := h.region_in_heap (Multiset.mem_add.mpr (.inr hr)) (by omega)
  have hfits := h.fits
  have hadd := add_ofNat_toNat (a := r.address) (k := k) (by omega)
  refine h.free_filled hr ?_
  show r.address.toNat ≤ _ ∧ _ < _
  rw [hadd]
  omega

section Kmalloc

variable {nodes : NodeStore σ} {slab_alloc_locked : Word → Word → Kernel σ Word}
  {slab_free_locked : Word → Word → Kernel σ Unit}

-- a block without bytes at the start of the heap fails the third assertion
theorem wp_takeBlock (laws : StoreLaws nodes Own) (hpages : PageLaws slab_alloc_locked slab_free_locked Own E)
    (h : HeapRules P Own s live free) {bytes size : Word} (hbytes : P bytes.toNat ∧ bytes.toNat + 16 < 2 ^ 64)
    (hpanic : bytes.toNat = 0 → E (.panic "kmalloc")) (hsize : size = bytes + 2 * Heap_Red_Zone_Size)
    {r : Region} (hr : r ∈ free) (hlt : size < r.size) {v₁ : σ}
    (hmeta₁ : Metadata Own { s with vectors := v₁ } (live.map Block.extent)
      (⟨r.address + size, r.size - size⟩ ::ₘ free.erase r)) :
    wp (takeBlock nodes slab_alloc_locked bytes size r.address)
      (fun p s' => p ≠ 0 ∧ ∃ free', HeapRules P Own s' (⟨p, bytes⟩ ::ₘ live) free') E { s with vectors := v₁ } := by
  unfold takeBlock
  rw [wp_bind, wp_get, wp_bind]
  refine wp_imp (wp_free_used laws hpages hmeta₁ _ _) ?_
  rintro _ s₂ ⟨v₂, hs₂, hmeta₂⟩
  have hheap : s₂.heap = s.heap := by rw [hs₂]
  have hinv := h.taken hr hbytes hsize hlt (hs₂ ▸ hmeta₂)
  have hsize' : size.toNat = bytes.toNat + 16 := by
    rw [hsize, BitVec.toNat_add, show (2 * Heap_Red_Zone_Size).toNat = 16 from rfl]
    omega
  rw [BitVec.lt_def, hsize'] at hlt
  obtain ⟨hlow, hhigh⟩ := h.region_in_heap (Multiset.mem_add.mpr (.inr hr)) (by omega)
  have hfits := h.fits
  have hend : (s.heap + Heap_Size).toNat = s.heap.toNat + Heap_Size.toNat := by
    rw [BitVec.toNat_add]; omega
  have hbytesEnd : (r.address + bytes).toNat = r.address.toNat + bytes.toNat := by
    rw [BitVec.toNat_add]; omega
  have hfill : Filled s₂ r.address (8 * (size.toNat / 8)) := by
    rw [hs₂]
    exact Filled.mono (h.range_filled hr) (by omega)
  rw [wp_bind, wp_checkFill hfill, wp_bind, wp_get, hheap,
    wp_bind, wp_assert_decide (by rw [BitVec.lt_def, hend]; omega),
    wp_bind, wp_assert_decide (by rw [ge_iff_le, BitVec.le_def]; exact hlow), wp_bind]
  refine wp_assert_or (fun hnot => hpanic ?_) ?_
  · rw [gt_iff_lt, BitVec.lt_def, hbytesEnd] at hnot
    omega
  rw [wp_bind, wp_assert_decide (by rw [BitVec.le_def, hbytesEnd, hend]; omega), wp_bind, wp_modify, wp_pure, hs₂]
  refine ⟨?_, _, hinv⟩
  intro h0
  have := congrArg BitVec.toNat h0
  rw [BitVec.toNat_add, show Heap_Red_Zone_Size.toNat = 8 from rfl, show (0 : Word).toNat = 0 from rfl] at this
  omega

theorem wp_kmalloc_any (laws : StoreLaws nodes Own) (hpages : PageLaws slab_alloc_locked slab_free_locked Own E)
    (h : HeapRules P Own s live free) {bytes : Word} (hbytes : P bytes.toNat ∧ bytes.toNat + 16 < 2 ^ 64)
    (hpanic : bytes.toNat = 0 → E (.panic "kmalloc")) :
    wp (kmalloc nodes slab_alloc_locked bytes)
      (fun p s' => (p = 0 ∧ s' = s) ∨ (p ≠ 0 ∧ ∃ free', HeapRules P Own s' (⟨p, bytes⟩ ::ₘ live) free')) E s := by
  unfold kmalloc
  simp only [wp_bind, wp_get]
  refine wp_imp (wp_alloc_free laws h.metadata _) ?_
  rintro _ s₁ (⟨rfl, rfl, -⟩ | ⟨r, hr, hlt, rfl, v₁, rfl, hmeta₁⟩)
  · exact (wp_pure ..).mpr (.inl ⟨rfl, rfl⟩)
  · exact wp_imp (wp_takeBlock laws hpages h hbytes hpanic rfl hr hlt hmeta₁) fun p s' hp => .inr hp

theorem wp_kmalloc (laws : StoreLaws nodes Own) (hpages : PageLaws slab_alloc_locked slab_free_locked Own E)
    (h : HeapInv Own s live free) {bytes : Word} (hbytes : 0 < bytes.toNat ∧ bytes.toNat + 16 < 2 ^ 64) :
    wp (kmalloc nodes slab_alloc_locked bytes)
      (fun p s' => (p = 0 ∧ s' = s) ∨ (p ≠ 0 ∧ ∃ free', HeapInv Own s' (⟨p, bytes⟩ ::ₘ live) free')) E s :=
  wp_kmalloc_any laws hpages h hbytes fun hzero => absurd hzero hbytes.1.ne'

end Kmalloc

/-! ## `kfree` of a live block -/

section Live

variable {b : Block}

theorem HeapRules.apart (h : HeapRules P Own s live free) (hb : b ∈ live) :
    (∀ b' ∈ live.erase b, Disjoint (bytesOf b.extent) (bytesOf b'.extent)) ∧
      ∀ r ∈ free, Disjoint (bytesOf b.extent) (bytesOf r) := by
  have htiles := h.tiles
  rw [← Multiset.cons_erase hb, Multiset.map_cons, Multiset.cons_add] at htiles
  refine ⟨fun b' hb' => htiles.disjoint ?_, fun r hr => htiles.disjoint ?_⟩
  · exact Multiset.mem_add.mpr (.inl (Multiset.mem_map_of_mem _ hb'))
  · exact Multiset.mem_add.mpr (.inr hr)

theorem HeapRules.ptr_ne (h : HeapRules P Own s live free) (hb : b ∈ live) {b' : Block} (hb' : b' ∈ live.erase b) :
    b'.ptr ≠ b.ptr := by
  intro hptr
  have haddr : b'.extent.address = b.extent.address := by
    show b'.ptr - _ = b.ptr - _
    rw [hptr]
  obtain ⟨hsize, -⟩ := h.block hb
  obtain ⟨hsize', -⟩ := h.block (Multiset.mem_of_mem_erase hb')
  have hin : b.extent.address.toNat ∈ bytesOf b.extent := ⟨le_rfl, by omega⟩
  have hin' : b'.extent.address.toNat ∈ bytesOf b'.extent := ⟨le_rfl, by omega⟩
  exact Set.disjoint_left.mp ((h.apart hb).1 b' hb') hin (haddr ▸ hin')

theorem HeapRules.filter_eq (h : HeapRules P Own s live free) (hb : b ∈ live) :
    live.filter (fun b' => b'.ptr ≠ b.ptr) = live.erase b := by
  conv_lhs => rw [← Multiset.cons_erase hb]
  rw [Multiset.filter_cons_of_neg _ (by simp), Multiset.filter_eq_self]
  exact fun b' hb' => h.ptr_ne hb hb'

theorem HeapRules.red_zone (h : HeapRules P Own s live free) (hb : b ∈ live) {x : Word}
    (hx : x.toNat ∈ bytesOf b.extent) (hclient : x.toNat ∉ b.client) : s.mem x = some 0xcc := by
  have hmem : b.extent ∈ live.map Block.extent + free := Multiset.mem_add.mpr (.inl (Multiset.mem_map_of_mem _ hb))
  refine h.fill x (h.tiles.subset hmem hx) fun b' hb' => ?_
  by_cases heq : b' = b
  · rw [heq]; exact hclient
  · have hb'' : b' ∈ live.erase b := (Multiset.mem_erase_of_ne heq).mpr hb'
    exact fun hx' => Set.disjoint_left.mp ((h.apart hb).1 b' hb'') hx (h.client_subset hb' hx')

theorem mem_filled (mem : Word → Option Byte) {r : Region} (hr : r.address.toNat + r.size.toNat < 2 ^ 64)
    (fill : Byte) (x : Word) :
    (x.toNat ∈ bytesOf r → filled mem r.address r.size.toNat fill x = some fill) ∧
      (x.toNat ∉ bytesOf r → filled mem r.address r.size.toNat fill x = mem x) := by
  have hxlt := x.isLt
  have halt := r.address.isLt
  have hsub : (x - r.address).toNat < r.size.toNat ↔ x.toNat ∈ bytesOf r := by
    show _ ↔ r.address.toNat ≤ x.toNat ∧ x.toNat < r.address.toNat + r.size.toNat
    rw [BitVec.toNat_sub]
    omega
  refine ⟨fun h => if_pos (hsub.mpr h), fun h => if_neg fun h' => h (hsub.mp h')⟩

/-- The block `b` is filled again and becomes a free range. -/
theorem HeapRules.given_back (h : HeapRules P Own s live free) (hb : b ∈ live) {v' : σ}
    (hmeta : Metadata Own { s with vectors := v' } ((live.erase b).map Block.extent) (b.extent ::ₘ free)) :
    HeapRules P Own
      { s with
        vectors := v'
        mem := filled s.mem b.extent.address b.extent.size.toNat 0xcc
        Used := s.Used - b.extent.size } (live.erase b) (b.extent ::ₘ free) := by
  obtain ⟨hsize, -, hhigh, -⟩ := h.block hb
  have hfits := h.fits
  have hmem := mem_filled s.mem (r := b.extent) (by omega) 0xcc
  have hsum : (live.map fun b => b.bytes.toNat + 16).sum =
      b.bytes.toNat + 16 + ((live.erase b).map fun b => b.bytes.toNat + 16).sum := by
    conv_lhs => rw [← Multiset.cons_erase hb, Multiset.map_cons, Multiset.sum_cons]
  refine ⟨⟨hmeta, ?_, ?_, ?_⟩, ?_, h.fits, ?_, ?_⟩
  · have htiles := h.tiles
    rwa [← Multiset.cons_erase hb, Multiset.map_cons, Multiset.cons_add, ← Multiset.add_cons] at htiles
  · intro x hx hall
    by_cases hin : x.toNat ∈ bytesOf b.extent
    · exact (hmem x).1 hin
    · refine ((hmem x).2 hin).trans (h.fill x hx fun b' hb' => ?_)
      by_cases heq : b' = b
      · rw [heq]
        exact fun hclient => hin (h.client_subset hb hclient)
      · exact hall b' ((Multiset.mem_erase_of_ne heq).mpr hb')
  · have husage := h.usage
    show (s.Used - b.extent.size).toNat = _
    rw [BitVec.toNat_sub_of_le (by rw [BitVec.le_def]; omega)]
    omega
  · intro x hx
    by_cases hin : x.toNat ∈ bytesOf b.extent
    · exact Option.isSome_iff_exists.mpr ⟨_, (hmem x).1 hin⟩
    · exact (congrArg Option.isSome ((hmem x).2 hin)).trans (h.mapped x hx)
  · exact fun b' hb' => h.sizes b' (Multiset.mem_of_mem_erase hb')
  · have htotal := h.total
    rw [Multiset.map_cons, Multiset.sum_cons]
    omega

end Live

end Invariant

end KernelOfTruth.Heap
