import KernelOfTruth.HeapRuns

/-! # Blocks that move to a larger place -/

open KernelOfTruth.Lib KernelOfTruth.Code KernelOfTruth.Spec KernelOfTruth.Rules KernelOfTruth.Strings KernelOfTruth.Regions
  KernelOfTruth.Heap KernelOfTruth.HeapRuns

namespace KernelOfTruth.Realloc

variable {σ : Type} {E F : Halt → Prop} {P : Nat → Prop}

/-! ## Copies -/

/-- Memory after a copy. Where the destination is not the source, the bytes are the old ones. -/
structure Copied (m m' : Memory) (n : Nat) (destination source : Word) : Prop where
  outside : ∀ x, ¬ Covers destination n x → m' x = m x
  bytes : ∀ i < n, ¬ Covers destination n (source + BitVec.ofNat 64 i) →
    m' (destination + BitVec.ofNat 64 i) = m (source + BitVec.ofNat 64 i)
  mapped : ∀ x, (m x).isSome → (m' x).isSome

theorem not_covers_succ {a x : Word} {n : Nat} (hn : n + 1 ≤ 2 ^ 64) (h : ¬ Covers a (n + 1) x) :
    x ≠ a ∧ ¬ Covers (a + 1) n x := by
  refine ⟨fun hx => h ?_, fun hx => h ?_⟩
  · rw [hx]
    exact (covers_iff hn).mpr ⟨0, by omega, by simp⟩
  · obtain ⟨i, hi, rfl⟩ := (covers_iff (by omega)).mp hx
    exact (covers_iff hn).mpr ⟨i + 1, by omega, next_address a i⟩

theorem copied_succ {m m' : Memory} {n : Nat} {d s : Word} {b : Byte} (hn : n + 1 < 2 ^ 64) (hb : m s = some b)
    (h : Copied (Function.update m d (some b)) m' n (d + 1) (s + 1)) : Copied m m' (n + 1) d s := by
  refine ⟨fun x hx => ?_, fun i hi hx => ?_, fun x hx => h.mapped x ?_⟩
  · obtain ⟨hne, hrest⟩ := not_covers_succ hn.le hx
    rw [h.outside x hrest, Function.update_of_ne hne]
  · cases i with
    | zero =>
      have hfirst : m' d = some b := by rw [h.outside d (not_covers_next (by omega)), Function.update_self]
      simpa [hb] using hfirst
    | succ i =>
      obtain ⟨hne, hrest⟩ := not_covers_succ hn.le hx
      rw [← next_address] at hne hrest ⊢
      rw [← next_address, h.bytes i (by omega) hrest, Function.update_of_ne hne]
  · by_cases hxd : x = d
    · rw [hxd, Function.update_self]
      rfl
    · rw [Function.update_of_ne hxd]
      exact hx

theorem wp_memcpy {m : Memory} {n : Nat} {d s : Word} (hn : n < 2 ^ 64) (hd : Mapped m d n) (hs : Mapped m s n) :
    wp (Memory.memcpy n d s) (fun _ m' => Copied m m' n d s) E m := by
  induction n generalizing m d s with
  | zero => exact (wp_pure ..).mpr ⟨fun _ _ => rfl, fun i hi => absurd hi (Nat.not_lt_zero i), fun _ hx => hx⟩
  | succ n ih =>
    obtain ⟨hd0, hd⟩ := mapped_succ.mp hd
    obtain ⟨hs0, hs⟩ := mapped_succ.mp hs
    obtain ⟨b, hb⟩ := Option.isSome_iff_exists.mp hs0
    have hbyte : byteAt m s = b := by rw [byteAt, hb, Option.getD_some]
    unfold Memory.memcpy
    rw [wp_bind, Strings.wp_loadByte, guarded_of hs0, hbyte, wp_bind, wp_storeByte, guarded_of hd0]
    have hkeeps : ∀ {a : Word}, Mapped m a n → Mapped (Function.update m d (some b)) a n := by
      intro a ha i hi
      rw [Function.update_apply]
      split
      · rfl
      · exact ha i hi
    exact wp_imp (ih (by omega) (hkeeps hd) (hkeeps hs)) fun _ m' h => copied_succ hn hb h

/-! ## Blocks as ranges of words -/

section Blocks

variable {Own : σ → Nodes → Prop} {s : HeapState σ} {live : Multiset Block} {free : Multiset Region} {b b' : Block}

theorem mem_client_iff (h : HeapRules P Own s live free) (hb : b ∈ live) {x : Word} :
    x.toNat ∈ b.client ↔ Covers b.ptr b.bytes.toNat x := by
  obtain ⟨-, hlow, hhigh, hptr⟩ := h.block hb
  have hfits := h.fits
  have hxlt := x.isLt
  show b.ptr.toNat ≤ x.toNat ∧ x.toNat < b.ptr.toNat + b.bytes.toNat ↔ (x - b.ptr).toNat < b.bytes.toNat
  rw [BitVec.toNat_sub]
  omega

theorem mem_heap_of_covers (h : HeapRules P Own s live free) (hb : b ∈ live) {x : Word} (hx : Covers b.ptr b.bytes.toNat x) :
    x.toNat ∈ heapBytes s :=
  h.tiles.subset (Multiset.mem_add.mpr (.inl (Multiset.mem_map_of_mem _ hb)))
    (h.client_subset hb ((mem_client_iff h hb).mpr hx))

theorem mapped_block (h : HeapRules P Own s live free) (hb : b ∈ live) : Mapped s.mem b.ptr b.bytes.toNat := fun i hi =>
  h.mapped _ (mem_heap_of_covers h hb ((covers_iff b.bytes.isLt.le).mpr ⟨i, hi, rfl⟩))

theorem blocks_apart (h : HeapRules P Own s live free) (hb : b ∈ live) (hb' : b' ∈ live) (hne : b'.ptr ≠ b.ptr) {x : Word}
    (hx : Covers b.ptr b.bytes.toNat x) : ¬ Covers b'.ptr b'.bytes.toNat x := by
  intro hx'
  have herase : b' ∈ live.erase b := (Multiset.mem_erase_of_ne fun heq => hne (congrArg Block.ptr heq)).mpr hb'
  exact Set.disjoint_left.mp ((h.apart hb).1 b' herase) (h.client_subset hb ((mem_client_iff h hb).mpr hx))
    (h.client_subset hb' ((mem_client_iff h hb').mpr hx'))

/-- A block that is new is not at the place of another one. -/
theorem new_ptr_ne {new : Block} (h : HeapRules P Own s (new ::ₘ live) free) (hb : b ∈ live) : b.ptr ≠ new.ptr := by
  have herase : b ∈ (new ::ₘ live).erase new := by rwa [Multiset.erase_cons_head]
  exact h.ptr_ne (Multiset.mem_cons_self new live) herase

theorem ptr_ne_zero (h : HeapRules P Own s live free) (hb : b ∈ live) : b.ptr ≠ 0 := by
  obtain ⟨-, -, -, hptr⟩ := h.block hb
  intro h0
  rw [h0, show (0 : Word).toNat = 0 from rfl] at hptr
  omega

/-- A live block is inside of the heap. -/
theorem bytes_le (h : HeapRules P Own s live free) (hb : b ∈ live) : b.bytes.toNat + 16 ≤ Heap_Size.toNat := by
  obtain ⟨-, hlow, hhigh, -⟩ := h.block hb
  omega

/-- The owner of a block writes to it. -/
theorem write_block (h : HeapRules P Own s live free) (hb : b ∈ live) {mem' : Memory}
    (hmapped : ∀ x, (s.mem x).isSome → (mem' x).isSome) (hout : ∀ x, ¬ Covers b.ptr b.bytes.toNat x → mem' x = s.mem x) :
    HeapRules P Own { s with mem := mem' } live free := by
  refine write_inv h fun x hx => ⟨hmapped x (h.mapped x hx), fun hall => hout x fun hcovers => ?_⟩
  exact hall b hb ((mem_client_iff h hb).mpr hcovers)

end Blocks

/-! ## `krealloc` -/

section Krealloc

variable {nodes : NodeStore σ} {Own : σ → Nodes → Prop} {slab_alloc_locked : Word → Word → Kernel σ Word}
  {slab_free_locked : Word → Word → Kernel σ Unit} {s s' : HeapState σ} {live : Multiset Block} {free : Multiset Region}
  {b : Block} {p size : Word}

/-- No byte is written by `kmalloc`, and a block is counted with its red zones. -/
theorem kmalloc_frame (hrun : (kmalloc nodes slab_alloc_locked size).run s = .ok (p, s')) :
    s'.mem = s.mem ∧ s'.heap = s.heap ∧ (p ≠ 0 → s'.Used = s.Used + (size + 2 * Heap_Red_Zone_Size)) := by
  have hkeeps : wp (kmalloc nodes slab_alloc_locked size) (fun p s' => s'.mem = s.mem ∧ s'.heap = s.heap ∧
      (p ≠ 0 → s'.Used = s.Used + (size + 2 * Heap_Red_Zone_Size))) (fun _ => True) s := by
    unfold kmalloc
    rw [wp_bind, wp_get, wp_bind, wp_onVectors]
    refine wp_any (fun r v => ?_) fun _ => trivial
    cases r with
    | error _ => exact (wp_pure ..).mpr ⟨rfl, rfl, fun hp => absurd rfl hp⟩
    | ok address =>
      unfold takeBlock
      rw [wp_bind, wp_get, wp_bind, wp_onVectors]
      refine wp_any (fun _ v' => ?_) fun _ => trivial
      rw [wp_bind]
      refine wp_imp ((readOnly_checkFill ..).keeps _) ?_
      rintro _ _ rfl
      rw [wp_bind, wp_get]
      iterate 4
        rw [wp_bind]
        refine wp_assert_partial ?_
      rw [wp_bind, wp_modify, wp_pure]
      exact ⟨rfl, rfl, fun _ => rfl⟩
  have hframe := wp_ok hkeeps hrun
  exact hframe

/-- The state after `krealloc` of a block: there is one more block, and it starts with the bytes of the old one. -/
structure Moved (Own : σ → Nodes → Prop) (s s' : HeapState σ) (live : Multiset Block) (b : Block) (p size : Word) : Prop where
  heap : ∃ free', HeapInv Own s' (⟨p, size⟩ ::ₘ live) free'
  outside : ∀ x, ¬ Covers p size.toNat x → s'.mem x = s.mem x
  bytes : ∀ i < b.bytes.toNat, i < size.toNat → s'.mem (p + BitVec.ofNat 64 i) = s.mem (b.ptr + BitVec.ofNat 64 i)

theorem wp_krealloc (laws : StoreLaws nodes Own) (hpages : PageLaws slab_alloc_locked slab_free_locked Own F)
    (h : HeapInv Own s live free) (hb : b ∈ live) (hsize : 0 < size.toNat ∧ size.toNat + 16 < 2 ^ 64)
    (hrun : (kmalloc nodes slab_alloc_locked size).run s = .ok (p, s')) (hp : p ≠ 0)
    (hmapped : Mapped s.mem b.ptr size.toNat) :
    wp (krealloc nodes slab_alloc_locked b.ptr size) (fun q t => q = p ∧ Moved Own s t live b p size) E s := by
  obtain ⟨free', h'⟩ := kmalloc_inv laws hpages h hsize hrun
  rw [if_neg hp] at h'
  have hnew : (⟨p, size⟩ : Block) ∈ (⟨p, size⟩ : Block) ::ₘ live := Multiset.mem_cons_self _ _
  have hmem := (kmalloc_frame hrun).1
  rw [← hmem] at hmapped
  unfold krealloc
  rw [if_neg (ptr_ne_zero h hb), wp_bind, wp_of_run hrun, if_neg hp, wp_bind, onMem, wp_zoom]
  refine wp_imp (wp_memcpy (by omega) (mapped_block h' hnew) hmapped) fun _ m' hcopied => ?_
  rw [wp_pure]
  refine ⟨rfl, ⟨free', write_block h' hnew hcopied.mapped hcopied.outside⟩, ?_, ?_⟩
  · intro x hx
    rw [← hmem]
    exact hcopied.outside x hx
  · intro i hi hlt
    rw [← hmem]
    refine hcopied.bytes i hlt ?_
    have hold : b ∈ (⟨p, size⟩ : Block) ::ₘ live := Multiset.mem_cons_of_mem hb
    exact blocks_apart h' hold hnew (new_ptr_ne h' hb).symm ((covers_iff b.bytes.isLt.le).mpr ⟨i, hi, rfl⟩)

end Krealloc

/-! ## `kcalloc` -/

section Kcalloc

variable {nodes : NodeStore σ} {Own : σ → Nodes → Prop} {slab_alloc_locked : Word → Word → Kernel σ Word}
  {slab_free_locked : Word → Word → Kernel σ Unit} {s : HeapState σ} {live : Multiset Block} {free : Multiset Region}
  {count size : Word}

theorem wp_kcalloc (laws : StoreLaws nodes Own) (hpages : PageLaws slab_alloc_locked slab_free_locked Own F)
    (h : HeapRules P Own s live free) (hsize : P (count * size).toNat ∧ (count * size).toNat + 16 < 2 ^ 64) :
    wp (kcalloc nodes slab_alloc_locked count size) (fun p s' => (p = 0 ∧ s' = s) ∨ (p ≠ 0 ∧
      (∃ free', HeapRules P Own s' (⟨p, count * size⟩ ::ₘ live) free') ∧
        ∀ x, Covers p (count * size).toNat x → s'.mem x = some 0)) (fun _ => True) s := by
  unfold kcalloc
  rw [wp_bind]
  refine wp_imp (wp_kmalloc_any laws (pageLaws_true hpages) h hsize fun _ => trivial) ?_
  rintro p s' (⟨rfl, rfl⟩ | ⟨hp, free', h'⟩)
  · exact (wp_pure ..).mpr (.inl ⟨rfl, rfl⟩)
  have hnew : (⟨p, count * size⟩ : Block) ∈ (⟨p, count * size⟩ : Block) ::ₘ live := Multiset.mem_cons_self _ _
  rw [if_neg hp, wp_bind, Heap.wp_memset (mapped_block h' hnew), wp_pure]
  refine .inr ⟨hp, ⟨free', write_block h' hnew ?_ fun x hx => filled_of_not_covers hx⟩, fun x hx => if_pos hx⟩
  intro x hx
  unfold filled
  split
  · rfl
  · exact hx

end Kcalloc

/-! ## A block that others leave alone -/

section Stays

variable {nodes : NodeStore σ} {Own : σ → Nodes → Prop} {slab_alloc_locked : Word → Word → Kernel σ Word}
  {slab_free_locked : Word → Word → Kernel σ Unit} {s s' : HeapState σ} {live : Multiset Block} {free : Multiset Region}
  {b : Block} {p size : Word}

/-- The heap is in order, and the block is still there with the same bytes. -/
def Stays (Own : σ → Nodes → Prop) (b : Block) (s s' : HeapState σ) : Prop :=
  ∃ live free, HeapInv Own s' live free ∧ b ∈ live ∧ ∀ x, Covers b.ptr b.bytes.toNat x → s'.mem x = s.mem x

/-- A function of the kernel that keeps the heap in order and leaves the block alone. -/
def Leaves (Own : σ → Nodes → Prop) (b : Block) {α : Type} (q : Kernel (HeapState σ) α) : Prop :=
  ∀ s live free, HeapInv Own s live free → b ∈ live → wp q (fun _ s' => Stays Own b s s') (fun _ => True) s

theorem leaves_pure {α : Type} (a : α) : Leaves Own b (pure a : Kernel (HeapState σ) α) :=
  fun _ live free h hb => (wp_pure ..).mpr ⟨live, free, h, hb, fun _ _ => rfl⟩

theorem leaves_kmalloc (laws : StoreLaws nodes Own) (hpages : PageLaws slab_alloc_locked slab_free_locked Own F)
    (hsize : 0 < size.toNat ∧ size.toNat + 16 < 2 ^ 64) : Leaves Own b (kmalloc nodes slab_alloc_locked size) := by
  intro s live free h hb
  refine wp_partial.mpr fun p s' hrun => ?_
  obtain ⟨free', h'⟩ := kmalloc_inv laws hpages h hsize hrun
  have hmem := (kmalloc_frame hrun).1
  split at h'
  · exact ⟨_, _, h', hb, fun x _ => by rw [hmem]⟩
  · exact ⟨_, _, h', Multiset.mem_cons_of_mem hb, fun x _ => by rw [hmem]⟩

theorem leaves_kfree (laws : StoreLaws nodes Own) (hpages : PageLaws slab_alloc_locked slab_free_locked Own F)
    (hp : p ≠ b.ptr) : Leaves Own b (kfree nodes slab_alloc_locked slab_free_locked p) := by
  intro s live free h hb
  by_cases hlive : ∃ b' ∈ live, b'.ptr = p
  · obtain ⟨b', hb', rfl⟩ := hlive
    refine wp_imp (wp_kfree_live laws (pageLaws_true hpages) h hb') ?_
    rintro _ s' ⟨h', hmem⟩
    have herase : b ∈ live.erase b' := (Multiset.mem_erase_of_ne fun heq => hp (congrArg Block.ptr heq).symm).mpr hb
    refine ⟨_, _, h', herase, fun x hx => hmem x ?_⟩
    exact Set.disjoint_right.mp ((h.apart hb').1 b herase) (h.client_subset hb ((mem_client_iff h hb).mpr hx))
  · refine wp_imp (wp_kfree_dead laws hpages h fun b' hb' hptr => hlive ⟨b', hb', hptr⟩) ?_
    rintro _ s' ⟨-, hmem, free', -, h'⟩
    exact ⟨_, _, h', hb, fun x _ => by rw [hmem]⟩

theorem Stays.trans {s'' : HeapState σ} (h : Stays Own b s s') (h' : Stays Own b s' s'') : Stays Own b s s'' := by
  obtain ⟨-, -, -, -, hbytes⟩ := h
  obtain ⟨live, free, hheap, hb, hbytes'⟩ := h'
  exact ⟨live, free, hheap, hb, fun x hx => (hbytes' x hx).trans (hbytes x hx)⟩

theorem wp_leaves {α : Type} {q : Kernel (HeapState σ) α} {s₀ : HeapState σ} (hq : Leaves Own b q)
    (h : Stays Own b s₀ s) : wp q (fun _ s' => Stays Own b s₀ s') (fun _ => True) s := by
  obtain ⟨live, free, hheap, hb, -⟩ := id h
  exact wp_imp (hq s live free hheap hb) fun _ _ h' => h.trans h'

end Stays

/-! ## A heap with one block -/

/-- The heap is at `0x100000`, and each of its vectors has one node. -/
def heapWith (used free : RegionVector) (Used : Word) : HeapState PageMemory where
  vectors := ⟨fun a => if a = 0x1000 then used else free, []⟩
  mem := filled (fun _ => none) 0x100000 Heap_Size.toNat 0xcc
  heap_metadata_used := 0x1000
  heap_metadata_free := 0x2000
  heap := 0x100000
  Used := Used

/-- A node with the only range of its vector. -/
def oneRange (r : Region) : RegionVector := ⟨1, 0, fun _ => r⟩

theorem held_oneRange (r : Region) : held (oneRange r) = {r} := by simp [held, bag, oneRange]

theorem heapWith_metadata (used free : RegionVector) (hused : used.next = 0 ∧ used.regions_used ≤ regions_count)
    (hfree : free.next = 0 ∧ free.regions_used ≤ regions_count) (Used : Word) :
    Metadata PageMemory.Own (heapWith used free Used) (held used) (held free) := by
  let N : Nodes := fun a => if a = 0x1000 then some used else if a = 0x2000 then some free else none
  have hnode : ∀ {v : RegionVector} {p : Word}, N p = some v → p ≠ 0 → v.next = 0 ∧ v.regions_used ≤ regions_count →
      IsVector N p [p] ∧ ranges N [p] = held v := by
    intro v p hv hp hok
    refine ⟨⟨⟨rfl, hp, v, hv, hok.1⟩, List.cons_ne_nil _ _, List.nodup_singleton p, fun a ha w hw => ?_⟩, ?_⟩
    · rw [List.mem_singleton.mp ha, hv] at hw
      cases hw
      exact hok.2
    · simp [contents, hv]
  obtain ⟨hup, hup'⟩ := hnode (v := used) (p := 0x1000) rfl (by decide) hused
  obtain ⟨hfp, hfp'⟩ := hnode (v := free) (p := 0x2000) rfl (by decide) hfree
  refine ⟨N, [0x1000], [0x2000], ⟨fun a v hv => ?_, List.nodup_nil, fun p hp => absurd hp List.not_mem_nil, rfl⟩,
    hup, hup', hfp, hfp', by simp⟩
  simp only [N] at hv
  show (if a = 0x1000 then used else free) = v
  split at hv
  · rw [if_pos (by assumption)]
    exact Option.some_inj.mp hv
  · rw [if_neg (by assumption)]
    split at hv
    · exact Option.some_inj.mp hv
    · cases hv

/-- A block of so many bytes at the start of the heap. -/
def heapOfBlock (bytes : Word) : HeapState PageMemory :=
  heapWith (oneRange ⟨0x100000, bytes + 16⟩) (oneRange ⟨0x100000 + (bytes + 16), Heap_Size - (bytes + 16)⟩) (bytes + 16)

theorem heapOfBlock_inv {bytes : Word} (hbytes : 0 < bytes.toNat ∧ bytes.toNat + 16 < Heap_Size.toNat) :
    HeapInv PageMemory.Own (heapOfBlock bytes) {⟨0x100008, bytes⟩}
      {⟨0x100000 + (bytes + 16), Heap_Size - (bytes + 16)⟩} := by
  have hsize : Heap_Size.toNat = 65536 := rfl
  let fresh : HeapState PageMemory := heapWith ⟨0, 0, fun _ => ⟨0, 0⟩⟩ (oneRange ⟨0x100000, Heap_Size⟩) 0
  have hfresh := heapWith_metadata ⟨0, 0, fun _ => ⟨0, 0⟩⟩ (oneRange ⟨0x100000, Heap_Size⟩) (by decide) (by decide) 0
  have hmeta := heapWith_metadata (oneRange ⟨0x100000, bytes + 16⟩)
    (oneRange ⟨0x100000 + (bytes + 16), Heap_Size - (bytes + 16)⟩) ⟨rfl, Nat.le_of_ble_eq_true rfl⟩
    ⟨rfl, Nat.le_of_ble_eq_true rfl⟩ 0
  rw [held_oneRange] at hfresh
  rw [held_oneRange, held_oneRange] at hmeta
  have hinv : HeapInv PageMemory.Own fresh 0 {⟨0x100000, Heap_Size⟩} := fresh_inv hfresh (by decide) rfl fun _ => none
  have hnone : ({⟨0x100000, Heap_Size⟩} : Multiset Region).erase ⟨0x100000, Heap_Size⟩ = 0 := Multiset.erase_cons_head _ 0
  have hcut : Metadata PageMemory.Own { fresh with vectors := (heapOfBlock bytes).vectors } {⟨0x100000, bytes + 16⟩}
      (⟨0x100000 + (bytes + 16), Heap_Size - (bytes + 16)⟩ ::ₘ
        ({⟨0x100000, Heap_Size⟩} : Multiset Region).erase ⟨0x100000, Heap_Size⟩) := by
    rw [hnone]
    exact hmeta
  have hlt : bytes + 16 < Heap_Size := by
    rw [BitVec.lt_def, BitVec.toNat_add, show (16 : Word).toNat = 16 from rfl]
    omega
  have htaken := hinv.taken (Multiset.mem_singleton_self _) ⟨hbytes.1, by omega⟩ rfl hlt hcut
  rw [hnone, show fresh.Used + (bytes + 2 * Heap_Red_Zone_Size) = bytes + 16 from BitVec.zero_add _] at htaken
  exact htaken

/-- A block of 80 bytes. -/
def oneBlockHeap : HeapState PageMemory := heapWith (oneRange ⟨0x100000, 96⟩) (oneRange ⟨0x100060, 0xffa0⟩) 96

theorem oneBlockHeap_inv : HeapInv PageMemory.Own oneBlockHeap {⟨0x100008, 80⟩} {⟨0x100060, 0xffa0⟩} :=
  heapOfBlock_inv (by decide : 0 < (80 : Word).toNat ∧ (80 : Word).toNat + 16 < Heap_Size.toNat)

end KernelOfTruth.Realloc
