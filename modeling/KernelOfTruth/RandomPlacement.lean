import KernelOfTruth.RegionVector

/-!
# Where `region_alloc_random` works

A random address comes upon a range, or upon its end. The room behind it may be too small: then the code wants to try
another address but reads `next` through a null pointer first. And where it takes the middle of a range, it keeps the
wrong part: the two branches for a missing prefix and for a prefix are exchanged.
-/

open KernelOfTruth.Lib KernelOfTruth.Code KernelOfTruth.Spec KernelOfTruth.Regions

namespace KernelOfTruth.RandomPlacement

/-! ## Ranges -/

section Ranges

variable {r : Region} {addr size : Word}

/-- The address is in the range or at its end, and no sum wraps. -/
theorem has_bounds (hfits : r.address.toNat + r.size.toNat ≤ 2 ^ 64) (h : r.has addr) :
    r.address.toNat ≤ addr.toNat ∧ addr.toNat ≤ r.address.toNat + r.size.toNat ∧
      (r.size - (addr - r.address)).toNat = r.address.toNat + r.size.toNat - addr.toNat := by
  simp only [Region.has, Bool.and_eq_true, decide_eq_true_eq, ge_iff_le, bne_iff_ne, BitVec.le_def] at h
  obtain ⟨⟨hle, hend⟩, hne⟩ := h
  have hpos : r.address.toNat ≠ 0 := fun h0 => hne (BitVec.eq_of_toNat_eq h0)
  rw [BitVec.toNat_add] at hend
  have hsum : r.address.toNat + r.size.toNat < 2 ^ 64 := by
    rcases Nat.lt_or_eq_of_le hfits with hlt | heq
    · exact hlt
    · rw [heq, Nat.mod_self] at hend
      omega
  rw [Nat.mod_eq_of_lt hsum] at hend
  have hprefix : (addr - r.address).toNat = addr.toNat - r.address.toNat := BitVec.toNat_sub_of_le hle
  refine ⟨hle, hend, ?_⟩
  rw [BitVec.toNat_sub_of_le (by rw [BitVec.le_def]; omega), hprefix]
  omega

/-- The end of a range is taken. -/
theorem bytesOf_back (hfits : r.address.toNat + r.size.toNat ≤ 2 ^ 64) (h : r.has addr)
    (hend : size = r.size - (addr - r.address)) :
    bytesOf r = bytesOf ⟨addr, size⟩ ∪ bytesOf ⟨r.address, r.size - size⟩ ∧
      Disjoint (bytesOf ⟨addr, size⟩) (bytesOf ⟨r.address, r.size - size⟩) := by
  obtain ⟨h1, h2, h3⟩ := has_bounds hfits h
  rw [← hend] at h3
  have hsub : (r.size - size).toNat = r.size.toNat - size.toNat :=
    BitVec.toNat_sub_of_le (by rw [BitVec.le_def]; omega)
  constructor
  · ext x
    simp only [bytesOf, Set.mem_ofPred_eq, Set.mem_union, hsub]
    omega
  · rw [Set.disjoint_left]
    rintro x ⟨hx1, -⟩ ⟨-, hx2⟩
    simp only [hsub] at hx1 hx2
    omega

theorem bytesOf_inside (hfits : r.address.toNat + r.size.toNat ≤ 2 ^ 64) (h : r.has addr)
    (hle : size ≤ r.size - (addr - r.address)) : bytesOf ⟨addr, size⟩ ⊆ bytesOf r := by
  obtain ⟨h1, h2, h3⟩ := has_bounds hfits h
  rw [BitVec.le_def] at hle
  rintro x ⟨hx1, hx2⟩
  refine ⟨?_, ?_⟩ <;> simp only at hx1 hx2 <;> omega

section Tiling

variable {M : Multiset Region} (hM : Apart bytesOf M) (hr : r ∈ M) (hfits : r.address.toNat + r.size.toNat ≤ 2 ^ 64)
  (h : r.has addr)
include hM hr hfits h

theorem tiles_back (hend : size = r.size - (addr - r.address)) :
    Tiles bytesOf (⟨r.address, r.size - size⟩ ::ₘ M.erase r) (freeBytes M \ bytesOf ⟨addr, size⟩) := by
  obtain ⟨hunion, hdisj⟩ := bytesOf_back hfits h hend
  have htiles : Tiles bytesOf M (freeBytes M) := ⟨hM, fun _ => Iff.rfl⟩
  nth_rewrite 1 [← Multiset.cons_erase hr] at htiles
  exact ((tiles_cut hunion hdisj).mp htiles).remove

/-- The start of a range is taken. What is left of the range itself is empty. -/
theorem tiles_front (haddr : addr = r.address) (hlt : size < r.size) :
    Tiles bytesOf (⟨addr + size, r.size - (addr - r.address) - size⟩ ::ₘ ⟨r.address, addr - r.address⟩ ::ₘ M.erase r)
      (freeBytes M \ bytesOf ⟨addr, size⟩) := by
  subst haddr
  rw [BitVec.sub_self, BitVec.sub_zero, Multiset.cons_swap]
  have hempty : bytesOf ⟨r.address, 0#64⟩ = ∅ := by
    ext x
    simp [bytesOf]
  rw [tiles_empty hempty]
  obtain ⟨hunion, hdisj⟩ := bytesOf_cut hlt hfits
  have htiles : Tiles bytesOf M (freeBytes M) := ⟨hM, fun _ => Iff.rfl⟩
  nth_rewrite 1 [← Multiset.cons_erase hr] at htiles
  exact ((tiles_cut hunion hdisj).mp htiles).remove

/-- The code keeps the wrong part of the range: the first address is lost. -/
theorem not_tiles_middle (haddr : addr ≠ r.address) (hle : size ≤ r.size - (addr - r.address)) (hsize : size ≠ 0)
    {suffix_size : Word} : ¬ Tiles bytesOf (⟨r.address + size, suffix_size⟩ ::ₘ M.erase r)
      (freeBytes M \ bytesOf ⟨addr, size⟩) := by
  intro htiles
  obtain ⟨h1, h2, h3⟩ := has_bounds hfits h
  rw [BitVec.le_def] at hle
  have hpos : size.toNat ≠ 0 := fun h0 => hsize (BitVec.eq_of_toNat_eq h0)
  have hlt : r.address.toNat ≠ addr.toNat := fun heq => haddr (BitVec.eq_of_toNat_eq heq.symm)
  have hadd : (r.address + size).toNat = r.address.toNat + size.toNat := by
    rw [BitVec.toNat_add]
    omega
  have hfirst : r.address.toNat ∈ bytesOf r := ⟨le_rfl, by omega⟩
  have hkept : r.address.toNat ∈ freeBytes M \ bytesOf ⟨addr, size⟩ := by
    refine ⟨⟨r, hr, hfirst⟩, ?_⟩
    rintro ⟨hle', -⟩
    simp only at hle'
    omega
  obtain ⟨r', hr', hin⟩ := (htiles.cover _).mp hkept
  rcases Multiset.mem_cons.mp hr' with rfl | hr'
  · obtain ⟨hle', -⟩ := hin
    simp only [hadd] at hle'
    omega
  · rw [← Multiset.cons_erase hr, apart_cons] at hM
    exact Set.disjoint_left.mp (hM.1 r' hr') hfirst hin

end Tiling

end Ranges

/-! ## What is left of a node -/

section Node

variable {v : RegionVector} {i : Nat} {addr size : Word}

theorem sub_eq_zero_word {a b : Word} : a - b = 0 ↔ b = a := by
  constructor
  · intro h
    rw [← BitVec.sub_add_cancel a b, h]
    exact (BitVec.zero_add b).symm
  · rintro rfl
    exact BitVec.sub_self _

theorem takeAt_back (h : size = (v.regions i).size - (addr - (v.regions i).address)) :
    v.takeAt i addr size = (v.set i ⟨(v.regions i).address, (v.regions i).size - size⟩, none) := by
  unfold RegionVector.takeAt
  exact if_pos (sub_eq_zero_word.mpr h)

theorem takeAt_middle (h : size ≠ (v.regions i).size - (addr - (v.regions i).address)) (haddr : addr ≠ (v.regions i).address) :
    v.takeAt i addr size = (v.set i ⟨(v.regions i).address + size,
      (v.regions i).size - (addr - (v.regions i).address) - size⟩, none) := by
  unfold RegionVector.takeAt
  rw [if_neg fun h0 => h (sub_eq_zero_word.mp h0), if_pos haddr]

theorem takeAt_front (h : size ≠ (v.regions i).size - (addr - (v.regions i).address)) (haddr : addr = (v.regions i).address) :
    v.takeAt i addr size = (v.set i ⟨(v.regions i).address, addr - (v.regions i).address⟩,
      some ⟨addr + size, (v.regions i).size - (addr - (v.regions i).address) - size⟩) := by
  unfold RegionVector.takeAt
  rw [if_neg fun h0 => h (sub_eq_zero_word.mp h0), if_neg (not_not.mpr haddr)]

end Node

/-! ## One address -/

section Vector

variable {σ : Type} {nodes : NodeStore σ} {Own : σ → Nodes → Prop} {E : Halt → Prop} {s : σ} {N : Nodes}
  {slab_alloc_locked : Word → Word → Kernel σ Word} {slab_free_locked : Word → Word → Kernel σ Unit}
  {vect addr size : Word} {pages : List Word}

/-- What is left of a node is stored, and a suffix becomes a range of its own. -/
def place (nodes : NodeStore σ) (slab_alloc_locked : Word → Word → Kernel σ Word) (vect cur : Word)
    (rest : RegionVector × Option Region) : Kernel σ Bool := do
  nodes.write cur rest.1
  match rest.2 with
  | none => pure true
  | some s => do
    region_free nodes slab_alloc_locked vect s.address s.size
    pure true

theorem wp_place {rest : RegionVector × Option Region} {cur : Word} {Q : Bool → σ → Prop} :
    wp (place nodes slab_alloc_locked vect cur rest) Q E s ↔
      wp (place nodes slab_alloc_locked vect cur rest) (fun _ s' => Q true s') E s := by
  unfold place
  cases rest.2 <;> simp

/-- The loop stops at the first range that the address comes upon. -/
theorem wp_regionRandomLoop (laws : StoreLaws nodes Own) (hnull : (nodes.read 0).run s = .error .page_fault)
    (own : Own s N) {Q : Bool → σ → Prop} {cur : Word} {as : List Word} {fuel : Nat}
    (hseg : Segment RegionVector.next 0 N cur as 0) (hne : as ≠ [])
    (hused : ∀ a ∈ as, ∀ v, N a = some v → v.regions_used ≤ regions_count) (hfuel : as.length ≤ fuel) :
    ((inOrder N as).find? (fun r => r.has addr) = none ∧
      (wp (regionRandomLoop nodes slab_alloc_locked vect addr size fuel cur) Q E s ↔ Q false s)) ∨
    ∃ a ∈ as, ∃ v i, N a = some v ∧ i < v.regions_used ∧
      (inOrder N as).find? (fun r => r.has addr) = some (v.regions i) ∧
      (wp (regionRandomLoop nodes slab_alloc_locked vect addr size fuel cur) Q E s ↔
        if (v.regions i).size - (addr - (v.regions i).address) < size then E .page_fault
        else wp (place nodes slab_alloc_locked vect a (v.takeAt i addr size)) Q E s) := by
  induction as generalizing cur fuel with
  | nil => exact (hne rfl).elim
  | cons a as ih =>
    obtain ⟨rfl, -, v, hv, hrest⟩ := hseg
    obtain ⟨fuel, rfl⟩ : ∃ n, fuel = n + 1 := ⟨fuel - 1, by simp at hfuel; omega⟩
    have hfirst : (inOrder N (cur :: as)).find? (fun r => r.has addr) =
        ((v.find fun r => r.has addr).map v.regions).or ((inOrder N as).find? fun r => r.has addr) := by
      rw [inOrder_cons, hv, Option.elim_some, List.find?_append, find?_heldList (hused cur (by simp) v hv)]
    rw [hfirst]
    unfold regionRandomLoop
    simp only [wp_bind, wp_read laws own hv]
    cases hfind : v.find fun r => r.has addr with
    | some i =>
      refine .inr ⟨cur, by simp, v, i, hv, (find_some hfind).1, rfl, ?_⟩
      simp only [wp_ite]
      split
      · rw [wp_bind, wp_of_error hnull]
      · rfl
    | none =>
      rw [Option.map_none, Option.none_or]
      simp only [wp_ite]
      split
      · rename_i hlast
        rw [hlast] at hrest
        cases as with
        | nil => exact .inl ⟨rfl, by rw [wp_pure]⟩
        | cons b as => exact absurd rfl hrest.2.1
      · rename_i hlast
        have has : as ≠ [] := by
          rintro rfl
          exact hlast hrest
        rcases ih hrest has (fun b hb => hused b (by simp [hb])) (by simpa using hfuel) with hnone | ⟨b, hb, w, i, hhit⟩
        · exact .inl hnone
        · exact .inr ⟨b, by simp [hb], w, i, hhit⟩

section Property

variable (laws : StoreLaws nodes Own) (hpages : PageLaws slab_alloc_locked slab_free_locked Own Orderly)
  (own : Own s N) (hv : IsVector N vect pages) (hM : Apart bytesOf (ranges N pages))
  (hfits : ∀ r ∈ ranges N pages, r.address.toNat + r.size.toNat ≤ 2 ^ 64) (hsize : size ≠ 0)
include laws hpages own hv hM hfits hsize

/-- The range that the address comes upon decides everything. -/
theorem place_iff {a : Word} {v : RegionVector} {i : Nat} (ha : a ∈ pages) (hN : N a = some v) (hi : i < v.regions_used)
    (hhas : (v.regions i).has addr) (hle : size ≤ (v.regions i).size - (addr - (v.regions i).address)) :
    wp (place nodes slab_alloc_locked vect a (v.takeAt i addr size)) (fun _ s' =>
      (∃ r ∈ ranges N pages, bytesOf ⟨addr, size⟩ ⊆ bytesOf r) ∧
      ∃ M, Becomes Own N vect pages s' M ∧ Tiles bytesOf M (freeBytes (ranges N pages) \ bytesOf ⟨addr, size⟩)) Orderly s ↔
    AtEdge (v.regions i) addr size := by
  have hr : v.regions i ∈ ranges N pages := mem_contents.mpr ⟨a, ha, v, hN, region_mem_held hi⟩
  have hfit := hfits _ hr
  have hinside : ∃ r ∈ ranges N pages, bytesOf ⟨addr, size⟩ ⊆ bytesOf r := ⟨_, hr, bytesOf_inside hfit hhas hle⟩
  unfold place
  rw [wp_bind]
  by_cases hback : size = (v.regions i).size - (addr - (v.regions i).address)
  · -- the end of the range
    rw [takeAt_back hback]
    refine ⟨fun _ => ⟨hle, .inr hback⟩, fun _ => wp_write laws own hN fun s₁ own₁ => (wp_pure ..).mpr ⟨hinside, ?_⟩⟩
    obtain ⟨hv₁, hranges₁⟩ := set_vector hv ha hN hi ⟨(v.regions i).address, (v.regions i).size - size⟩
    exact ⟨_, ⟨_, pages, own₁, hv₁, hranges₁, frame_update ha _⟩, tiles_back hM hr hfit hhas hback⟩
  by_cases haddr : addr = (v.regions i).address
  · -- the start of the range
    rw [takeAt_front hback haddr]
    refine ⟨fun _ => ⟨hle, .inl haddr⟩, fun _ => wp_write laws own hN fun s₁ own₁ => ?_⟩
    obtain ⟨hv₁, hranges₁⟩ := set_vector hv ha hN hi ⟨(v.regions i).address, addr - (v.regions i).address⟩
    have hlt : size < (v.regions i).size := by
      rw [haddr, BitVec.sub_self, BitVec.sub_zero] at hle hback
      rw [BitVec.lt_def]
      rw [BitVec.le_def] at hle
      exact Nat.lt_of_le_of_ne hle fun heq => hback (BitVec.eq_of_toNat_eq heq)
    simp only [wp_bind, wp_pure]
    refine wp_imp (wp_region_free laws hpages own₁ hv₁ _ _) ?_
    rintro _ s₂ ⟨N₂, pages₂, own₂, hv₂, hranges₂, hframe⟩
    rw [hranges₁] at hranges₂
    refine ⟨hinside, _, ⟨N₂, pages₂, own₂, hv₂, hranges₂, frame_trans (frame_update ha _) hframe⟩, ?_⟩
    exact tiles_front hM hr hfit hhas haddr hlt
  · -- the middle of the range
    rw [takeAt_middle hback haddr]
    obtain ⟨s₁, hrun, own₁⟩ := laws.write (v.set i ⟨(v.regions i).address + size,
      (v.regions i).size - (addr - (v.regions i).address) - size⟩) own hN
    rw [wp_of_run hrun]
    simp only [wp_pure]
    refine ⟨?_, fun hedge => absurd hedge.2 (not_or.mpr ⟨haddr, hback⟩)⟩
    rintro ⟨-, M, ⟨N₂, pages₂, own₂, hv₂, rfl, -⟩, htiles⟩
    obtain ⟨hv₁, hranges₁⟩ := set_vector hv ha hN hi ⟨(v.regions i).address + size,
      (v.regions i).size - (addr - (v.regions i).address) - size⟩
    rw [← vector_unique laws own₁ own₂ hv₁ hv₂, hranges₁] at htiles
    exact absurd htiles (not_tiles_middle hM hr hfit hhas haddr hle hsize)

end Property

end Vector

/-! ## A range of four pages -/

/-- All mapped nodes, with nothing at address 0. -/
def MappedOwn (s : MappedNodes) (N : Nodes) : Prop := s.node = N ∧ N 0 = none

def noPages (_ _ : Word) : Kernel MappedNodes Word := pure 0

theorem mapped_laws : StoreLaws mappedStore MappedOwn where
  read := by
    rintro s _ a v ⟨rfl, -⟩ hv
    simp only [mappedStore, StateT.run_bind, StateT.run_get, pure_bind, hv]
    rfl
  write := by
    rintro s _ a v w ⟨rfl, hnull⟩ hv
    have ha : (0 : Word) ≠ a := by
      rintro rfl
      rw [hnull] at hv
      cases hv
    refine ⟨{ s with node := Function.update s.node a (some w) }, ?_, rfl, by rwa [Function.update_of_ne ha]⟩
    simp only [mappedStore, StateT.run_bind, StateT.run_get, pure_bind, hv]
    rfl

theorem noPages_laws : PageLaws noPages unmapNode MappedOwn Orderly where
  alloc _ := (wp_pure ..).mpr (.inl rfl)
  free := by
    rintro s _ p v ⟨rfl, hnull⟩ -
    refine (wp_modify ..).mpr ⟨rfl, ?_⟩
    by_cases hp : (0 : Word) = p
    · subst hp
      exact Function.update_self ..
    · rwa [Function.update_of_ne hp]
  out_of_pages := ⟨by simp, by simp⟩

/-- One node with one range. -/
def oneRange (r : Region) : MappedNodes := ⟨fun a => if a = 0x1000 then some ⟨1, 0, fun _ => r⟩ else none, []⟩

theorem oneRange_vector (r : Region) : IsVector (oneRange r).node 0x1000 [0x1000] ∧ ranges (oneRange r).node [0x1000] = {r} := by
  refine ⟨⟨⟨rfl, by decide, _, rfl, rfl⟩, by simp, by simp, ?_⟩, by simp [ranges, oneRange, held, bag]⟩
  intro a ha v hv
  rw [List.mem_singleton.mp ha] at hv
  cases hv
  show 1 ≤ regions_count
  decide

def fourPages : Region := ⟨0xffffffff80200000, 0x4000⟩

end KernelOfTruth.RandomPlacement
