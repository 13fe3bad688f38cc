import KernelOfTruth.RegionVector

/-!
# The end of a region vector

`region_vector_fini` frees the node at `prev` in each round, but `prev` stays at the first node.
-/

open KernelOfTruth.Lib KernelOfTruth.Code KernelOfTruth.Spec

namespace KernelOfTruth.RegionRelease

variable {s : MappedNodes} {vect prev : Word} {v : RegionVector} {pages : List Word} {E : Halt → Prop}

theorem wp_read_mapped {Q : RegionVector → MappedNodes → Prop} (h : s.node prev = some v) :
    wp (mappedStore.read prev) Q E s ↔ Q v s := by
  simp only [mappedStore, wp_bind, wp_get, h, wp_pure]

theorem wp_read_unmapped {Q : RegionVector → MappedNodes → Prop} (h : s.node prev = none) :
    wp (mappedStore.read prev) Q E s ↔ E .page_fault := by
  simp only [mappedStore, wp_bind, wp_get, h, wp_throw]

/-- The state after the node at `a` has been freed. -/
def without (s : MappedNodes) (a : Word) : MappedNodes := ⟨Function.update s.node a none, s.freed ++ [(Page_Small, a)]⟩

section Round

variable {Q : Unit → MappedNodes → Prop} {fuel : Nat}

theorem wp_fini_end : wp (regionFiniLoop mappedStore unmapNode prev (fuel + 1) 0) Q E s ↔ Q () s := by
  rw [regionFiniLoop, if_pos rfl, wp_pure]

theorem wp_fini_round (hvect : vect ≠ 0) (h : s.node prev = some v) :
    wp (regionFiniLoop mappedStore unmapNode prev (fuel + 1) vect) Q E s ↔
      wp (regionFiniLoop mappedStore unmapNode prev fuel v.next) Q E (without s prev) := by
  rw [regionFiniLoop, if_neg hvect, wp_bind, wp_read_mapped h, wp_bind, unmapNode, wp_modify]
  rfl

/-- A second round reads the node that the first one has freed. -/
theorem wp_fini_again (hvect : vect ≠ 0) :
    wp (regionFiniLoop mappedStore unmapNode prev (fuel + 1) vect) Q E (without s prev) ↔ E .page_fault := by
  have hnone : (without s prev).node prev = none := Function.update_self ..
  rw [regionFiniLoop, if_neg hvect, wp_bind, wp_read_unmapped hnone]

end Round

theorem vector_first (h : IsVector s.node vect pages) : ∃ v rest, pages = vect :: rest ∧ vect ≠ 0 ∧
    s.node vect = some v ∧ Segment RegionVector.next 0 s.node v.next rest 0 := by
  cases pages with
  | nil => exact absurd rfl h.nonempty
  | cons a rest =>
    obtain ⟨rfl, hne, v, hv, hrest⟩ := h.linked
    exact ⟨v, rest, rfl, hne, hv, hrest⟩

/-- A vector is released exactly if it has one node. -/
theorem released_iff_single (h : IsVector s.node vect pages) : Released s vect pages ↔ pages.length = 1 := by
  obtain ⟨v, rest, rfl, hvect, hv, hrest⟩ := vector_first h
  obtain ⟨fuel, hfuel⟩ : ∃ fuel, maxNodes = fuel + 1 + 1 := ⟨2 ^ 64 - 2, by decide⟩
  cases rest with
  | nil =>
    -- the second round finds the end of the list
    have hnext : v.next = 0 := hrest
    have hrun : wp (region_vector_fini mappedStore unmapNode vect) (fun _ s' => s' = without s vect) (fun _ => False) s := by
      rw [region_vector_fini, hfuel, wp_fini_round hvect hv, hnext, wp_fini_end]
    obtain ⟨_, s', hrun, rfl⟩ := wp_total hrun
    exact iff_of_true ⟨_, hrun, .refl _⟩ rfl
  | cons b rest =>
    obtain ⟨-, hnext, -⟩ := hrest
    refine iff_of_false ?_ (by simp)
    rintro ⟨s', hrun, -⟩
    have hstop : wp (region_vector_fini mappedStore unmapNode vect) (fun _ _ => False) (fun _ => True) s := by
      rw [region_vector_fini, hfuel, wp_fini_round hvect hv, wp_fini_again hnext]
      trivial
    exact wp_ok hstop hrun

/-! ## Vectors of one and of two nodes -/

def lastNode : RegionVector := ⟨0, 0, fun _ => ⟨0, 0⟩⟩

def singleNode : MappedNodes := ⟨fun a => if a = 0x1000 then some lastNode else none, []⟩

def twoNodes : MappedNodes :=
  ⟨fun a => if a = 0x1000 then some { lastNode with next := 0x2000 } else if a = 0x2000 then some lastNode else none, []⟩

theorem singleNode_vector : IsVector singleNode.node 0x1000 [0x1000] := by
  refine ⟨⟨rfl, by decide, lastNode, rfl, rfl⟩, by simp, by simp, ?_⟩
  intro a ha v hv
  rw [List.mem_singleton.mp ha] at hv
  cases hv
  exact Nat.zero_le _

theorem singleNode_released : IsVector singleNode.node 0x1000 [0x1000] ∧ Released singleNode 0x1000 [0x1000] :=
  ⟨singleNode_vector, (released_iff_single singleNode_vector).mpr rfl⟩

/-- The second node is never freed: the first one is read again after it has been. -/
theorem twoNodes_not_released : IsVector twoNodes.node 0x1000 [0x1000, 0x2000] ∧
    (region_vector_fini mappedStore unmapNode 0x1000).run twoNodes = .error .page_fault := by
  refine ⟨⟨⟨rfl, by decide, _, rfl, rfl, by decide, lastNode, rfl, rfl⟩, by simp, by decide, ?_⟩, rfl⟩
  intro a ha v hv
  rcases List.mem_pair.mp ha with rfl | rfl
  · cases hv
    exact Nat.zero_le _
  · cases hv
    exact Nat.zero_le _

end KernelOfTruth.RegionRelease
