import KernelOfTruth.PageStack

/-!
# Physical memory runs out

`physical_alloc` does not ask whether the stack is empty. It reads the header at the pivot page, where nothing is
mapped after the last page has been handed out, and its last assertions admit no address that is not of a page.
-/

open KernelOfTruth.Lib KernelOfTruth.Code KernelOfTruth.Spec KernelOfTruth.Rules KernelOfTruth.PageStack

namespace KernelOfTruth.Exhaustion

variable {img : KernelImage} {pt : PivotTables} {m : Machine}

/-- What `physical_alloc` returns is the address of a page. -/
theorem wp_alloc_aligned : wp (physical_alloc img) (fun p _ => p &&& 0xfff = 0) (fun _ => True) m := by
  unfold physical_alloc
  -- the header is read, shortened and read again, and one of the branches gives the address
  iterate 6 (rw [wp_bind]; refine wp_any (fun _ _ => ?_) fun _ => trivial)
  rw [wp_bind, wp_assert_iff]
  split
  · rename_i haligned
    iterate 3 (rw [wp_bind]; refine wp_any (fun _ _ => ?_) fun _ => trivial)
    exact (wp_pure ..).mpr haligned
  · trivial

theorem alloc_not_invalid {m' : Machine} : (physical_alloc img).run m ≠ .ok (invalid_phys_addr, m') := fun hrun =>
  absurd (wp_ok wp_alloc_aligned hrun) (by decide)

/-- A page that was freed is on top. -/
theorem alloc_after_free {free : Set Word} (h : StackInv img pt m free) (hfree : free = ∅) {address : Word}
    (hgood : (⟨address, Page_Small⟩ : PageRange).Good) (hoff : ¬ OnPivotPath pt m address) {m₁ : Machine}
    (hrun : (physical_free img address).run m = .ok ((), m₁)) : ∃ m₂, (physical_alloc img).run m₁ = .ok (address, m₂) := by
  have hpages : (⟨address, Page_Small⟩ : PageRange).pages = {address} :=
    Set.ext fun f => mem_pages_one hgood.start_aligned
  subst hfree
  obtain ⟨h₁, -⟩ := wp_ok (wp_free_range h hgood (by simp) (by rw [hpages]; rintro f rfl; exact hoff) fun _ => False) hrun
  rw [hpages, Set.empty_union] at h₁
  obtain ⟨p, m₂, halloc, hp, -⟩ := wp_total (wp_alloc h₁ (Set.singleton_nonempty _) fun _ => False)
  obtain rfl : p = address := hp
  exact ⟨m₂, halloc⟩

/-- The end of physical memory is never reported: a run that has come to it stops at the next `physical_alloc`. Only
what is freed before that call is handed out again. -/
theorem reports_exhaustion_iff {w₀ w : World} (hstart : w₀.Start img pt)
    (hrun : Relation.ReflTransGen (World.Step img pt) w₀ w) :
    (w.ReportsExhaustion img pt ↔ w.free.Nonempty) ∧
    (w.free = ∅ → ∀ address m₁, w.MayFree pt ⟨address, Page_Small⟩ →
      (physical_free img address).run w.machine = .ok ((), m₁) →
      ∃ m₂, (physical_alloc img).run m₁ = .ok (address, m₂)) := by
  refine ⟨⟨fun hreports => ?_, fun hne hempty => absurd hempty hne.ne_empty⟩, ?_⟩
  · by_contra hempty
    obtain ⟨m', halloc, -⟩ := hreports (Set.not_nonempty_iff_eq_empty.mp hempty)
    exact alloc_not_invalid halloc
  · intro hempty address m₁ hmay hfree
    have hstack := (run_inv (start_inv hstart) hrun).stack
    have hbelow := free_range_below hmay.below hfree
    have hgood : (⟨address, Page_Small⟩ : PageRange).Good :=
      ⟨hmay.start_aligned, hmay.length_aligned, hmay.nonempty, hbelow⟩
    exact alloc_after_free hstack hempty hgood (hmay.apart _ (start_mem_pages hgood)) hfree

/-! ## A machine with one page -/

theorem one_page_mayFree : World.MayFree linkedTables ⟨linkedMachine, ∅, ∅⟩ ⟨0x200000, Page_Small⟩ := by
  refine ⟨by decide, by decide, by decide, by decide, by simp, ?_⟩
  intro f hf hpath
  rw [mem_pages_one (by decide)] at hf
  subst hf
  rcases hpath with h | h | h | h <;> simp [linkedMachine, linkedTables] at h

theorem one_page_freed : ∃ m₁, (physical_free linkedImage 0x200000).run linkedMachine = .ok ((), m₁) ∧
    World.Step linkedImage linkedTables ⟨linkedMachine, ∅, ∅⟩ ⟨m₁, ∅ ∪ {0x200000}, ∅ \ {0x200000}⟩ ∧
    ∃ m₂, (physical_alloc linkedImage).run m₁ = .ok (0x200000, m₂) ∧
      (physical_alloc linkedImage).run m₂ = .error .page_fault :=
  ⟨_, rfl, .free _ one_page_mayFree rfl, _, rfl, rfl⟩

/-- The only page is handed out. The next call reads the pivot page, at which nothing is mapped. -/
theorem exhaustion_faults : ∃ w, Relation.ReflTransGen (World.Step linkedImage linkedTables) ⟨linkedMachine, ∅, ∅⟩ w ∧
    w.free = ∅ ∧ (physical_alloc linkedImage).run w.machine = .error .page_fault := by
  obtain ⟨m₁, -, hfreed, m₂, halloc, hfault⟩ := one_page_freed
  have hone : (∅ ∪ {0x200000} : Set Word).Nonempty := by simp
  exact ⟨_, (Relation.ReflTransGen.single hfreed).tail (.alloc hone halloc), by simp, hfault⟩

theorem one_page_reported : World.Start linkedImage linkedTables ⟨linkedMachine, ∅, ∅⟩ ∧
    (∃ w, Relation.ReflTransGen (World.Step linkedImage linkedTables) ⟨linkedMachine, ∅, ∅⟩ w ∧
      w.ReportsExhaustion linkedImage linkedTables) ∧
    ∃ m₁ m₂, (physical_free linkedImage 0x200000).run linkedMachine = .ok ((), m₁) ∧
      (physical_alloc linkedImage).run m₁ = .ok (0x200000, m₂) := by
  obtain ⟨m₁, hfree, hfreed, -⟩ := one_page_freed
  have hrun := Relation.ReflTransGen.single hfreed
  obtain ⟨m₂, halloc⟩ := (reports_exhaustion_iff linked_start .refl).2 rfl _ m₁ one_page_mayFree hfree
  exact ⟨linked_start, ⟨_, hrun, (reports_exhaustion_iff linked_start hrun).1.mpr (by simp)⟩, m₁, m₂, hfree, halloc⟩

end KernelOfTruth.Exhaustion
