import KernelOfTruth.Spec.PageTableClone
import KernelOfTruth.Slab

/-!
# The copy of an address space

`page_table_clone` asks for pages that the user may access, which the slab allocator refuses with an assertion. The clean-up
after a failure ends in one, too: it frees variables that are still null.
-/

open KernelOfTruth.Lib KernelOfTruth.Code KernelOfTruth.Spec KernelOfTruth.Rules KernelOfTruth.PageStack
  KernelOfTruth.FreePages KernelOfTruth.Slab

namespace KernelOfTruth.PageTableClone

variable {img : KernelImage} {slab_higher_half phys : Word} {s : SlabState} {E : Halt → Prop}

/-- No page of the kernel is for the user. -/
theorem wp_slab_alloc_phys_user {attributes : Word} {Q : Word × Word → SlabState → Prop}
    (h : attributes &&& Memory_User_Access ≠ 0) :
    wp (slab_alloc_phys img slab_higher_half phys attributes) Q E s ↔ E (.panic "slab_alloc_phys") := by
  unfold slab_alloc_phys
  rw [wp_bind, wp_assert_iff, if_neg h]

theorem wp_slab_free_virt_null {bytes : Word} {Q : Unit → SlabState → Prop} :
    wp (slab_free_virt img slab_higher_half bytes 0) Q E s ↔ E (.panic "slab_free_virt") := by
  unfold slab_free_virt
  rw [wp_bind, wp_assert_false (by decide)]

variable {kmalloc : Word → Kernel SlabState Word} {kfree : Word → Kernel SlabState Unit}

theorem cloneFailed_stops (original_phys pt_clone level_four_clone : Word) :
    wp (cloneFailed img slab_higher_half kfree original_phys pt_clone level_four_clone) (fun _ _ => False)
      (fun _ => True) s := by
  unfold cloneFailed
  -- the first three calls may end in any way
  iterate 3 (rw [wp_bind]; refine wp_any (fun _ _ => ?_) fun _ => trivial)
  rw [wp_bind, wp_slab_free_virt_null]
  trivial

theorem page_table_clone_stops (pt : Word) :
    wp (page_table_clone img slab_higher_half phys kmalloc kfree pt) (fun _ _ => False) (fun _ => True) s := by
  unfold page_table_clone
  iterate 3 (rw [wp_bind]; refine wp_any (fun _ _ => ?_) fun _ => trivial)
  split
  · exact cloneFailed_stops ..
  · rw [wp_bind, wp_slab_alloc_phys_user (by decide)]
    trivial

/-- **No address space is ever copied.** -/
theorem never_clones (img : KernelImage) (slab_higher_half phys : Word) (kmalloc : Word → Kernel SlabState Word)
    (kfree : Word → Kernel SlabState Unit) (s : SlabState) (pt : Word) :
    ¬ Clones img slab_higher_half phys kmalloc kfree s pt := by
  rintro ⟨pt_clone, s', root, root', hrun, -⟩
  exact wp_ok (page_table_clone_stops pt) hrun

/-! ## One record -/

/-- The first page of the image holds the record of the current page table, and has room for another. -/
def recordMachine : Machine where
  mem f i :=
    if f = 0x4000 ∧ i = index1 linkedImage.kernel_start then 0x5003
    else if f = 0x5000 ∧ i = 0 then 0x1000
    else stockedMachine.mem f i
  cr3 := stockedMachine.cr3
  physical_page := stockedMachine.physical_page

/-- Four pages are free, and three addresses. -/
theorem clone_refused : rootOf recordMachine linkedImage.kernel_start = some recordMachine.cr3 ∧
    ((page_table_clone linkedImage imageNode imageNode (fun _ => pure (linkedImage.kernel_start + 8)) (fun _ => pure ())
      linkedImage.kernel_start).run { stockedSlab with machine := recordMachine }).map Prod.fst =
        .error (.panic "slab_alloc_phys") := by
  refine ⟨by decide +kernel, by decide +kernel⟩

end KernelOfTruth.PageTableClone
