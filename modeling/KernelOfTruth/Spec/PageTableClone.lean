import KernelOfTruth.Code.PageTableClone
import KernelOfTruth.Spec.AddressSpace

/-!
# What the copy of an address space is
-/

open KernelOfTruth.Code

namespace KernelOfTruth.Spec

/-- The frame of the root, as the record of the page table has it. -/
def rootOf (m : Machine) (pt : Word) : Option Word := (m.translate pt).map fun f => m.mem f (wordIndex pt)

/-- The page table with the second root is a copy of that with the first one. The pivot page is the allocator's. -/
structure ClonedSpace (img : KernelImage) (m m' : Machine) (root root' : Word) : Prop where
  higher : ∀ page, PagePath page → Upper page → page ≠ pivotPage img →
    walk (under m' root') page = walk (under m root) page
  permissions : ∀ page, PagePath page → Lower page →
    (walk (under m' root') page).map Prod.snd = (walk (under m root) page).map Prod.snd
  contents : ∀ page, PagePath page → Lower page → ∀ f f' perms, walk (under m root) page = some (f, perms) →
    walk (under m' root') page = some (f', perms) → m'.mem f' = m.mem f
  fresh : ∀ page, PagePath page → Lower page → ∀ f' perms, walk (under m' root') page = some (f', perms) → FreePage m f'
  distinct : ∀ page page', PagePath page → Lower page → PagePath page' → Lower page' → ∀ f' perms perms',
    walk (under m' root') page = some (f', perms) → walk (under m' root') page' = some (f', perms') → page = page'
  translations : ∀ page, PagePath page → page ≠ pivotPage img → walk (under m' root) page = walk (under m root) page
  unchanged : ∀ page, PagePath page → Lower page → ∀ f perms, walk (under m root) page = some (f, perms) →
    m'.mem f = m.mem f
  current : m'.cr3 = m.cr3

/-- The call returns the record of a copy. -/
def Clones (img : KernelImage) (slab_higher_half phys : Word) (kmalloc : Word → Kernel SlabState Word)
    (kfree : Word → Kernel SlabState Unit) (s : SlabState) (pt : Word) : Prop :=
  ∃ pt_clone s' root root',
    (page_table_clone img slab_higher_half phys kmalloc kfree pt).run s = .ok (pt_clone, s') ∧
    rootOf s.machine pt = some root ∧ rootOf s'.machine pt_clone = some root' ∧
    ClonedSpace img s.machine s'.machine root root'

end KernelOfTruth.Spec
