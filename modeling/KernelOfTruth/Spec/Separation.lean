import KernelOfTruth.Spec.Paging
import KernelOfTruth.Spec.PhysicalPages

/-!
# Write-xor-execute, and the separation of kernel and user memory

A statement about every page that is mapped. Calls of the six functions that map, change and unmap pages
are the steps of a run.
-/

open KernelOfTruth.Lib KernelOfTruth.Code

namespace KernelOfTruth.Spec

/-- The permissions of a page whose entry is reached through entry `i4` of the root. -/
structure Allowed (i4 : Index) (perms : Word) : Prop where
  writable : perms &&& Memory_Just_Writable ≠ 0 → perms &&& Memory_No_Execute ≠ 0
  user : 256 ≤ i4.toNat → perms &&& Memory_User_Access = 0

/-- Every present entry of the lowest level has permissions that are allowed. -/
def Separated (m : Machine) : Prop :=
  ∀ i1 i2 i3 i4 frame perms, PagePath [i1, i2, i3, i4] → walk m [i1, i2, i3, i4] = some (frame, perms) →
    Allowed i4 perms

/-- The page `f` is on the stack of free pages. -/
def FreePage (m : Machine) (f : Word) : Prop := ∃ free, Holds m free ∧ f ∈ free

/-! ## Runs -/

section Run

variable (img : KernelImage)

/-- Pages that the callers leave to the window and to the physical allocator. -/
structure Ordinary (v : Word) : Prop where
  outside : index4 v ≠ fractal
  not_pivot : pagePath v ≠ pivotPage img

/-- The frame of a page may be freed: the page is mapped, and the frame is no page table and not free. -/
def MayUnmap (m : Machine) (v : Word) : Prop :=
  ∀ e, entry m (pagePath v) = some e →
    present e ∧ ¬ IsTable m (page_entry_to_phys e) ∧ ¬ FreePage m (page_entry_to_phys e)

/-- `may` holds at each call that `unmap_range` makes, when it makes it. -/
def MayUnmapRange (may : Machine → Word → Prop) : Nat → Machine → Word → Prop
  | 0, _, _ => True
  | count + 1, m, v => may m v ∧ ∀ m', (unmap_page (physical_free img) v true).run m = .ok ((), m') →
      MayUnmapRange may count m' (v + Page_Small)

/-- All pages of a range. -/
def PagesOf (virt : Word) (count : Nat) (page : Word → Prop) : Prop :=
  ∀ k < count, page (virt + BitVec.ofNat 64 k * Page_Small)

/-- One call that returns, on pages of the kind `page`. Frames are only freed when `may` allows it. -/
inductive PagingStep (page : Word → Prop) (may : Machine → Word → Prop) (m m' : Machine) : Prop
  | map_page {v phys perms : Word} {status : Status} (hv : page v)
    (hrun : (map_page (physical_alloc img) v phys perms).run m = .ok (status, m'))
  | map_range {virt phys attrs : Word} {count : Nat} {status : Status} (hv : PagesOf virt count page)
    (hrun : (map_range (physical_alloc img) (physical_free img) virt phys count attrs).run m = .ok (status, m'))
  | map_update_page {v perms : Word} {status : Status} (hv : page v)
    (hrun : (map_update_page v perms).run m = .ok (status, m'))
  | paging_update_range {virt attrs : Word} {count : Nat} {status : Status} (hv : PagesOf virt count page)
    (hrun : (paging_update_range virt count attrs).run m = .ok (status, m'))
  | unmap_page {v : Word} {free_physical_memory : Bool} (hv : page v) (hmay : free_physical_memory = true → may m v)
    (hrun : (unmap_page (physical_free img) v free_physical_memory).run m = .ok ((), m'))
  | unmap_range {virt : Word} {count : Nat} {free_phys : Bool} (hv : PagesOf virt count page)
    (hmay : free_phys = true → MayUnmapRange img may count m virt)
    (hrun : (unmap_range (physical_free img) virt count free_phys).run m = .ok ((), m'))

end Run

end KernelOfTruth.Spec
