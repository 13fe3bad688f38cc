import KernelOfTruth.Code.Slab
import KernelOfTruth.Spec.PageRanges
import KernelOfTruth.Spec.RegionVector

/-!
# What the slab allocator means

The ranges in `slab_higher_half` are the free addresses of the kernel. The list of ranges itself depends on how pages
came and went, and is not looked at.
-/

open KernelOfTruth.Code

namespace KernelOfTruth.Spec

/-- The nodes in memory. There is none at address 0. -/
def slabMemory (s : SlabState) : Nodes := fun a => if a = 0 then none else some (s.nodes a)

/-- `slab_higher_half` describes the free addresses `bytes`. -/
def FreeSpace (slab_higher_half : Word) (s : SlabState) (bytes : Set Nat) : Prop :=
  ∃ pages, IsVector (slabMemory s) slab_higher_half pages ∧ freeBytes (ranges (slabMemory s) pages) = bytes

/-- A range of pages of the kernel, without the recursive window and the pivot page. -/
structure KernelRange (img : KernelImage) (r : Region) : Prop where
  address_aligned : is_aligned r.address Page_Small
  size_aligned : is_aligned r.size Page_Small
  fits : r.address.toNat + r.size.toNat ≤ 2 ^ 64
  higher : ∀ a : Word, a.toNat ∈ bytesOf r → memory_is_lower_half a = false
  avoids : ∀ a : Word, a.toNat ∈ bytesOf r → index4 a ≠ fractal ∧ pagePath a ≠ pivotPage img

/-- `bytes` are the free addresses as before, and no translation and not the usage has changed. -/
structure Untouched (img : KernelImage) (slab_higher_half : Word) (bytes : Set Nat) (s s' : SlabState) : Prop where
  free : FreeSpace slab_higher_half s' bytes
  usage : s'.Usage = s.Usage
  walks : SameWalks img s.machine s'.machine

/-- The `size` bytes at `virt` were free and not mapped, and are now mapped to the frames from `phys` on. -/
structure Granted (img : KernelImage) (M : Multiset Region) (virt phys size attrs : Word) (s s' : SlabState) : Prop where
  range : ∃ r ∈ M, bytesOf ⟨virt, size⟩ ⊆ bytesOf r
  unmapped : ∀ i < size.toNat / Page_Small.toNat, walk s.machine (pagePath (pageAt virt i)) = none
  mapped : RangeMapped img virt phys (size.toNat / Page_Small.toNat) attrs s.machine s'.machine
  usage : s'.Usage = s.Usage - size

end KernelOfTruth.Spec
