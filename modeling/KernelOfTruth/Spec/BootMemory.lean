import KernelOfTruth.Code.BootMemory
import KernelOfTruth.Lib.Tiling
import KernelOfTruth.Spec.PhysicalPages

/-!
# What `insert_regions` is for

The allocator should get each page of available memory that is not reserved, once.
-/

open KernelOfTruth.Lib KernelOfTruth.Code

namespace KernelOfTruth.Spec

/-- `physical_free_range` as a record of its calls. -/
def recordFree (address length : Word) : Kernel (List PageRange) Unit :=
  modify fun calls => calls ++ [⟨address, length⟩]

/-! ## Memory -/

def inRegion (r : ReservedRegion) (f : Word) : Prop := r.start.toNat ≤ f.toNat ∧ f.toNat < r.end_.toNat

instance (r : ReservedRegion) (f : Word) : Decidable (inRegion r f) := inferInstanceAs (Decidable (_ ∧ _))

variable (img : KernelImage) (info : MultibootInfo)

def Reserved (f : Word) : Prop :=
  inRegion (bootMap img) f ∨ inRegion (modsList info) f ∨ ∃ mod ∈ info.mods, inRegion (moduleRegion mod) f

/-- The entries of available memory. -/
def available : List MultibootMmapEntry := info.mmap.filter fun x => x.type = MULTIBOOT_MEMORY_AVAILABLE

def entryEnd (x : MultibootMmapEntry) : Nat := x.addr.toNat + x.len.toNat

/-- The page `f` is in the part of memory from the start of the entry to `stop`. -/
def inEntry (x : MultibootMmapEntry) (stop : Nat) (f : Word) : Prop := x.addr.toNat ≤ f.toNat ∧ f.toNat < stop

instance (x : MultibootMmapEntry) (stop : Nat) (f : Word) : Decidable (inEntry x stop f) :=
  inferInstanceAs (Decidable (_ ∧ _))

/-- The pages that the allocator should get. -/
def usable : Set Word :=
  { f | is_aligned f Page_Small ∧ (∃ x ∈ available info, inEntry x (entryEnd x) f) ∧ ¬ Reserved img info f }

/-- Tables as a boot loader makes them, and regions as `insert_regions` expects them. -/
structure BootTablesValid : Prop where
  entry_aligned : ∀ x ∈ info.mmap, is_aligned x.addr Page_Small ∧ is_aligned x.len Page_Small
  entry_fits : ∀ x ∈ info.mmap, entryEnd x < 2 ^ 64
  entries_apart : info.mmap.Pairwise fun x y => entryEnd x ≤ y.addr.toNat
  region_aligned : ∀ r ∈ reservedRegions img info, is_aligned r.start Page_Small ∧ is_aligned r.end_ Page_Small
  region_nonempty : ∀ r ∈ reservedRegions img info, r.start.toNat < r.end_.toNat
  regions_apart : (reservedRegions img info).Pairwise fun r r' => r.end_.toNat ≤ r'.start.toNat
  list_inside : modsListMapped img info → Boot_Map_Start.toNat ≤ (modsList info).start.toNat ∧
    (modsList info).end_.toNat ≤ (Boot_Map_End img).toNat

/-! ## Where an entry ends for the code -/

/-- The regions that begin or end strictly inside of the entry. -/
def regionsIn (x : MultibootMmapEntry) : List ReservedRegion :=
  (reservedRegions img info).filter fun r =>
    physical_region_contains x.addr (x.addr + x.len) r.start r.end_

/-- With two regions in the entry, the end moves by as much as the first region begins after the start of
the entry (or before it, the other way), though never before the second region. -/
def carvedEnd (x : MultibootMmapEntry) : Nat :=
  match regionsIn img info x with
  | r :: n :: _ => max n.start.toNat ((entryEnd x - x.addr.toNat + r.start.toNat) % 2 ^ 64)
  | _ => entryEnd x

/-- Memory for which the code is right: no region covers a whole entry, and the move of the ends changes
for no page that is not reserved how many entries it is in. -/
structure CarvesRight : Prop where
  uncovered : ∀ x ∈ available info, 0 < x.len.toNat → ∀ r ∈ reservedRegions img info,
    ¬ (r.start.toNat ≤ x.addr.toNat ∧ entryEnd x ≤ r.end_.toNat)
  same : ∀ f, is_aligned f Page_Small → ¬ Reserved img info f →
    (available info).countP (fun x => inEntry x (carvedEnd img info x) f) =
      (available info).countP (fun x => inEntry x (entryEnd x) f)

end KernelOfTruth.Spec
