import KernelOfTruth.Bits
import KernelOfTruth.Rules
import KernelOfTruth.Tables

/-! # Mapping and unmapping one page -/

open KernelOfTruth.Lib KernelOfTruth.Code KernelOfTruth.Spec KernelOfTruth.Rules KernelOfTruth.Window
  KernelOfTruth.Tables

namespace KernelOfTruth.Paging

/-! ## When the tables of the page are there -/

section Present

variable {m : Machine} {v f3 f2 f1 : Word} {E : Halt → Prop}

theorem present_of_table {i : Index} {p : List Index} {f g : Word} (hp : m.table p = some f)
    (h : m.table (i :: p) = some g) : present (m.mem f i) := by
  rw [table_cons_some hp] at h
  split at h
  · assumption
  · cases h

theorem wp_linkTable_present {alloc : Kernel Machine Word} {a t : Word} {Q : Status → Machine → Prop} :
    wp (linkTable alloc a t true) Q E m ↔ Q .Ok m := by
  simp [linkTable]

/-- The entry that `map_page` writes. -/
def leafEntry (p perms : Word) : Word := p &&& ~~~Memory_Permissions_Mask ||| perms ||| Memory_Present

theorem wp_map_page_present (hs : SelfMapped m) (h3 : m.table [index4 v] = some f3)
    (h2 : m.table [index3 v, index4 v] = some f2) (h1 : m.table [index2 v, index3 v, index4 v] = some f1)
    {alloc : Kernel Machine Word} {p perms : Word} {Q : Status → Machine → Prop} :
    wp (map_page alloc v p perms) Q E m ↔
      if permissionsRefused v perms then Q .Error_Permissions m
      else if present (m.mem f1 (index1 v)) then Q .Error_Present m
      else Q .Ok { m with mem := setWord m.mem f1 (index1 v) (leafEntry p perms) } := by
  have hp3 : present (m.mem m.cr3 (index4 v)) := present_of_table rfl h3
  have hp2 : present (m.mem f3 (index3 v)) := present_of_table h3 h2
  have hp1 : present (m.mem f2 (index2 v)) := present_of_table h2 h1
  unfold map_page
  split
  · simp [*]
  · simp only [wp_bubble, wp_bind, wp_is_pl3_present hs, wp_is_pl2_present hs h3,
      wp_is_pl1_present hs h2, wp_is_Memory_Present hs h1, hp3, hp2, hp1, wp_linkTable_present, wp_ite,
      wp_pure, if_true, (slot_pl1 hs v).wp_store h1, leafEntry]

theorem wp_unmap_page_present (hs : SelfMapped m) (h3 : m.table [index4 v] = some f3)
    (h2 : m.table [index3 v, index4 v] = some f2) (h1 : m.table [index2 v, index3 v, index4 v] = some f1)
    {free : Word → Kernel Machine Unit} {Q : Unit → Machine → Prop} :
    wp (unmap_page free v false) Q E m ↔
      Q () { m with mem := setWord m.mem f1 (index1 v) free_page_entry } := by
  have hp3 : present (m.mem m.cr3 (index4 v)) := present_of_table rfl h3
  have hp2 : present (m.mem f3 (index3 v)) := present_of_table h3 h2
  have hp1 : present (m.mem f2 (index2 v)) := present_of_table h2 h1
  simp [unmap_page, wp_is_pl3_present hs, wp_is_pl2_present hs h3, wp_is_pl1_present hs h2, hp3, hp2, hp1,
    (slot_pl1 hs v).wp_store h1]

end Present

/-! ## The pivot page -/

theorem pivot_toNat (img : KernelImage) : (Kernel_Pivot_Page img).toNat = img.kernel_start.toNat - 4096 := by
  have h := img.memory_le_start
  have := img.kernel_start.isLt
  simp [Kernel_Pivot_Page, Page_Small, Kernel_Memory_Start] at *
  omega

/-- The kernel's memory is above the window. -/
theorem pivot_outside (img : KernelImage) : index4 (Kernel_Pivot_Page img) ≠ fractal := by
  have hlow := img.memory_le_start
  have hlt := img.kernel_start.isLt
  intro h
  have hindex := congrArg BitVec.toNat h
  rw [index4, BitVec.extractLsb'_toNat, pivot_toNat, Nat.shiftRight_eq_div_pow] at hindex
  simp [Page_Small, Kernel_Memory_Start, fractal, Kernel_Fractal_Page_Table_Index] at *
  omega

/-! ## What the new entry says -/

theorem mask_apart : Memory_Permissions_Mask &&& Phys_Addr_Mask = 0#64 := by decide

theorem perms_and_phys {perms : Word} (h : perms &&& Memory_Permissions_Mask = perms) :
    perms &&& Phys_Addr_Mask = 0#64 := by
  rw [← h, BitVec.and_assoc, mask_apart, BitVec.and_zero]

theorem frame_and_not_mask {p : Word} (h : IsFrame p) : p &&& ~~~Memory_Permissions_Mask = p := by
  rw [← h, page_entry_to_phys, BitVec.and_assoc]
  congr 1

/-- The frame can be read back from an entry if the permissions have no bits of an address. -/
theorem leafEntry_frame {p perms : Word} (hp : IsFrame p) (hperms : page_entry_to_phys perms = 0) :
    page_entry_to_phys (leafEntry p perms) = p := by
  have h1 : Memory_Present &&& Phys_Addr_Mask = 0#64 := by decide
  have h2 : perms &&& Phys_Addr_Mask = 0#64 := hperms
  unfold leafEntry
  rw [frame_and_not_mask hp, page_entry_to_phys, BitVec.and_or_distrib_right, BitVec.and_or_distrib_right,
    h2, h1, BitVec.or_zero, BitVec.or_zero]
  exact hp

theorem leafEntry_phys {p perms : Word} (hp : IsFrame p) (hperms : perms &&& Memory_Permissions_Mask = perms) :
    page_entry_to_phys (leafEntry p perms) = p := leafEntry_frame hp (perms_and_phys hperms)

/-- No bit of the address gets into the permissions. -/
theorem leafEntry_mask (p perms : Word) :
    leafEntry p perms &&& Memory_Permissions_Mask = perms &&& Memory_Permissions_Mask ||| Memory_Present := by
  have h1 : Memory_Present &&& Memory_Permissions_Mask = Memory_Present := by decide
  have h2 : ~~~Memory_Permissions_Mask &&& Memory_Permissions_Mask = 0#64 := by decide
  unfold leafEntry
  rw [BitVec.and_or_distrib_right, BitVec.and_or_distrib_right, BitVec.and_assoc, h2, h1, BitVec.and_zero,
    BitVec.zero_or]

theorem leafEntry_perms {p perms : Word} (hperms : perms &&& Memory_Permissions_Mask = perms) :
    leafEntry p perms &&& Memory_Permissions_Mask = perms ||| Memory_Present := by
  rw [leafEntry_mask, hperms]

theorem present_or (e : Word) : present (e ||| Memory_Present) := by
  have h1 : Memory_Present &&& Memory_Present = Memory_Present := by decide
  have h2 : ∀ x : Word, x ||| Memory_Present ≠ 0 := by
    intro x h
    have := congrArg (fun y : Word => y.getLsbD 0) h
    simp [Memory_Present] at this
  unfold present
  rw [BitVec.and_or_distrib_right, h1, bne_iff_ne]
  exact h2 _

theorem leafEntry_present (p perms : Word) : present (leafEntry p perms) := present_or _

end KernelOfTruth.Paging
