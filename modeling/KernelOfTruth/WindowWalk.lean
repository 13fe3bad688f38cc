import KernelOfTruth.Code.PageTableClone
import KernelOfTruth.PageStack

/-!
# Every entry of the window

The addresses of the window reach each entry of the four tables on the walk of an address, and the
indices of an address in the lower half name its page.
-/

open KernelOfTruth.Lib KernelOfTruth.Code KernelOfTruth.Spec KernelOfTruth.PageStack

namespace KernelOfTruth.Window

/-! ## Addresses that the processor takes -/

theorem canonical_entry {page : Word} (i : Index) (hlow : page.extractLsb' 0 12 = 0)
    (hhigh : page.extractLsb' 47 17 = BitVec.allOnes 17) : Canonical (entryAddress page (i.setWidth 64)) := by
  right
  rw [entryAddress_eq page i hlow]
  have hnone : (i.setWidth 64 <<< 3).extractLsb' 47 17 = 0 := by
    ext k hk
    interval_cases k <;> simp
  rw [BitVec.extractLsb'_or, hhigh, hnone]
  rfl

theorem aligned_entry {page : Word} (i : Index) (hlow : page.extractLsb' 0 12 = 0) :
    (entryAddress page (i.setWidth 64)).extractLsb' 0 3 = 0 := by
  rw [entryAddress_eq page i hlow]
  ext k hk
  have hbit := congrArg (fun x : BitVec 12 => x.getLsbD k) hlow
  simp only [BitVec.getLsbD_extractLsb', show k < 12 by omega, decide_true, Bool.true_and] at hbit
  interval_cases k <;> simp_all

theorem high_pl3_index (i : Index) :
    (get_pl3_index (i.setWidth 64)).extractLsb' 47 17 = BitVec.allOnes 17 := by
  unfold get_pl3_index
  ext k hk
  interval_cases k <;> simp

theorem high_pl2_index (i j : Index) :
    (get_pl2_index (i.setWidth 64) (j.setWidth 64)).extractLsb' 47 17 = BitVec.allOnes 17 := by
  unfold get_pl2_index
  ext k hk
  interval_cases k <;> simp

theorem high_pl1_index (i j l : Index) :
    (get_pl1_index (i.setWidth 64) (j.setWidth 64) (l.setWidth 64)).extractLsb' 47 17 =
      BitVec.allOnes 17 := by
  unfold get_pl1_index
  ext k hk
  interval_cases k <;> simp

theorem Slot.exposes {m : Machine} {page : Word} {path : List Index} {i : Index}
    (s : Slot m (entryAddress page (i.setWidth 64)) path i) (hlow : page.extractLsb' 0 12 = 0)
    (hhigh : page.extractLsb' 47 17 = BitVec.allOnes 17) :
    Exposes m (entryAddress page (i.setWidth 64)) path i :=
  ⟨canonical_entry i hlow hhigh, aligned_entry i hlow, s.translate, s.word⟩

/-! ## The page of an address -/

theorem lower_half_high {v : Word} (h : memory_is_lower_half v) : v >>> 47 = 0 := by
  have hle : v ≤ Lower_Half_End := of_decide_eq_true h
  apply BitVec.eq_of_toNat_eq
  have hnat : v.toNat ≤ 0x00007fffffffffff := hle
  rw [BitVec.toNat_ushiftRight, Nat.shiftRight_eq_div_pow]
  exact Nat.div_eq_of_lt (by omega)

theorem virt_from_indices_lower {v : Word} (h : memory_is_lower_half v) :
    virt_from_indices (pl4_index v) (pl3_index v) (pl2_index v) (pl1_index v) = align_as v Page_Small := by
  have hhigh := lower_half_high h
  unfold virt_from_indices pl4_index pl3_index pl2_index pl1_index align_as Page_Small
  ext k hk
  have hbit : 47 ≤ k → v.getLsbD k = false := by
    intro hk47
    have := congrArg (fun x : Word => x.getLsbD (k - 47)) hhigh
    simpa [show 47 + (k - 47) = k by omega] using this
  interval_cases k <;> simp_all

/-! ## The root at boot -/

theorem boot_fractal_entry_eq {init_pl4 : BitVec 32} (haligned : init_pl4.extractLsb' 0 12 = 0) :
    boot_fractal_entry init_pl4 = init_pl4.setWidth 64 ||| 0x8000000000000003 := by
  have hor : init_pl4 + 3#32 = init_pl4 ||| 3#32 := by
    rw [BitVec.add_eq_or_of_and_eq_zero]
    ext k hk
    have hbit := congrArg (fun x : BitVec 12 => x.getLsbD k) haligned
    simp only [BitVec.getLsbD_extractLsb', Nat.zero_add] at hbit
    interval_cases k <;> simp_all
  calc boot_fractal_entry init_pl4
    _ = (init_pl4 + 3#32).setWidth 64 ||| 0x8000000000000000 := rfl
    _ = init_pl4.setWidth 64 ||| (0x3 ||| 0x8000000000000000) := by
      rw [hor, BitVec.setWidth_or, BitVec.or_assoc]
      rfl

/-- The root that the boot code has set up maps itself. -/
theorem selfMapped_boot {m : Machine} {init_pl4 : BitVec 32} (haligned : init_pl4.extractLsb' 0 12 = 0)
    (hcr3 : m.cr3 = init_pl4.setWidth 64) (hentry : m.mem m.cr3 fractal = boot_fractal_entry init_pl4) :
    SelfMapped m := by
  have hlow : ∀ k < 12, init_pl4.getLsbD k = false := by
    intro k hk
    have hbit := congrArg (fun x : BitVec 12 => x.getLsbD k) haligned
    simpa [hk] using hbit
  unfold SelfMapped
  rw [hentry, boot_fractal_entry_eq haligned, hcr3]
  constructor
  · have hbit : (init_pl4.setWidth 64 ||| 0x8000000000000003 : Word) &&& Memory_Present = 1 := by
      ext k hk
      interval_cases k <;> simp [Memory_Present]
    rw [present, hbit]
    decide
  · unfold page_entry_to_phys Phys_Addr_Mask
    ext k hk
    by_cases hk12 : k < 12
    · have := hlow k hk12
      interval_cases k <;> simp_all
    · interval_cases k <;> simp_all

/-- The window shows every entry of the root and of the three tables on the walk of any address. -/
theorem window_exposes_tables {m : Machine} (h : SelfMapped m) (v : Word) {i : Word} (hi : i < 512) :
    Exposes m (entryAddress get_pl4 i) [] (i.setWidth 9) ∧
    Exposes m (entryAddress (get_pl3 v) i) [index4 v] (i.setWidth 9) ∧
    Exposes m (entryAddress (get_pl2 v) i) [index3 v, index4 v] (i.setWidth 9) ∧
    Exposes m (entryAddress (get_pl1 v) i) [index2 v, index3 v, index4 v] (i.setWidth 9) ∧
    (memory_is_lower_half v →
      virt_from_indices (pl4_index v) (pl3_index v) (pl2_index v) (pl1_index v) = align_as v Page_Small) := by
  obtain ⟨j, rfl⟩ : ∃ j : Index, i = j.setWidth 64 := by
    refine ⟨i.setWidth 9, ?_⟩
    apply BitVec.eq_of_toNat_eq
    have hnat : i.toNat < 512 := hi
    simp only [BitVec.toNat_setWidth]
    omega
  rw [BitVec.setWidth_setWidth_of_le _ (by decide), BitVec.setWidth_eq]
  refine ⟨?_, ?_, ?_, ?_, virt_from_indices_lower⟩
  · exact (slot_pl4_entry h j).exposes low_pl4 (by decide)
  · refine (slot_pl3_entry h v j).exposes (low_pl3_index _) ?_
    rw [get_pl3, pl4_index_eq]
    exact high_pl3_index _
  · refine (slot_pl2_entry h v j).exposes (low_pl2_index _ _) ?_
    rw [get_pl2, pl4_index_eq, pl3_index_eq]
    exact high_pl2_index _ _
  · refine (slot_pl1_entry h v j).exposes (low_pl1_index _ _ _) ?_
    rw [get_pl1, pl4_index_eq, pl3_index_eq, pl2_index_eq]
    exact high_pl1_index _ _ _

/-- The pivot page of the linked kernel, and the last entry of each table. -/
theorem linked_window_exposes_tables :
    linkedMachine.table [index2 0xffffffff800ff000, index3 0xffffffff800ff000, index4 0xffffffff800ff000] =
      some 0x4000 ∧
    linkedMachine.translate (entryAddress (get_pl1 0xffffffff800ff000) 511) = some 0x4000 ∧
    virt_from_indices (pl4_index 0x12345678) (pl3_index 0x12345678) (pl2_index 0x12345678)
      (pl1_index 0x12345678) = 0x12345000 := by
  have htable : linkedMachine.table
      [index2 0xffffffff800ff000, index3 0xffffffff800ff000, index4 0xffffffff800ff000] = some 0x4000 := by
    decide
  obtain ⟨-, -, -, hpl1, -⟩ :=
    window_exposes_tables linked_ready.self 0xffffffff800ff000 (show (511 : Word) < 512 by decide)
  obtain ⟨-, -, -, -, hpage⟩ :=
    window_exposes_tables linked_ready.self 0x12345678 (show (0 : Word) < 512 by decide)
  exact ⟨htable, hpl1.translate.trans htable, (hpage (by decide)).trans (by decide)⟩

end KernelOfTruth.Window
