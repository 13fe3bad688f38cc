import KernelOfTruth.Paging
import KernelOfTruth.Spec.PhysicalPages

/-! # The stack of free pages -/

open KernelOfTruth.Lib KernelOfTruth.Code KernelOfTruth.Spec KernelOfTruth.Bits KernelOfTruth.Rules
  KernelOfTruth.Window KernelOfTruth.Tables KernelOfTruth.Paging

namespace KernelOfTruth.PhysicalAllocator

variable {img : KernelImage}

/-! ## The pivot page -/

theorem pivot_aligned (img : KernelImage) : (Kernel_Pivot_Page img).toNat % 4096 = 0 := by
  have h := (is_aligned_iff _).mp img.start_aligned
  rw [pivot_toNat]
  omega

theorem pivot_low (img : KernelImage) : (Kernel_Pivot_Page img).extractLsb' 0 12 = 0 := by
  apply BitVec.eq_of_toNat_eq
  simpa using pivot_aligned img

theorem stackNext_eq (img : KernelImage) :
    stackNext img = entryAddress (Kernel_Pivot_Page img) ((0 : Index).setWidth 64) := by
  simp [stackNext, entryAddress]

theorem stackLength_eq (img : KernelImage) :
    stackLength img = entryAddress (Kernel_Pivot_Page img) ((1 : Index).setWidth 64) := by
  simp [stackLength, entryAddress]

/-- The pivot page is mapped to the frame `g`. -/
def PivotAt (img : KernelImage) (pt : PivotTables) (m : Machine) (g : Word) : Prop :=
  present (m.mem pt.f1 (pivotIndex img)) ∧ page_entry_to_phys (m.mem pt.f1 (pivotIndex img)) = g

variable {pt : PivotTables} {m m' : Machine}

/-- The entries that the walk of the pivot page and of the window reads, but for the last one. -/
def UpperSlot (img : KernelImage) (pt : PivotTables) (m : Machine) (f : Word) (i : Index) : Prop :=
  (f = m.cr3 ∧ (i = fractal ∨ i = index4 (Kernel_Pivot_Page img))) ∨
  (f = pt.f3 ∧ i = index3 (Kernel_Pivot_Page img)) ∨ (f = pt.f2 ∧ i = index2 (Kernel_Pivot_Page img))

theorem ready_congr (h : PivotReady img pt m) (hcr3 : m'.cr3 = m.cr3)
    (hmem : ∀ f i, UpperSlot img pt m f i → m'.mem f i = m.mem f i) : PivotReady img pt m' := by
  have e0 := hmem m.cr3 fractal (by simp [UpperSlot])
  have e4 := hmem m.cr3 (index4 (Kernel_Pivot_Page img)) (by simp [UpperSlot])
  have e3 := hmem pt.f3 (index3 (Kernel_Pivot_Page img)) (by simp [UpperSlot])
  have e2 := hmem pt.f2 (index2 (Kernel_Pivot_Page img)) (by simp [UpperSlot])
  have t0 : m'.table [] = some m.cr3 := by simp [Machine.table, hcr3]
  have t3 : m'.table [index4 (Kernel_Pivot_Page img)] = some pt.f3 := by
    rw [← h.t3, table_cons_some t0, table_cons_some (m := m) (p := []) rfl, e4]
  have t2 : m'.table [index3 (Kernel_Pivot_Page img), index4 (Kernel_Pivot_Page img)] = some pt.f2 := by
    rw [← h.t2, table_cons_some t3, table_cons_some h.t3, e3]
  refine ⟨?_, t3, t2, ?_, ?_, h.ne3, h.ne2⟩
  · rw [SelfMapped, hcr3, e0]; exact h.self
  · rw [← h.t1, table_cons_some t2, table_cons_some h.t2, e2]
  · rw [hcr3]; exact h.ne4

theorem UpperSlot.onPivotPath {f : Word} {i : Index} (h : UpperSlot img pt m f i) : OnPivotPath pt m f := by
  unfold UpperSlot at h
  unfold OnPivotPath
  tauto

theorem ready_upper_ne (h : PivotReady img pt m) {f : Word} {i : Index} (hu : UpperSlot img pt m f i) :
    f ≠ pt.f1 := by
  have := h.ne4
  have := h.ne3
  have := h.ne2
  rintro rfl
  unfold UpperSlot at hu
  tauto

theorem ready_setWord (h : PivotReady img pt m) {f : Word} {i : Index} (hf : ¬ UpperSlot img pt m f i)
    (v : Word) : PivotReady img pt { m with mem := setWord m.mem f i v } := by
  refine ready_congr h rfl fun g j hg => ?_
  have : ¬ (g = f ∧ j = i) := by rintro ⟨rfl, rfl⟩; exact hf hg
  simp [Code.setWord, this]

theorem ready_setLeaf (h : PivotReady img pt m) (v : Word) :
    PivotReady img pt { m with mem := Code.setWord m.mem pt.f1 (pivotIndex img) v } :=
  ready_setWord h (fun hu => ready_upper_ne h hu rfl) v

theorem translate_pivot (h : PivotReady img pt m) {g : Word} (hg : PivotAt img pt m g) :
    m.translate (Kernel_Pivot_Page img) = some g := by
  rw [Machine.translate, pagePath, table_cons_some h.t1]
  have := hg.1
  simp only [pivotIndex] at this
  rw [if_pos this, ← hg.2]
  rfl

section Rules

variable {g : Word} {E : Halt → Prop}

theorem translate_next (h : PivotReady img pt m) (hg : PivotAt img pt m g) :
    m.translate (stackNext img) = some g ∧ wordIndex (stackNext img) = 0 := by
  rw [stackNext_eq, Machine.translate, pagePath_entryAddress _ _ (pivot_low img),
    wordIndex_entryAddress _ _ (pivot_low img)]
  exact ⟨translate_pivot h hg, rfl⟩

theorem translate_length (h : PivotReady img pt m) (hg : PivotAt img pt m g) :
    m.translate (stackLength img) = some g ∧ wordIndex (stackLength img) = 1 := by
  rw [stackLength_eq, Machine.translate, pagePath_entryAddress _ _ (pivot_low img),
    wordIndex_entryAddress _ _ (pivot_low img)]
  exact ⟨translate_pivot h hg, rfl⟩

theorem wp_load_next {Q : Word → Machine → Prop} (h : PivotReady img pt m) (hg : PivotAt img pt m g) :
    wp (load (stackNext img)) Q E m ↔ Q (nextOf m.mem g) m := by
  rw [wp_load (translate_next h hg).1, (translate_next h hg).2]; rfl

theorem wp_load_length {Q : Word → Machine → Prop} (h : PivotReady img pt m) (hg : PivotAt img pt m g) :
    wp (load (stackLength img)) Q E m ↔ Q (lengthOf m.mem g) m := by
  rw [wp_load (translate_length h hg).1, (translate_length h hg).2]; rfl

theorem wp_store_next {Q : Unit → Machine → Prop} {v : Word} (h : PivotReady img pt m)
    (hg : PivotAt img pt m g) :
    wp (store (stackNext img) v) Q E m ↔ Q () { m with mem := setWord m.mem g 0 v } := by
  rw [wp_store (translate_next h hg).1, (translate_next h hg).2]

theorem wp_store_length {Q : Unit → Machine → Prop} {v : Word} (h : PivotReady img pt m)
    (hg : PivotAt img pt m g) :
    wp (store (stackLength img) v) Q E m ↔ Q () { m with mem := setWord m.mem g 1 v } := by
  rw [wp_store (translate_length h hg).1, (translate_length h hg).2]

theorem wp_unmap_pivot {Q : Unit → Machine → Prop} (h : PivotReady img pt m) :
    wp (unmap_pivot img) Q E m ↔
      Q () { m with mem := setWord m.mem pt.f1 (pivotIndex img) free_page_entry } :=
  wp_unmap_page_present h.self h.t3 h.t2 h.t1

theorem writable_not_refused (v : Word) : permissionsRefused v Memory_Writable = false := by
  have h1 : (Memory_Writable &&& Memory_No_Execute == 0) = false := by decide
  have h2 : (Memory_Writable &&& Memory_User_Access != 0) = false := by decide
  simp only [permissionsRefused, h1, h2, Bool.and_false, Bool.or_false]

theorem wp_map_pivot {Q : Status → Machine → Prop} {p : Word} (h : PivotReady img pt m)
    (habs : present (m.mem pt.f1 (pivotIndex img)) = false) :
    wp (map_pivot img p) Q E m ↔
      Q .Ok { m with mem := setWord m.mem pt.f1 (pivotIndex img) (leafEntry p Memory_Writable) } := by
  unfold map_pivot
  rw [wp_map_page_present h.self h.t3 h.t2 h.t1, writable_not_refused]
  simp only [pivotIndex] at habs
  simp [habs, pivotIndex]

end Rules

/-! ## One allocation -/

theorem free_entry_absent : present free_page_entry = false := by decide

/-- The machine after the pivot page has been mapped to `p`. -/
def pivotTo (img : KernelImage) (pt : PivotTables) (m : Machine) (p : Word) : Machine :=
  { m with mem := setWord m.mem pt.f1 (pivotIndex img)
                    (if p = invalid_phys_addr then free_page_entry else leafEntry p Memory_Writable) }

theorem setWord_setWord (mem : Word → Index → Word) (f : Word) (i : Index) (v w : Word) :
    setWord (setWord mem f i v) f i w = setWord mem f i w := by
  funext g j
  by_cases h : g = f ∧ j = i <;> simp [setWord, h]

theorem wp_popRange {Q : Word → Machine → Prop} {E : Halt → Prop} (h : PivotReady img pt m)
    (hg : PivotAt img pt m m.physical_page) (hne : m.physical_page ≠ nextOf m.mem m.physical_page) :
    wp (popRange img) Q E m ↔ Q m.physical_page
      { pivotTo img pt m (nextOf m.mem m.physical_page) with physical_page := nextOf m.mem m.physical_page } := by
  unfold popRange
  simp only [wp_bind, wp_get, wp_load_next h hg, wp_unmap_pivot h]
  generalize hnext : nextOf m.mem m.physical_page = next at *
  have hr : PivotReady img pt { m with mem := setWord m.mem pt.f1 (pivotIndex img) free_page_entry } :=
    ready_setLeaf h _
  have habs : present ((setWord m.mem pt.f1 (pivotIndex img) free_page_entry) pt.f1 (pivotIndex img)) = false := by
    simp [setWord, free_entry_absent]
  by_cases hinv : next = invalid_phys_addr
  · subst hinv
    simp [pivotTo, hne, wp_assert]
  · simp [hinv, wp_map_pivot hr habs, setWord_setWord, pivotTo, wp_assert, hne]

/-- The top range without its last page, which may be the page of its header. -/
def shrunk (m : Machine) : Machine :=
  { m with mem := setWord m.mem m.physical_page 1 (lengthOf m.mem m.physical_page - Page_Small) }

@[simp] theorem shrunk_physical_page (m : Machine) : (shrunk m).physical_page = m.physical_page := rfl

theorem shrunk_length (m : Machine) :
    lengthOf (shrunk m).mem m.physical_page = lengthOf m.mem m.physical_page - Page_Small := by
  simp [shrunk, lengthOf, setWord]

theorem shrunk_next (m : Machine) : nextOf (shrunk m).mem m.physical_page = nextOf m.mem m.physical_page := by
  simp [shrunk, nextOf, setWord]

theorem pivotAt_setWord {g f : Word} {i : Index} {v : Word} (hf : f ≠ pt.f1) (hg : PivotAt img pt m g) :
    PivotAt img pt { m with mem := setWord m.mem f i v } g := by
  have : ¬ (pt.f1 = f ∧ pivotIndex img = i) := fun h => hf h.1.symm
  simpa [PivotAt, setWord, this] using hg

theorem sub_page {len : Word} (h : 4096 ≤ len.toNat) : (len - Page_Small).toNat = len.toNat - 4096 := by
  have := len.isLt
  simp [Page_Small]
  omega

theorem wp_physical_alloc {Q : Word → Machine → Prop} {E : Halt → Prop} (h : PivotReady img pt m)
    (hg : PivotAt img pt m m.physical_page) (hoff : ¬ OnPivotPath pt m m.physical_page)
    (hr : (⟨m.physical_page, lengthOf m.mem m.physical_page⟩ : PageRange).Good)
    (hne : m.physical_page ≠ nextOf m.mem m.physical_page) :
    wp (physical_alloc img) Q E m ↔
      if lengthOf m.mem m.physical_page = Page_Small then
        Q m.physical_page { pivotTo img pt (shrunk m) (nextOf m.mem m.physical_page) with
          physical_page := nextOf m.mem m.physical_page }
      else Q (m.physical_page + (lengthOf m.mem m.physical_page - Page_Small)) (shrunk m) := by
  obtain ⟨hstart, hlen, hpos, hbelow⟩ := hr
  simp only at hstart hlen hpos hbelow
  have hpage : m.physical_page.toNat % 4096 = 0 := (is_aligned_iff _).mp hstart
  have hlen' : (lengthOf m.mem m.physical_page).toNat % 4096 = 0 := (is_aligned_iff _).mp hlen
  have h1 : PivotReady img pt (shrunk m) := ready_setWord h (fun hu => hoff hu.onPivotPath) _
  have hg1 : PivotAt img pt (shrunk m) m.physical_page :=
    pivotAt_setWord (by unfold OnPivotPath at hoff; tauto) hg
  have hlen1 := shrunk_length m
  have hnext1 := shrunk_next m
  unfold physical_alloc
  simp only [wp_bind, wp_load_length h hg, wp_assert hlen, wp_store_length h hg]
  change wp (load (stackLength img)) _ E (shrunk m) ↔ _
  rw [wp_load_length h1 hg1, hlen1]
  by_cases hlast : lengthOf m.mem m.physical_page = Page_Small
  · have hzero : lengthOf m.mem m.physical_page - Page_Small = 0 := by rw [hlast]; rfl
    rw [if_pos hzero, if_pos hlast, wp_popRange h1 hg1 (by rw [shrunk_physical_page, hnext1]; exact hne),
      shrunk_physical_page, hnext1, wp_assert (by simpa using (and_low_eq_zero _).mpr hpage)]
    have hhigh := (and_high_eq_zero m.physical_page).mpr (by omega)
    rw [wp_assert (by simpa using hhigh), wp_get, wp_assert (by simpa using hne), wp_pure]
  · have hlt : 4096 < (lengthOf m.mem m.physical_page).toNat := by
      have : (lengthOf m.mem m.physical_page).toNat ≠ 4096 := fun e => hlast (BitVec.eq_of_toNat_eq e)
      omega
    have hsub := sub_page (le_of_lt hlt)
    have hphys : (m.physical_page + (lengthOf m.mem m.physical_page - Page_Small)).toNat =
        m.physical_page.toNat + ((lengthOf m.mem m.physical_page).toNat - 4096) := by
      rw [BitVec.toNat_add, hsub]; omega
    have hzero : ¬ lengthOf m.mem m.physical_page - Page_Small = 0 := by
      intro h0
      rw [h0] at hsub
      simp at hsub
      omega
    rw [if_neg hzero, if_neg hlast]
    unfold takeLast
    simp only [wp_bind, wp_load_length h1 hg1, wp_get, wp_pure, hlen1, shrunk_physical_page]
    rw [wp_assert (by simpa using (and_low_eq_zero _).mpr (by rw [hphys]; omega)),
      wp_assert (by simpa using (and_high_eq_zero _).mpr (by rw [hphys]; omega)), wp_assert]
    rw [decide_eq_true_iff]
    intro heq
    have := congrArg BitVec.toNat heq
    rw [hphys, shrunk_physical_page] at this
    omega

/-! ## One call of `physical_free_range` -/

theorem good_ne_invalid {r : PageRange} (hr : r.Good) : r.start ≠ invalid_phys_addr := by
  intro h
  have hal := (is_aligned_iff _).mp hr.start_aligned
  rw [h] at hal
  exact absurd hal (by decide)

theorem good_isFrame {r : PageRange} (hr : r.Good) : IsFrame r.start := by
  have hal := (is_aligned_iff _).mp hr.start_aligned
  have := hr.below
  exact page_entry_aligned hal (by omega)

theorem pivotTo_at {p : Word} (hp : IsFrame p) (hne : p ≠ invalid_phys_addr) :
    PivotAt img pt (pivotTo img pt m p) p := by
  have hperms : Memory_Writable &&& Memory_Permissions_Mask = Memory_Writable := by decide
  unfold PivotAt
  simp only [pivotTo, setWord, and_self, if_true, if_neg hne]
  exact ⟨leafEntry_present _ _, leafEntry_phys hp hperms⟩

theorem pivotTo_ready (h : PivotReady img pt m) (p : Word) : PivotReady img pt (pivotTo img pt m p) :=
  ready_setLeaf h _

/-- The machine after the range of `length` bytes at `address` has been put on the stack. -/
def pushed (img : KernelImage) (pt : PivotTables) (m : Machine) (address length : Word) : Machine :=
  { pivotTo img pt m address with
    mem := setWord (setWord (pivotTo img pt m address).mem address 0 m.physical_page) address 1 length
    physical_page := address }

theorem wp_physical_free_range {Q : Unit → Machine → Prop} {E : Halt → Prop} {address length : Word}
    (h : PivotReady img pt m) (hoff : ¬ OnPivotPath pt m address)
    (hr : (⟨address, length⟩ : PageRange).Good) :
    wp (physical_free_range img address length) Q E m ↔ Q () (pushed img pt m address length) := by
  have hne : address ≠ invalid_phys_addr := good_ne_invalid hr
  have hframe : IsFrame address := good_isFrame hr
  obtain ⟨hstart, hlen, hpos, hbelow⟩ := hr
  simp only at hstart hlen hpos hbelow
  have hstart' := (is_aligned_iff _).mp hstart
  have hlen' := (is_aligned_iff _).mp hlen
  have hsum : (address + length).toNat = address.toNat + length.toNat := by
    rw [BitVec.toNat_add]; omega
  have hlow := (and_low_eq_zero _).mpr hstart'
  have hlow' := (and_low_eq_zero _).mpr hlen'
  have hhigh := (and_high_eq_zero address).mpr (by omega)
  have hhigh' := (and_high_eq_zero (address + length)).mpr (by omega)
  have hpos' : 0 < length := by rw [BitVec.lt_def]; exact hpos
  have habs : present ((setWord m.mem pt.f1 (pivotIndex img) free_page_entry) pt.f1 (pivotIndex img)) = false := by
    simp [setWord, free_entry_absent]
  have h1 := pivotTo_ready h address
  have hg1 : PivotAt img pt (pivotTo img pt m address) address := pivotTo_at hframe hne
  have hf1 : address ≠ pt.f1 := by unfold OnPivotPath at hoff; tauto
  have h2 : PivotReady img pt { pivotTo img pt m address with
      mem := setWord (pivotTo img pt m address).mem address 0 m.physical_page } :=
    ready_setWord h1 (fun hu => hoff hu.onPivotPath) _
  have hg2 := pivotAt_setWord (i := 0) (v := m.physical_page) hf1 hg1
  have hto : { m with mem := setWord m.mem pt.f1 (pivotIndex img) (leafEntry address Memory_Writable) } =
      pivotTo img pt m address := by simp [pivotTo, hne]
  unfold physical_free_range
  simp only [wp_bind, wp_assert hstart, wp_assert hlen, wp_assert_decide hlow,
    wp_assert_decide hlow', wp_assert_decide hpos', wp_assert_decide hhigh,
    wp_assert_decide hhigh', wp_get, wp_unmap_pivot h, wp_map_pivot (ready_setLeaf h _) habs,
    setWord_setWord, hto, wp_assert_decide trivial, wp_store_next h1 hg1,
    wp_store_length h2 hg2, wp_modify]
  exact Iff.rfl

end KernelOfTruth.PhysicalAllocator
