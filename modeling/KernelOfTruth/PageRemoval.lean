import KernelOfTruth.PageStack

/-!
# A page is taken out of the stack

The loop maps one header after the other at the pivot page, and comes to the end of the stack with the status of its last
`map_page`. Where it finds the page to remove, it reads a header after it has unmapped the pivot page. So a call that
returns has changed nothing.
-/

open KernelOfTruth.Lib KernelOfTruth.Code KernelOfTruth.Spec KernelOfTruth.Rules KernelOfTruth.Window
  KernelOfTruth.Paging KernelOfTruth.PhysicalAllocator KernelOfTruth.PageStack

namespace KernelOfTruth.PageRemoval

variable {img : KernelImage} {pt : PivotTables} {m m' : Machine} {free : Set Word} {address : Word}

/-! ## The entry of the pivot page -/

/-- The machine with another entry for the pivot page. -/
def withPivot (img : KernelImage) (pt : PivotTables) (m : Machine) (v : Word) : Machine :=
  { m with mem := setWord m.mem pt.f1 (pivotIndex img) v }

theorem withPivot_self : withPivot img pt m (m.mem pt.f1 (pivotIndex img)) = m := by
  have hmem : setWord m.mem pt.f1 (pivotIndex img) (m.mem pt.f1 (pivotIndex img)) = m.mem := by
    funext f i
    unfold setWord
    split
    · rename_i h
      rw [h.1, h.2]
    · rfl
  unfold withPivot
  rw [hmem]

theorem withPivot_withPivot (v w : Word) : withPivot img pt (withPivot img pt m v) w = withPivot img pt m w := by
  unfold withPivot
  rw [setWord_setWord]

theorem withPivot_ready (h : PivotReady img pt m) (v : Word) : PivotReady img pt (withPivot img pt m v) :=
  ready_setLeaf h v

theorem withPivot_mem {f : Word} (hf : f ≠ pt.f1) (v : Word) : (withPivot img pt m v).mem f = m.mem f := by
  funext i
  exact if_neg fun h => hf h.1

theorem withPivot_entry (v : Word) : (withPivot img pt m v).mem pt.f1 (pivotIndex img) = v := if_pos ⟨rfl, rfl⟩

theorem withPivot_absent : present ((withPivot img pt m free_page_entry).mem pt.f1 (pivotIndex img)) = false := by
  rw [withPivot_entry]
  exact free_entry_absent

theorem withPivot_at {p len : Word} (hr : (⟨p, len⟩ : PageRange).Good) :
    PivotAt img pt (withPivot img pt m (leafEntry p Memory_Writable)) p := by
  have hne : p ≠ invalid_phys_addr := good_ne_invalid hr
  have h : PivotAt img pt (pivotTo img pt m p) p := pivotTo_at (good_isFrame hr) hne
  unfold pivotTo at h
  rwa [if_neg hne] at h

section Rules

variable {E : Halt → Prop} {Q : Unit → Machine → Prop}

theorem wp_unmap (h : PivotReady img pt m) :
    wp (unmap_pivot img) Q E m ↔ Q () (withPivot img pt m free_page_entry) := wp_unmap_pivot h

theorem wp_unmap_withPivot (h : PivotReady img pt m) (v : Word) :
    wp (unmap_pivot img) Q E (withPivot img pt m v) ↔ Q () (withPivot img pt m free_page_entry) := by
  rw [wp_unmap (withPivot_ready h v), withPivot_withPivot]

theorem wp_map_withPivot {Q : Status → Machine → Prop} (h : PivotReady img pt m) (p : Word) :
    wp (map_pivot img p) Q E (withPivot img pt m free_page_entry) ↔
      Q .Ok (withPivot img pt m (leafEntry p Memory_Writable)) := by
  rw [wp_map_pivot (withPivot_ready h _) withPivot_absent]
  exact iff_of_eq (congrArg (Q .Ok) (withPivot_withPivot free_page_entry _))

theorem wp_load_absent {Q : Word → Machine → Prop} {a : Word} (h : m.translate a = none) :
    wp (load a) Q E m ↔ E .page_fault := by
  unfold load access
  simp only [wp_bind, wp_get, h, wp_throw]

/-- No header can be read when the pivot page is not mapped. -/
theorem wp_load_next_absent {Q : Word → Machine → Prop} (h : PivotReady img pt m) :
    wp (load (stackNext img)) Q E (withPivot img pt m free_page_entry) ↔ E .page_fault := by
  apply wp_load_absent
  rw [stackNext_eq, Machine.translate, pagePath_entryAddress _ _ (pivot_low img), pagePath,
    Tables.table_cons_some (withPivot_ready h _).t1]
  exact if_neg (Bool.eq_false_iff.mp withPivot_absent)

theorem wp_unlinkNext (h : PivotReady img pt m) (v current : Word) :
    wp (unlinkNext img current) Q E (withPivot img pt m v) ↔ E .page_fault := by
  unfold unlinkNext
  rw [wp_bind, wp_unmap_withPivot h, wp_bind, wp_load_next_absent h]

end Rules

/-! ## The loop -/

theorem wp_removeLoop (h : PivotReady img pt m) {rs : List PageRange} {current : Word} (hchain : Chain m.mem current rs)
    (hgood : ∀ r ∈ rs, r.Good) (hoff : ∀ r ∈ rs, r.start ≠ pt.f1) (address : Word) (rounds : Nat) (status : Status)
    (v : Word) :
    wp (removeLoop img address rounds current status)
      (fun result m' => result = (if current = invalid_phys_addr then status else .Ok) ∧ ∃ w, m' = withPivot img pt m w)
      (fun _ => True) (withPivot img pt m v) := by
  induction rounds generalizing current rs status v with
  | zero =>
    unfold removeLoop
    rw [wp_throw]
    trivial
  | succ rounds ih =>
    unfold removeLoop
    cases hchain with
    | nil =>
      rw [if_pos rfl, if_pos rfl, wp_pure]
      exact ⟨rfl, v, rfl⟩
    | @cons _ rs hp hchain =>
      have hat : PivotAt img pt (withPivot img pt m (leafEntry current Memory_Writable)) current :=
        withPivot_at (hgood _ (List.mem_cons_self ..))
      have hnext : nextOf (withPivot img pt m (leafEntry current Memory_Writable)).mem current = nextOf m.mem current :=
        congrFun (withPivot_mem (hoff _ (List.mem_cons_self ..)) _) 0
      have hready := withPivot_ready h (leafEntry current Memory_Writable)
      rw [if_neg hp, if_neg hp, wp_bind, wp_unmap_withPivot h, wp_bind, wp_map_withPivot h, wp_bind,
        wp_assert_decide rfl, wp_bind, wp_load_next hready hat, wp_bind, wp_load_next hready hat, hnext]
      split
      · rw [wp_bind, wp_unlinkNext h]
        trivial
      · refine wp_imp (ih hchain (fun r hr => hgood r (List.mem_cons_of_mem _ hr))
          (fun r hr => hoff r (List.mem_cons_of_mem _ hr)) .Ok _) ?_
        rintro result m' ⟨hresult, hm'⟩
        rw [ite_self] at hresult
        exact ⟨hresult, hm'⟩

/-! ## The call -/

theorem start_ne_table (h : StackInv img pt m free) {rs : List PageRange} (hgood : ∀ r ∈ rs, r.Good)
    (hunion : ∀ f, f ∈ free ↔ ∃ r ∈ rs, f ∈ r.pages) : ∀ r ∈ rs, r.start ≠ pt.f1 := by
  intro r hr heq
  have hfree : r.start ∈ free := (hunion _).mpr ⟨r, hr, start_mem_pages (hgood r hr)⟩
  exact h.apart _ hfree (.inr (.inr (.inr heq)))

theorem wp_physical_page_remove (h : StackInv img pt m free) (rounds : Nat) :
    wp (physical_page_remove img rounds address)
      (fun status m' => status = (if m.physical_page = invalid_phys_addr then .Error_Absent else .Ok) ∧
        m' = withPivot img pt m (leafEntry m.physical_page Memory_Writable)) (fun _ => True) m := by
  obtain ⟨rs, hchain, hgood, -, hunion⟩ := h.holds
  have hoff := start_ne_table h hgood hunion
  unfold physical_page_remove
  rw [wp_bind]
  refine wp_assert_partial ?_
  rw [wp_bind, wp_get, wp_bind]
  have hloop := wp_removeLoop h.ready hchain hgood hoff address rounds .Error_Absent (m.mem pt.f1 (pivotIndex img))
  rw [withPivot_self] at hloop
  refine wp_imp hloop ?_
  rintro status _ ⟨hstatus, w, rfl⟩
  rw [wp_bind, wp_unmap_withPivot h.ready, wp_bind, wp_map_withPivot h.ready, wp_bind, wp_assert_decide rfl, wp_pure]
  exact ⟨hstatus, rfl⟩

/-- The loop has nothing to do. -/
theorem wp_remove_empty (h : PivotReady img pt m) (hempty : m.physical_page = invalid_phys_addr)
    (haligned : is_aligned address Page_Small) (E : Halt → Prop) :
    wp (physical_page_remove img 1 address)
      (fun status m' => status = .Error_Absent ∧ m' = withPivot img pt m (leafEntry m.physical_page Memory_Writable)) E m := by
  unfold physical_page_remove removeLoop
  rw [wp_bind, wp_assert haligned, wp_bind, wp_get, wp_bind, wp_ite, if_pos hempty, wp_pure, wp_bind, wp_unmap h, wp_bind,
    wp_map_withPivot h, wp_bind, wp_assert_decide rfl, wp_pure]
  exact ⟨rfl, rfl⟩

/-- What the call leaves is the stack that there was. -/
theorem remapped_inv (h : StackInv img pt m free) :
    StackInv img pt (withPivot img pt m (leafEntry m.physical_page Memory_Writable)) free := by
  obtain ⟨rs, hchain, hgood, hpair, hunion⟩ := h.holds
  refine ⟨withPivot_ready h.ready _, ⟨rs, ?_, hgood, hpair, hunion⟩, ?_, h.apart⟩
  · exact chain_congr hchain fun r hr => withPivot_mem (start_ne_table h hgood hunion r hr) _
  · intro hvalid
    generalize hp : m.physical_page = p at hchain
    cases hchain with
    | nil => exact absurd hp hvalid
    | cons =>
      subst hp
      exact withPivot_at (hgood _ (List.mem_cons_self ..))

theorem chain_unique {mem : Word → Index → Word} {p : Word} {rs rs' : List PageRange} (h : Chain mem p rs)
    (h' : Chain mem p rs') : rs = rs' := by
  induction h generalizing rs' with
  | nil =>
    cases h' with
    | nil => rfl
    | cons hp => exact absurd rfl hp
  | cons hp _ ih =>
    cases h' with
    | nil => exact absurd rfl hp
    | cons _ hnext => rw [ih hnext]

/-- The headers say which pages are free. -/
theorem holds_unique {free' : Set Word} (h : Holds m free) (h' : Holds m free') : free = free' := by
  obtain ⟨rs, hchain, -, -, hunion⟩ := h
  obtain ⟨rs', hchain', -, -, hunion'⟩ := h'
  obtain rfl := chain_unique hchain hchain'
  ext f
  rw [hunion, hunion']

theorem empty_iff (h : StackInv img pt m free) : free = ∅ ↔ m.physical_page = invalid_phys_addr := by
  obtain ⟨rs, hchain, hgood, -, hunion⟩ := h.holds
  generalize m.physical_page = p at hchain
  cases hchain with
  | nil =>
    refine ⟨fun _ => rfl, fun _ => Set.eq_empty_iff_forall_notMem.mpr fun f hf => ?_⟩
    obtain ⟨r, hr, -⟩ := (hunion f).mp hf
    exact absurd hr List.not_mem_nil
  | cons hp =>
    refine ⟨fun hempty => ?_, fun heq => absurd heq hp⟩
    have hfree := (hunion p).mpr ⟨_, List.mem_cons_self .., start_mem_pages (hgood _ (List.mem_cons_self ..))⟩
    exact absurd hfree (hempty ▸ Set.notMem_empty p)

/-! ## Runs -/

theorem remove_inv {w : World} (h : WorldInv img pt w) {free' : Set Word} {rounds : Nat} {status : Status}
    (hrun : (physical_page_remove img rounds address).run w.machine = .ok (status, m')) (hholds : Holds m' free') :
    WorldInv img pt ⟨m', free', w.allocated ∪ w.free \ free'⟩ := by
  obtain ⟨-, rfl⟩ := wp_ok (wp_physical_page_remove h.stack rounds) hrun
  have hstack := remapped_inv h.stack
  obtain rfl := holds_unique hholds hstack.holds
  refine ⟨hstack, ?_⟩
  rw [Set.sdiff_self, Set.union_empty]
  exact h.held

theorem stepOrRemove_inv {w₀ w : World} (hstart : w₀.Start img pt)
    (hrun : Relation.ReflTransGen (World.StepOrRemove img pt) w₀ w) : WorldInv img pt w := by
  induction hrun with
  | refl => exact start_inv hstart
  | tail _ hstep ih =>
    cases hstep with
    | step hstep => exact step_inv ih hstep
    | remove rounds address hremove hholds => exact remove_inv ih hremove hholds

/-- A page is removed, or reported to be absent, only if no page is free. -/
theorem removes_page_iff {w₀ w : World} (hstart : w₀.Start img pt)
    (hrun : Relation.ReflTransGen (World.StepOrRemove img pt) w₀ w) (address : Word)
    (haligned : is_aligned address Page_Small) : w.RemovesPage img address ↔ w.free = ∅ := by
  have hstack := (stepOrRemove_inv hstart hrun).stack
  constructor
  · rintro ⟨rounds, status, m', hcall, hresult, -⟩
    obtain ⟨hstatus, rfl⟩ := wp_ok (wp_physical_page_remove hstack rounds) hcall
    by_contra hfree
    rw [if_neg (mt (empty_iff hstack).mpr hfree)] at hstatus
    subst hstatus
    rcases hresult with ⟨-, hmem, hholds⟩ | ⟨habsurd, -⟩
    · -- the page is still there
      have heq := holds_unique hholds (remapped_inv hstack).holds
      exact (heq ▸ hmem).2 rfl
    · cases habsurd
  · intro hfree
    have hempty := (empty_iff hstack).mp hfree
    obtain ⟨status, m', hcall, rfl, rfl⟩ := wp_total (wp_remove_empty hstack.ready hempty haligned _)
    refine ⟨1, _, _, hcall, .inr ⟨rfl, ?_, (remapped_inv hstack).holds⟩, fun hvalid => absurd hempty hvalid⟩
    rw [hfree]
    exact Set.notMem_empty address

theorem nothing_to_remove : World.RemovesPage linkedImage ⟨linkedMachine, ∅, ∅⟩ 0x200000 :=
  (removes_page_iff linked_start .refl 0x200000 (by decide)).mpr rfl

/-! ## Two ranges -/

def twoPages : Machine := pushed linkedImage linkedTables linkedMachine 0x300000 0x2000

def threePages : Machine := pushed linkedImage linkedTables twoPages 0x200000 Page_Small

theorem two_pages_mayFree : World.MayFree linkedTables ⟨linkedMachine, ∅, ∅⟩ ⟨0x300000, 0x2000⟩ := by
  refine ⟨by decide, by decide, by decide, by decide, by simp, ?_⟩
  intro f hf hpath
  rw [mem_pages] at hf
  rcases hpath with rfl | rfl | rfl | rfl <;> simp [linkedMachine, linkedTables] at hf

theorem one_more_mayFree {allocated : Set Word} :
    World.MayFree linkedTables ⟨twoPages, ∅ ∪ (⟨0x300000, 0x2000⟩ : PageRange).pages, allocated⟩ ⟨0x200000, Page_Small⟩ := by
  refine ⟨by decide, by decide, by decide, by decide, ?_, ?_⟩
  · rw [Set.empty_union, Set.disjoint_left]
    intro f hf hother
    rw [mem_pages_one (by decide)] at hf
    rw [mem_pages, hf] at hother
    exact absurd hother (by decide)
  · intro f hf hpath
    rw [mem_pages_one (by decide)] at hf
    subst hf
    have hcr3 : twoPages.cr3 = 0x1000 := rfl
    rcases hpath with h | h | h | h <;> simp [hcr3, linkedTables] at h

theorem free_range_pushed {w : World} (h : StackInv img pt w.machine w.free) {r : PageRange} (hmay : w.MayFree pt r)
    (hbelow : r.start.toNat + r.length.toNat < 2 ^ 48) :
    (physical_free_range img r.start r.length).run w.machine = .ok ((), pushed img pt w.machine r.start r.length) := by
  have hgood : r.Good := ⟨hmay.start_aligned, hmay.length_aligned, hmay.nonempty, hbelow⟩
  exact run_eq_ok_iff.mpr ((wp_physical_free_range h.ready (hmay.apart _ (start_mem_pages hgood)) hgood).mpr ⟨rfl, rfl⟩)

/-- A range of two pages is freed, and then one page. -/
theorem three_pages_run :
    Relation.ReflTransGen (World.StepOrRemove linkedImage linkedTables) ⟨linkedMachine, ∅, ∅⟩
      ⟨threePages, ∅ ∪ (⟨0x300000, 0x2000⟩ : PageRange).pages ∪ {0x200000},
        (∅ \ (⟨0x300000, 0x2000⟩ : PageRange).pages) \ {0x200000}⟩ := by
  have hfirst := free_range_pushed (start_inv linked_start).stack two_pages_mayFree (by decide)
  have hstep := World.Step.free_range _ _ two_pages_mayFree hfirst
  have hinv := step_inv (start_inv linked_start) hstep
  have hsecond := free_range_pushed hinv.stack one_more_mayFree (by decide)
  exact (Relation.ReflTransGen.single (.step hstep)).tail (.step (.free _ one_more_mayFree hsecond))

/-- The page on top is removed with status `Ok`, and is the next to be handed out. A page within a range is removed in
the same way. The page that heads the second range leads to a page fault. -/
theorem removed_page_handed_out : ∃ w,
    Relation.ReflTransGen (World.StepOrRemove linkedImage linkedTables) ⟨linkedMachine, ∅, ∅⟩ w ∧ 0x200000 ∈ w.free ∧
      ((do
        let status ← physical_page_remove linkedImage 3 0x200000
        let page ← physical_alloc linkedImage
        pure (status, page)).run w.machine).map Prod.fst = .ok (.Ok, 0x200000) ∧
      ((physical_page_remove linkedImage 3 0x301000).run w.machine).map Prod.fst = .ok .Ok ∧
      ((physical_page_remove linkedImage 3 0x300000).run w.machine).map Prod.fst = .error .page_fault :=
  ⟨_, three_pages_run, .inr rfl, by decide +kernel, by decide +kernel, by decide +kernel⟩

end KernelOfTruth.PageRemoval
