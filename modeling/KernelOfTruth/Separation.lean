import KernelOfTruth.FreePages
import KernelOfTruth.PageOps
import KernelOfTruth.Spec.Separation

/-! # Write-xor-execute, and the separation of kernel and user memory -/

open KernelOfTruth.Lib KernelOfTruth.Code KernelOfTruth.Spec KernelOfTruth.Tables KernelOfTruth.Paging
  KernelOfTruth.PageStack KernelOfTruth.MapPage KernelOfTruth.FreePages KernelOfTruth.PageOps

namespace KernelOfTruth.Separation

variable {img : KernelImage} {pt : PivotTables} {m m' : Machine} {v perms : Word}

/-! ## Permissions that pass the check -/

/-- A flag in the entry is the flag that the caller has passed. -/
theorem flag_of_entry {flag : Word} (h : Memory_Permissions_Mask &&& flag = flag) (h' : Memory_Present &&& flag = 0#64) :
    (perms &&& Memory_Permissions_Mask ||| Memory_Present) &&& flag = perms &&& flag := by
  rw [BitVec.and_or_distrib_right, BitVec.and_assoc, h, h', BitVec.or_zero]

theorem upper_half (h : 256 ≤ (index4 v).toNat) : memory_is_lower_half v = false := by
  rw [index4, BitVec.extractLsb'_toNat, Nat.shiftRight_eq_div_pow] at h
  have hend : Lower_Half_End.toNat = 2 ^ 47 - 1 := rfl
  simp only [memory_is_lower_half, decide_eq_false_iff_not, BitVec.le_def, hend]
  omega

theorem allowed_of_not_refused (h : permissionsRefused v perms = false) :
    Allowed (index4 v) (perms &&& Memory_Permissions_Mask ||| Memory_Present) := by
  simp only [permissionsRefused, Bool.or_eq_false_iff, Bool.and_eq_false_iff] at h
  obtain ⟨hwrite, huser⟩ := h
  refine ⟨?_, ?_⟩
  · rw [flag_of_entry (by decide) (by decide), flag_of_entry (by decide) (by decide)]
    intro hflag hexec
    rcases hwrite with hwrite | hwrite
    · -- the writable bit is one of the two bits of `Memory_Writable`
      have hzero : perms &&& Memory_Writable = 0 := by simpa using hwrite
      apply hflag
      rw [show Memory_Just_Writable = Memory_Writable &&& Memory_Just_Writable by decide, ← BitVec.and_assoc, hzero]
      exact BitVec.zero_and
    · simp [hexec] at hwrite
  · intro hupper
    rw [flag_of_entry (by decide) (by decide)]
    rcases huser with huser | huser
    · simp [upper_half hupper] at huser
    · simpa using huser

theorem allowed_pivot (i4 : Index) : Allowed i4 (Memory_Writable ||| Memory_Present) :=
  ⟨fun _ => by decide, fun _ => by decide⟩

/-! ## One call -/

theorem separated_of_others (h : Separated m) (hpivot : PivotWalk img m m')
    (hothers : ∀ {page : List Index}, PagePath page → page ≠ pivotPage img → page ≠ pagePath v →
      walk m' page = walk m page)
    (hpage : ∀ frame perms, walk m' (pagePath v) = some (frame, perms) → Allowed (index4 v) perms) : Separated m' := by
  intro i1 i2 i3 i4 frame perms hpath hwalk
  by_cases hv : [i1, i2, i3, i4] = pagePath v
  · obtain rfl : i4 = index4 v := by
      simp only [pagePath, List.cons.injEq, and_true] at hv
      exact hv.2.2.2
    exact hpage frame perms (hv ▸ hwalk)
  · by_cases hp : [i1, i2, i3, i4] = pivotPage img
    · rw [hp] at hwalk
      rcases hpivot with heq | heq | ⟨f, heq⟩
      · exact h i1 i2 i3 i4 frame perms hpath (by rw [hp, ← heq, hwalk])
      · rw [heq] at hwalk
        cases hwalk
      · rw [heq] at hwalk
        cases hwalk
        exact allowed_pivot i4
    · exact h i1 i2 i3 i4 frame perms hpath (by rw [← hothers hpath hp hv, hwalk])

theorem allowed_leaf {e frame perms' : Word} (h : permissionsRefused v perms = false)
    (hwalk : leafValue (leafEntry e perms) = some (frame, perms')) : Allowed (index4 v) perms' := by
  rw [leafValue, if_pos (leafEntry_present e perms), leafEntry_mask] at hwalk
  cases hwalk
  exact allowed_of_not_refused h

theorem allowed_before (h : Separated m) (hv : index4 v ≠ fractal) (frame perms : Word)
    (hwalk : walk m (pagePath v) = some (frame, perms)) : Allowed (index4 v) perms :=
  h _ _ _ _ frame perms (pagePath_of_index4 hv) hwalk

/-- What holds between two calls. -/
structure Inv (img : KernelImage) (pt : PivotTables) (m : Machine) : Prop where
  tree : Tree m
  pages : ∃ free, PagesOk img pt free m
  separated : Separated m

theorem wp_map_page_inv (hv : Ordinary img v) (h : Inv img pt m) (phys perms : Word) :
    wp (map_page (physical_alloc img) v phys perms) (fun _ m' => Inv img pt m') (fun _ => True) m := by
  obtain ⟨free, hok⟩ := h.pages
  have hlaws := physical_alloc_laws (E := fun _ => True) img pt trivial
  refine wp_imp (wp_map_page hv.outside hv.not_pivot hlaws h.tree hok) ?_
  rintro status m' ⟨free', hmaps⟩
  refine ⟨hmaps.tree, ⟨free', hmaps.ok⟩, separated_of_others h.separated hmaps.pivot hmaps.others ?_⟩
  intro frame perms' hwalk
  by_cases hstatus : status = .Ok
  · obtain ⟨-, hleaf, hperms⟩ := hmaps.mapped hstatus
    exact allowed_leaf hperms (hleaf ▸ hwalk)
  · exact allowed_before h.separated hv.outside _ _ (hmaps.failed hstatus ▸ hwalk)

theorem wp_map_update_page_inv (hv : Ordinary img v) (h : Inv img pt m) (perms : Word) :
    wp (map_update_page v perms) (fun _ m' => Inv img pt m') (fun _ => True) m := by
  obtain ⟨free, hok⟩ := h.pages
  refine wp_imp (wp_map_update_page hv.outside hv.not_pivot (pagesOk_laws img pt) h.tree hok) ?_
  intro status m' hup
  have hpivot : PivotWalk img m m' := .inl (hup.others (pivotPage_pagePath img) hv.not_pivot.symm)
  refine ⟨hup.tree, ⟨free, hup.ok⟩, separated_of_others (v := v) h.separated hpivot ?_ ?_⟩
  · intro page hp _ hother
    exact hup.others hp hother
  · intro frame perms' hwalk
    by_cases hstatus : status = .Ok
    · obtain ⟨hperms, e, hleaf⟩ := hup.updated hstatus
      exact allowed_leaf hperms (hleaf ▸ hwalk)
    · exact allowed_before h.separated hv.outside _ _ (hup.failed hstatus ▸ hwalk)

/-! ## The free pages of a machine -/

theorem chain_unique {mem : Word → Index → Word} {p : Word} {rs rs' : List PageRange} (h : Chain mem p rs)
    (h' : Chain mem p rs') : rs = rs' := by
  induction h generalizing rs' with
  | nil =>
    cases h' with
    | nil => rfl
    | cons hne => exact absurd rfl hne
  | cons hne _ ih =>
    cases h' with
    | nil => exact absurd rfl hne
    | cons _ hrest => rw [ih hrest]

theorem freePage_iff {free : Set Word} (h : PagesOk img pt free m) (f : Word) : FreePage m f ↔ f ∈ free := by
  obtain ⟨rs, hchain, -, -, hunion⟩ := h.stack.holds
  constructor
  · rintro ⟨free', ⟨rs', hchain', -, -, hunion'⟩, hf⟩
    rw [chain_unique hchain' hchain] at hunion'
    exact (hunion f).mpr ((hunion' f).mp hf)
  · intro hf
    exact ⟨free, h.stack.holds, hf⟩

theorem wp_unmap_page_inv {flag : Bool} (hv : Ordinary img v) (h : Inv img pt m) (hmay : flag = true → MayUnmap m v) :
    wp (unmap_page (physical_free img) v flag) (fun _ m' => Inv img pt m') (fun _ => True) m := by
  obtain ⟨free, hok⟩ := h.pages
  have hlaws := physical_free_laws (E := fun _ => True) img pt trivial
  have hfree : flag = true → Freeable m free v := by
    intro hflag e he
    obtain ⟨hpres, htable, hused⟩ := hmay hflag e he
    exact ⟨hpres, htable, fun hf => hused ((freePage_iff hok _).mpr hf)⟩
  refine wp_imp (wp_unmap_page hv.outside hv.not_pivot hlaws h.tree hok hfree) ?_
  intro _ m' hun
  refine ⟨hun.tree, ⟨_, hun.ok⟩, separated_of_others h.separated hun.pivot hun.others ?_⟩
  intro frame perms' hwalk
  rw [hun.unmapped] at hwalk
  cases hwalk

/-! ## Ranges -/

theorem pagesOf_succ {virt : Word} {count : Nat} {page : Word → Prop} (h : PagesOf virt (count + 1) page) :
    page virt ∧ PagesOf (virt + Page_Small) count page := by
  refine ⟨by simpa using h 0 (by omega), fun k hk => ?_⟩
  have hnext := h (k + 1) (by omega)
  rwa [BitVec.ofNat_add, BitVec.add_mul, BitVec.add_comm (BitVec.ofNat 64 k * _), BitVec.one_mul,
    ← BitVec.add_assoc] at hnext

theorem wp_unmap_range_inv {virt : Word} {count : Nat} {flag : Bool} (hv : PagesOf virt count (Ordinary img))
    (h : Inv img pt m) (hmay : flag = true → MayUnmapRange img MayUnmap count m virt) :
    wp (unmap_range (physical_free img) virt count flag) (fun _ m' => Inv img pt m') (fun _ => True) m := by
  induction count generalizing virt m with
  | zero => exact (wp_pure ..).mpr h
  | succ count ih =>
    obtain ⟨hfirst, hrest⟩ := pagesOf_succ hv
    unfold unmap_range
    rw [wp_bind]
    have hpage := wp_unmap_page_inv hfirst h fun hflag => (hmay hflag).1
    apply wp_partial.mpr
    intro _ m₁ hrun
    have h₁ := wp_ok hpage hrun
    apply ih hrest h₁
    rintro rfl
    exact (hmay rfl).2 m₁ hrun

theorem wp_mapRangeFrom_inv {original virt phys attrs : Word} {i count : Nat}
    (hv : PagesOf original (i + count) (Ordinary img)) (hvirt : virt = original + BitVec.ofNat 64 i * Page_Small)
    (h : Inv img pt m) :
    wp (mapRangeFrom (physical_alloc img) (physical_free img) original attrs i virt phys count)
      (fun _ m' => Inv img pt m') (fun _ => True) m := by
  induction count generalizing i virt phys m with
  | zero => exact (wp_pure ..).mpr h
  | succ count ih =>
    have hpage : Ordinary img virt := hvirt ▸ hv i (by omega)
    unfold mapRangeFrom
    rw [wp_bind]
    refine wp_imp (wp_map_page_inv hpage h phys attrs) ?_
    intro status m₁ h₁
    rw [wp_ite]
    split
    · rw [wp_bind]
      have hdone : PagesOf original i (Ordinary img) := fun k hk => hv k (by omega)
      exact wp_imp (wp_unmap_range_inv hdone h₁ fun hflag => by cases hflag) fun _ _ h₂ => (wp_pure ..).mpr h₂
    · refine ih (by rwa [Nat.add_right_comm, Nat.add_assoc]) ?_ h₁
      rw [hvirt, BitVec.ofNat_add, BitVec.add_mul, BitVec.add_assoc, BitVec.one_mul]

theorem wp_paging_update_range_inv {virt attrs : Word} {count : Nat} (hv : PagesOf virt count (Ordinary img))
    (h : Inv img pt m) :
    wp (paging_update_range virt count attrs) (fun _ m' => Inv img pt m') (fun _ => True) m := by
  induction count generalizing virt m with
  | zero => exact (wp_pure ..).mpr h
  | succ count ih =>
    obtain ⟨hfirst, hrest⟩ := pagesOf_succ hv
    unfold paging_update_range
    rw [Rules.wp_bubble]
    refine wp_imp (wp_map_update_page_inv hfirst h attrs) ?_
    intro status m₁ h₁
    split
    · exact ih hrest h₁
    · exact h₁

/-! ## Runs -/

theorem inv_of_ok {α : Type} {p : Kernel Machine α} {a : α}
    (h : wp p (fun _ m' => Inv img pt m') (fun _ => True) m) (hrun : p.run m = .ok (a, m')) : Inv img pt m' := by
  have h' := wp_ok h hrun
  exact h'

theorem step_inv (h : Inv img pt m) (hstep : PagingStep img (Ordinary img) MayUnmap m m') : Inv img pt m' := by
  cases hstep with
  | map_page hv hrun => exact inv_of_ok (wp_map_page_inv hv h _ _) hrun
  | map_range hv hrun => exact inv_of_ok (wp_mapRangeFrom_inv (by rwa [Nat.zero_add]) (by simp) h) hrun
  | map_update_page hv hrun => exact inv_of_ok (wp_map_update_page_inv hv h _) hrun
  | paging_update_range hv hrun => exact inv_of_ok (wp_paging_update_range_inv hv h) hrun
  | unmap_page hv hmay hrun => exact inv_of_ok (wp_unmap_page_inv hv h hmay) hrun
  | unmap_range hv hmay hrun => exact inv_of_ok (wp_unmap_range_inv hv h hmay) hrun

theorem run_inv (h : Inv img pt m) (hrun : Relation.ReflTransGen (PagingStep img (Ordinary img) MayUnmap) m m') :
    Inv img pt m' := by
  induction hrun with
  | refl => exact h
  | tail _ hstep ih => exact step_inv ih hstep

/-- As long as only frames are freed that are mapped, are no page tables and are not free, and the pivot
page is left to the allocator. -/
theorem pages_stay_separated {free : Set Word} (ht : Tree m) (hok : PagesOk img pt free m) (hsep : Separated m)
    (hrun : Relation.ReflTransGen (PagingStep img (Ordinary img) MayUnmap) m m') : Separated m' :=
  (run_inv ⟨ht, ⟨free, hok⟩, hsep⟩ hrun).separated

/-! ## The page table of the pivot page is mapped as data -/

theorem linked_separated : Separated linkedMachine := by
  intro i1 i2 i3 i4 frame perms hpath hwalk
  simp only [walk, entry] at hwalk
  cases hf : linkedMachine.table [i2, i3, i4] with
  | none =>
    rw [hf] at hwalk
    cases hwalk
  | some f =>
    rw [hf] at hwalk
    rcases boot_table linked_boot (pagePath_tail hpath) hf with ⟨h, -⟩ | ⟨h, -⟩ | ⟨h, -⟩ | ⟨-, rfl⟩
    · simp at h
    · simp at h
    · simp at h
    · simp [linkedMachine, leafValue, present] at hwalk

theorem linked_pages : PagesOk linkedImage linkedTables ∅ linkedMachine := by
  refine ⟨⟨linked_ready, ⟨[], .nil, by simp, by simp, by simp⟩, fun h => absurd rfl h, by simp⟩, ?_, by simp⟩
  intro _
  decide

/-- `linkedMachine` with the table of the pivot page mapped at the page after it. -/
def tableMapped : Machine :=
  { linkedMachine with mem := setWord linkedMachine.mem 0x4000 256 (leafEntry 0x4000 Memory_Writable) }

theorem linked_maps_table :
    (map_page (physical_alloc linkedImage) linkedImage.kernel_start 0x4000 Memory_Writable).run linkedMachine =
      .ok (.Ok, tableMapped) := rfl

theorem tableMapped_separated : ∃ m,
    Relation.ReflTransGen (PagingStep linkedImage (Ordinary linkedImage) MayUnmap) linkedMachine m ∧ Separated m := by
  have hstep : PagingStep linkedImage (Ordinary linkedImage) MayUnmap linkedMachine tableMapped :=
    .map_page ⟨by decide, by decide⟩ linked_maps_table
  exact ⟨_, .single hstep, pages_stay_separated (boot_tree linked_boot) linked_pages linked_separated (.single hstep)⟩

/-- When the table is freed through the page, the stack puts its header into it. The link to the next
range, which is `invalid_phys_addr`, is then an entry for everybody to write and to execute. -/
theorem freed_table_not_separated : Tree linkedMachine ∧ PagesOk linkedImage linkedTables ∅ linkedMachine ∧
    Separated linkedMachine ∧ ∃ m, Relation.ReflTransGen
      (PagingStep linkedImage (fun v => index4 v ≠ fractal) fun _ _ => True) linkedMachine m ∧ ¬ Separated m := by
  obtain ⟨m, hrun, hwalk⟩ : ∃ m, (unmap_page (physical_free linkedImage) linkedImage.kernel_start true).run tableMapped =
      .ok ((), m) ∧ walk m [0, 0, 510, 511] = some (0, 0xfff) := ⟨_, rfl, rfl⟩
  have hout : index4 linkedImage.kernel_start ≠ fractal := by decide
  refine ⟨boot_tree linked_boot, linked_pages, linked_separated, m, ?_, ?_⟩
  · refine .tail (.single (.map_page hout linked_maps_table)) ?_
    exact .unmap_page hout (fun _ => trivial) hrun
  · intro hsep
    have hpath : PagePath [0, 0, 510, 511] := ⟨rfl, by unfold Outside; decide⟩
    exact (hsep _ _ _ _ _ _ hpath hwalk).writable (by decide) (by decide)

end KernelOfTruth.Separation
