import KernelOfTruth.MapPage
import KernelOfTruth.PageStack

/-!
# The stack of free pages is the allocator that paging needs

No free page is a page table. So the headers in the free pages are out of the way of the tables, and a
write to a table is out of the way of the headers.
-/

open KernelOfTruth.Lib KernelOfTruth.Code KernelOfTruth.Spec KernelOfTruth.Bits KernelOfTruth.Rules
  KernelOfTruth.Window KernelOfTruth.Tables KernelOfTruth.Paging KernelOfTruth.PhysicalAllocator
  KernelOfTruth.PageStack KernelOfTruth.MapPage

namespace KernelOfTruth.FreePages

variable {img : KernelImage} {pt : PivotTables} {m m' : Machine} {free : Set Word} {E : Halt → Prop}

/-- The stack is in order, and its pages are no tables. -/
structure PagesOk (img : KernelImage) (pt : PivotTables) (free : Set Word) (m : Machine) : Prop where
  stack : StackInv img pt m free
  bottom : Bottom img pt m
  apart : ∀ f ∈ free, ¬ IsTable m f

/-! ## The tables of the pivot page -/

abbrev pivotTable (img : KernelImage) : List Index :=
  [index2 (Kernel_Pivot_Page img), index3 (Kernel_Pivot_Page img), index4 (Kernel_Pivot_Page img)]

theorem pivotTable_path (img : KernelImage) : TablePath (pivotTable img) := pagePath_tail (pivotPage_pagePath img)

theorem onPivotPath_isTable (h : PivotReady img pt m) {f : Word} (hf : OnPivotPath pt m f) : IsTable m f := by
  have hpath := pivotTable_path img
  rcases hf with rfl | rfl | rfl | rfl
  · exact ⟨_, tablePath_nil, rfl⟩
  · exact ⟨_, tablePath_tail (tablePath_tail hpath), h.t3⟩
  · exact ⟨_, tablePath_tail hpath, h.t2⟩
  · exact ⟨_, hpath, h.t1⟩

theorem pivot_slot (ht : Tree m) (h : PivotReady img pt m) {q : List Index} (hq : TablePath q)
    (hf : m.table q = some pt.f1) : q = pivotTable img :=
  ht.inj hq (pivotTable_path img) hf h.t1

theorem walk_pivot (h : PivotReady img pt m) : walk m (pivotPage img) = leafValue (m.mem pt.f1 (pivotIndex img)) := by
  unfold walk pivotPage pagePath
  rw [entry_cons_some h.t1]
  rfl

/-- Writes to pages that are no tables, and to the entry of the pivot page. -/
theorem confined_moves {touched : Set Word} (ht : Tree m) (h : PivotReady img pt m) (h' : PivotReady img pt m')
    (hconf : Confined img pt touched m m') (htouched : ∀ f ∈ touched, ¬ IsTable m f) : MovesPivot img m m' := by
  have hnot : ∀ {q : List Index} {f : Word}, TablePath q → m.table q = some f → f ∉ touched :=
    fun hq hf hmem => htouched _ hmem ⟨_, hq, hf⟩
  refine ⟨⟨hconf.cr3, ?_⟩, ?_⟩
  · intro q i f hq hf hne
    refine hconf.mem f i (hnot hq hf) ?_
    rintro ⟨rfl, rfl⟩
    rw [pivot_slot ht h hq hf] at hne
    exact hne rfl
  · unfold PivotWalk
    rw [walk_pivot h, walk_pivot h']
    rcases hconf.leaf (hnot (pivotTable_path img) h.t1) with heq | heq | ⟨g, heq⟩
    · exact .inl (by rw [heq])
    · exact .inr (.inl (by rw [heq]; rfl))
    · refine .inr (.inr ⟨page_entry_to_phys (leafEntry g Memory_Writable), ?_⟩)
      rw [heq, leafValue, if_pos (leafEntry_present _ _), leafEntry_mask]
      rfl

/-! ## What happens to tables -/

theorem pagesOk_link {q : List Index} {i : Index} {f e r : Word} (ht : Tree m) (h : PagesOk img pt free m)
    (hq : TablePath (i :: q)) (hf : m.table q = some f) (habs : present (m.mem f i) = false) (he : present e)
    (her : page_entry_to_phys e = r) (hfresh : ¬ IsTable m r) (hr : r ∉ free) :
    PagesOk img pt free (linked m f i e r) := by
  have hq' := tablePath_tail hq
  have hkeep : ∀ g j, g ≠ r → ¬ (g = f ∧ j = i) → (linked m f i e r).mem g j = m.mem g j := by
    intro g j h1 h2
    simp [linked, clearFrame, setWord, h1, h2]
  have hpath : ∀ g, OnPivotPath pt m g → g ≠ r := fun g hg hgr =>
    hfresh (hgr ▸ onPivotPath_isTable h.stack.ready hg)
  have hleaf : (linked m f i e r).mem pt.f1 (pivotIndex img) = m.mem pt.f1 (pivotIndex img) := by
    refine hkeep _ _ (hpath _ (by simp [OnPivotPath])) ?_
    rintro ⟨rfl, -⟩
    have hlen := hq.length_le
    rw [pivot_slot ht h.stack.ready hq' hf] at hlen
    simp at hlen
  refine ⟨h.stack.congr rfl rfl ?_ hleaf ?_, ?_, ?_⟩
  · intro g j hu
    refine hkeep g j (hpath g hu.onPivotPath) ?_
    -- the entries on the way to the pivot page are present, and this one is not
    rintro ⟨rfl, rfl⟩
    have hready := h.stack.ready
    rcases hu with ⟨rfl, rfl | rfl⟩ | ⟨rfl, rfl⟩ | ⟨rfl, rfl⟩
    · rw [hready.self.1] at habs
      cases habs
    · rw [present_of_table rfl hready.t3] at habs
      cases habs
    · rw [present_of_table hready.t3 hready.t2] at habs
      cases habs
    · rw [present_of_table hready.t2 hready.t1] at habs
      cases habs
  · intro g hg
    funext j
    refine hkeep g j (fun hgr => hr (hgr ▸ hg)) ?_
    rintro ⟨rfl, -⟩
    exact h.apart g hg ⟨q, hq', hf⟩
  · intro hinv
    rw [hleaf]
    exact h.bottom hinv
  · intro g hg
    rw [linked_isTable ht hq hf habs he her hfresh]
    rintro (htable | rfl)
    · exact h.apart g hg htable
    · exact hr hg

theorem pagesOk_leaf {q : List Index} {i : Index} {f : Word} (e : Word) (ht : Tree m) (h : PagesOk img pt free m)
    (hpage : PagePath (i :: q)) (hne : i :: q ≠ pivotPage img) (hf : m.table q = some f) :
    PagesOk img pt free { m with mem := setWord m.mem f i e } := by
  have hq := pagePath_tail hpage
  have hkeep : ∀ g j, ¬ (g = f ∧ j = i) → setWord m.mem f i e g j = m.mem g j := by
    intro g j h1
    simp [setWord, h1]
  have hleaf : setWord m.mem f i e pt.f1 (pivotIndex img) = m.mem pt.f1 (pivotIndex img) := by
    refine hkeep _ _ ?_
    rintro ⟨rfl, rfl⟩
    rw [pivot_slot ht h.stack.ready hq hf] at hne
    exact hne rfl
  refine ⟨h.stack.congr rfl rfl ?_ hleaf ?_, ?_, ?_⟩
  · intro g j hu
    refine hkeep g j ?_
    rintro ⟨rfl, -⟩
    -- a table on a higher level is not on the lowest one
    have hlen := hpage.length_eq
    have hready := h.stack.ready
    have hpath := pivotTable_path img
    rcases hu with ⟨rfl, -⟩ | ⟨rfl, -⟩ | ⟨rfl, -⟩
    · rw [← ht.inj tablePath_nil hq rfl hf] at hlen
      simp at hlen
    · rw [← ht.inj (tablePath_tail (tablePath_tail hpath)) hq hready.t3 hf] at hlen
      simp at hlen
    · rw [← ht.inj (tablePath_tail hpath) hq hready.t2 hf] at hlen
      simp at hlen
  · intro g hg
    funext j
    refine hkeep g j ?_
    rintro ⟨rfl, -⟩
    exact h.apart g hg ⟨q, hq, hf⟩
  · intro hinv
    simp only [hleaf]
    exact h.bottom hinv
  · intro g hg
    rw [(leafWrite ht hq hf e).isTable (by rintro p rfl; exact hpage.length_eq)]
    exact h.apart g hg

theorem pagesOk_laws (img : KernelImage) (pt : PivotTables) : OkLaws img (PagesOk img pt) where
  link ht hok hq hf habs he her hfresh hr := pagesOk_link ht hok hq hf habs he her hfresh hr
  leaf e ht hok hpage hne hf := pagesOk_leaf e ht hok hpage hne hf

/-! ## The two functions -/

theorem page_good {f : Word} (hal : f.toNat % 4096 = 0) (hbelow : f.toNat + 4096 < 2 ^ 48) :
    (⟨f, Page_Small⟩ : PageRange).Good where
  start_aligned := (is_aligned_iff _).mpr hal
  length_aligned := show is_aligned Page_Small Page_Small by decide
  nonempty := show 0 < Page_Small.toNat by decide
  below := hbelow

theorem free_good {f : Word} (h : StackInv img pt m free) (hf : f ∈ free) : (⟨f, Page_Small⟩ : PageRange).Good := by
  obtain ⟨rs, -, hgood, -, hunion⟩ := h.holds
  obtain ⟨r, hr, hmem⟩ := (hunion f).mp hf
  obtain ⟨hal, hle, hlt⟩ := mem_pages.mp hmem
  have hbelow := (hgood r hr).below
  have hlen := (is_aligned_iff _).mp (hgood r hr).length_aligned
  have hstart := (is_aligned_iff _).mp (hgood r hr).start_aligned
  exact page_good hal (by omega)

/-- `physical_alloc` only writes to the free pages, and to the entry of the pivot page. -/
theorem wp_alloc_confined (hfault : free = ∅ → E .page_fault) (ht : Tree m) (h : PagesOk img pt free m) :
    wp (physical_alloc img) (fun r m' => r ∈ free ∧ PagesOk img pt (free \ {r}) m' ∧ Confined img pt free m m' ∧
      MovesPivot img m m') E m := by
  rcases free.eq_empty_or_nonempty with rfl | hne
  · -- the stack is empty, so the first load is a page fault
    obtain ⟨rs, hchain, hgood, -, hunion⟩ := h.stack.holds
    have hinv : m.physical_page = invalid_phys_addr := by
      generalize m.physical_page = p at hchain
      cases hchain with
      | nil => rfl
      | cons =>
        have hmem := (hunion _).mpr ⟨_, List.mem_cons_self .., start_mem_pages (hgood _ (List.mem_cons_self ..))⟩
        exact hmem.elim
    have habs := h.bottom hinv
    have htr : m.translate (stackLength img) = none := by
      rw [stackLength_eq, Machine.translate, pagePath_entryAddress _ _ (pivot_low img), pagePath,
        table_cons_some h.stack.ready.t1]
      exact if_neg (by simpa [pivotIndex] using habs)
    simp [physical_alloc, load, access, htr, hfault rfl]
  · refine wp_imp (wp_alloc h.stack hne E) ?_
    rintro r m' ⟨hr, hstack, hconf, hbottom⟩
    have hmoved := confined_moves ht h.stack.ready hstack.ready hconf h.apart
    refine ⟨hr, ⟨hstack, hbottom, ?_⟩, hconf, hmoved⟩
    intro g hg
    rw [hmoved.same.isTable pivotPage_length]
    exact h.apart g hg.1

theorem pagesOk_alloc (hfault : free = ∅ → E .page_fault) (ht : Tree m) (h : PagesOk img pt free m) :
    wp (physical_alloc img) (fun r m' => MovesPivot img m m' ∧
      ((r = invalid_phys_addr ∧ PagesOk img pt free m') ∨
        (r ∈ free ∧ IsFrame r ∧ ¬ IsTable m r ∧ PagesOk img pt (free \ {r}) m'))) E m := by
  refine wp_imp (wp_alloc_confined hfault ht h) ?_
  rintro r m' ⟨hr, hok, -, hmoved⟩
  exact ⟨hmoved, .inr ⟨hr, good_isFrame (free_good h.stack hr), h.apart r hr, hok⟩⟩

/-- `physical_free` only writes to the page that it frees, and to the entry of the pivot page. -/
theorem wp_free_confined {f : Word} (hpanic : ¬ f.toNat + Page_Small.toNat < 2 ^ 48 → E (.panic "physical_free_range"))
    (ht : Tree m) (h : PagesOk img pt free m) (hframe : IsFrame f) (hf : f ∉ free) (htable : ¬ IsTable m f) :
    wp (physical_free img f) (fun _ m' => PagesOk img pt (free ∪ {f}) m' ∧ Confined img pt {f} m m' ∧
      MovesPivot img m m') E m := by
  have hnat := congrArg BitVec.toNat hframe
  rw [page_entry_toNat] at hnat
  have hal : f.toNat % 4096 = 0 := by omega
  unfold physical_free
  by_cases hbelow : f.toNat + Page_Small.toNat < 2 ^ 48
  · have hgood := page_good hal hbelow
    have hpages : (⟨f, Page_Small⟩ : PageRange).pages = {f} := Set.ext fun g => mem_pages_one hgood.start_aligned
    refine wp_imp (wp_free_range h.stack hgood ?_ ?_ E) ?_
    · rw [hpages, Set.disjoint_singleton_left]
      exact hf
    · rw [hpages]
      rintro g rfl hpath
      exact htable (onPivotPath_isTable h.stack.ready hpath)
    · rintro _ m' ⟨hstack, hconf, hbottom⟩
      rw [hpages] at hstack hconf
      have hmoved := confined_moves ht h.stack.ready hstack.ready hconf (by rintro g rfl; exact htable)
      refine ⟨⟨hstack, hbottom, ?_⟩, hconf, hmoved⟩
      rintro g (hg | rfl)
      · rw [hmoved.same.isTable pivotPage_length]
        exact h.apart g hg
      · rwa [hmoved.same.isTable pivotPage_length]
  · refine wp_free_refused (hpanic hbelow) hbelow ?_
    simp only [show Page_Small.toNat = 4096 from rfl]
    omega

theorem pagesOk_free {f : Word} (hpanic : ¬ f.toNat + Page_Small.toNat < 2 ^ 48 → E (.panic "physical_free_range"))
    (ht : Tree m) (h : PagesOk img pt free m) (hframe : IsFrame f) (hf : f ∉ free) (htable : ¬ IsTable m f) :
    wp (physical_free img f) (fun _ m' => MovesPivot img m m' ∧ PagesOk img pt (free ∪ {f}) m') E m := by
  refine wp_imp (wp_free_confined hpanic ht h hframe hf htable) ?_
  rintro _ m' ⟨hok, -, hmoved⟩
  exact ⟨hmoved, hok⟩

theorem physical_alloc_laws (img : KernelImage) (pt : PivotTables) (hfault : E .page_fault) :
    AllocLaws img (PagesOk img pt) (physical_alloc img) E where
  toOkLaws := pagesOk_laws img pt
  alloc ht hok := pagesOk_alloc (fun _ => hfault) ht hok

theorem physical_free_laws (img : KernelImage) (pt : PivotTables) (hpanic : E (.panic "physical_free_range")) :
    FreeLaws img (PagesOk img pt) (physical_free img) E where
  toOkLaws := pagesOk_laws img pt
  free ht hok hframe hf htable := pagesOk_free (fun _ => hpanic) ht hok hframe hf htable

/-! ## `map_page` with any such allocator -/

theorem map_page_updates_one_page {ok : Set Word → Machine → Prop} {alloc : Kernel Machine Word} {v p perms : Word}
    {status : Status} (hv : index4 v ≠ fractal) (hne : pagePath v ≠ pivotPage img) (laws : AllocLaws img ok alloc E)
    (ht : Tree m) (hok : ok free m) (hp : IsFrame p) (hperms : perms &&& Memory_Permissions_Mask = perms)
    (hrun : (map_page alloc v p perms).run m = .ok (status, m')) :
    Tree m' ∧
    (status = .Ok → walk m (pagePath v) = none ∧ walk m' (pagePath v) = some (p, perms ||| Memory_Present) ∧
      ∀ page, PagePath page → page ≠ pagePath v → page ≠ pivotPage img → walk m' page = walk m page) ∧
    (status ≠ .Ok → ∀ page, PagePath page → page ≠ pivotPage img → walk m' page = walk m page) := by
  obtain ⟨free', h⟩ := wp_ok (wp_map_page hv hne laws ht hok) hrun
  refine ⟨h.tree, ?_, ?_⟩
  · intro hstatus
    obtain ⟨hbefore, hafter, -⟩ := h.mapped hstatus
    refine ⟨hbefore, ?_, fun page hpage hother hpivot => h.others hpage hpivot hother⟩
    rw [hafter, leafValue, if_pos (leafEntry_present p perms), leafEntry_phys hp hperms, leafEntry_perms hperms]
  · intro hstatus page hpage hpivot
    by_cases hother : page = pagePath v
    · rw [hother]
      exact h.failed hstatus
    · exact h.others hpage hpivot hother


/-- The tables of `linkedMachine`, and no others. -/
structure BootTables (m : Machine) : Prop where
  cr3 : m.cr3 = 0x1000
  root : ∀ i, m.mem 0x1000 i = if i = fractal then 0x1003 else if i = 511 then 0x2003 else 0
  level3 : ∀ i, m.mem 0x2000 i = if i = 510 then 0x3003 else 0
  level2 : ∀ i, m.mem 0x3000 i = if i = 0 then 0x4003 else 0

theorem linked_boot : BootTables linkedMachine :=
  ⟨rfl, fun i => by simp [linkedMachine], fun i => by simp [linkedMachine], fun i => by simp [linkedMachine]⟩

theorem boot_table (h : BootTables m) {p : List Index} {f : Word} (hp : TablePath p) (hf : m.table p = some f) :
    (p = [] ∧ f = 0x1000) ∨ (p = [511] ∧ f = 0x2000) ∨ (p = [510, 511] ∧ f = 0x3000) ∨
      (p = [0, 510, 511] ∧ f = 0x4000) := by
  induction p generalizing f with
  | nil =>
    cases hf
    exact .inl ⟨rfl, h.cr3⟩
  | cons i p ih =>
    cases hg : m.table p with
    | none =>
      rw [table_cons_none hg] at hf
      cases hf
    | some g =>
      rw [table_cons_some hg] at hf
      rcases ih (tablePath_tail hp) hg with ⟨rfl, rfl⟩ | ⟨rfl, rfl⟩ | ⟨rfl, rfl⟩ | ⟨rfl, rfl⟩
      · have hout : i ≠ fractal := fun h => hp.outside (by rw [h]; rfl)
        rw [h.root i, if_neg hout] at hf
        split at hf
        · subst_vars
          cases hf
          exact .inr (.inl ⟨rfl, rfl⟩)
        · cases hf
      · rw [h.level3 i] at hf
        split at hf
        · subst_vars
          cases hf
          exact .inr (.inr (.inl ⟨rfl, rfl⟩))
        · cases hf
      · rw [h.level2 i] at hf
        split at hf
        · subst_vars
          cases hf
          exact .inr (.inr (.inr ⟨rfl, rfl⟩))
        · cases hf
      · have hlen := hp.length_le
        simp at hlen

theorem boot_tree (h : BootTables m) : Tree m := by
  refine ⟨?_, ?_⟩
  · rw [SelfMapped, h.cr3, h.root]
    exact ⟨by decide, by decide⟩
  · intro p q f hp hq hf hg
    rcases boot_table h hp hf with ⟨rfl, rfl⟩ | ⟨rfl, rfl⟩ | ⟨rfl, rfl⟩ | ⟨rfl, rfl⟩ <;>
    rcases boot_table h hq hg with ⟨rfl, h⟩ | ⟨rfl, h⟩ | ⟨rfl, h⟩ | ⟨rfl, h⟩ <;> simp at h ⊢

/-- The page tables of the pivot page of `linkedImage`, and four free pages. -/
def stockedMachine : Machine where
  mem f i :=
    if f = 0x1000 ∧ i = fractal then 0x1003
    else if f = 0x1000 ∧ i = 511 then 0x2003
    else if f = 0x2000 ∧ i = 510 then 0x3003
    else if f = 0x3000 ∧ i = 0 then 0x4003
    else if f = 0x4000 ∧ i = pivotIndex linkedImage then leafEntry 0x200000 Memory_Writable
    else if f = 0x200000 ∧ i = 0 then invalid_phys_addr
    else if f = 0x200000 ∧ i = 1 then 0x4000
    else 0
  cr3 := 0x1000
  physical_page := 0x200000

theorem stocked_boot : BootTables stockedMachine :=
  ⟨rfl, fun i => by simp [stockedMachine], fun i => by simp [stockedMachine], fun i => by simp [stockedMachine]⟩

def stockedPages : Set Word := (⟨0x200000, 0x4000⟩ : PageRange).pages

theorem stocked_ok : PagesOk linkedImage linkedTables stockedPages stockedMachine := by
  have hgood : (⟨0x200000, 0x4000⟩ : PageRange).Good := ⟨by decide, by decide, by decide, by decide⟩
  have hapart : ∀ f ∈ stockedPages, ¬ IsTable stockedMachine f := by
    rintro f hf ⟨p, hp, htable⟩
    rw [stockedPages, mem_pages] at hf
    rcases boot_table stocked_boot hp htable with ⟨-, rfl⟩ | ⟨-, rfl⟩ | ⟨-, rfl⟩ | ⟨-, rfl⟩ <;> simp at hf
  have hready : PivotReady linkedImage linkedTables stockedMachine :=
    ⟨⟨by decide, by decide⟩, by decide, by decide, by decide, by decide, by decide, by decide⟩
  refine ⟨⟨hready, ⟨[⟨0x200000, 0x4000⟩], .cons (by decide) .nil, by simpa using hgood, by simp, ?_⟩, ?_, ?_⟩, ?_, hapart⟩
  · simp [stockedPages]
  · intro _
    exact ⟨by decide, by decide⟩
  · intro f hf hpath
    exact hapart f hf (onPivotPath_isTable hready hpath)
  · intro hinv
    exact absurd hinv (by decide)

/-- Three of the free pages become page tables. -/
theorem stocked_updates_one_page : ∃ m',
    (map_page (physical_alloc linkedImage) 0x1000 0x5000 Memory_Writable).run stockedMachine = .ok (.Ok, m') ∧
    Tree m' ∧ walk m' (pagePath 0x1000) = some (0x5000, Memory_Writable ||| Memory_Present) := by
  have hlaws := physical_alloc_laws (E := fun _ => True) linkedImage linkedTables trivial
  have hframe : IsFrame 0x5000 := by
    unfold IsFrame
    decide
  obtain ⟨m', hrun⟩ : ∃ m', (map_page (physical_alloc linkedImage) 0x1000 0x5000 Memory_Writable).run stockedMachine =
      .ok (.Ok, m') := ⟨_, rfl⟩
  obtain ⟨htree, hok, -⟩ := map_page_updates_one_page (by decide) (by decide) hlaws (boot_tree stocked_boot) stocked_ok hframe
    (by decide) hrun
  exact ⟨m', hrun, htree, (hok rfl).2.1⟩

end KernelOfTruth.FreePages
