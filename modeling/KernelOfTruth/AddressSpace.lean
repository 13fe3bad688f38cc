import KernelOfTruth.Spec.AddressSpace
import KernelOfTruth.PageOps
import KernelOfTruth.Separation

/-!
# Page tables that share the higher half

A call under one page table must leave alone the frames that only the others use. To the proofs about
`map_page` and `unmap_page` these frames look like free pages that the allocator never hands out.
-/

open KernelOfTruth.Lib KernelOfTruth.Code KernelOfTruth.Spec KernelOfTruth.Rules KernelOfTruth.Tables
  KernelOfTruth.Paging KernelOfTruth.PhysicalAllocator KernelOfTruth.PageStack KernelOfTruth.MapPage
  KernelOfTruth.PageOps KernelOfTruth.FreePages KernelOfTruth.Separation

namespace KernelOfTruth.AddressSpace

variable {img : KernelImage} {pt : PivotTables} {m m₀ m' : Machine} {E : Halt → Prop}

/-! ## Frames that stay as they are -/

/-- The free pages are `pages` without `held`. Since `m₀` the frames in `held` have not changed, and no
table has been lost. -/
structure Reserved (img : KernelImage) (pt : PivotTables) (held : Set Word) (m₀ : Machine) (pages : Set Word)
    (m : Machine) : Prop where
  subset : held ⊆ pages
  ok : PagesOk img pt (pages \ held) m
  cr3 : m.cr3 = m₀.cr3
  keeps : ∀ {p : List Index} {f : Word}, TablePath p → m₀.table p = some f → m.table p = some f
  no_table : ∀ f ∈ held, ¬ IsTable m f
  mem : ∀ f ∈ held, m.mem f = m₀.mem f

section Laws

variable {held pages : Set Word}

theorem reserved_link {q : List Index} {i : Index} {f e r : Word} (ht : Tree m)
    (h : Reserved img pt held m₀ pages m) (hq : TablePath (i :: q)) (hf : m.table q = some f)
    (habs : present (m.mem f i) = false) (he : present e) (her : page_entry_to_phys e = r)
    (hfresh : ¬ IsTable m r) (hr : r ∉ pages) : Reserved img pt held m₀ pages (linked m f i e r) := by
  refine ⟨h.subset, pagesOk_link ht h.ok hq hf habs he her hfresh fun hmem => hr hmem.1, h.cr3, ?_, ?_, ?_⟩
  · intro p g hp hg
    have hg' := h.keeps hp hg
    rw [linked_table ht hq hf habs he her hfresh hp, if_neg, hg']
    rintro rfl
    rw [table_cons_some hf, habs] at hg'
    cases hg'
  · intro g hg
    rw [linked_isTable ht hq hf habs he her hfresh]
    rintro (htable | rfl)
    · exact h.no_table g hg htable
    · exact hr (h.subset hg)
  · intro g hg
    have hgr : g ≠ r := fun heq => hr (h.subset (heq ▸ hg))
    have hgf : g ≠ f := fun heq => h.no_table g hg ⟨q, tablePath_tail hq, heq ▸ hf⟩
    rw [← h.mem g hg]
    funext j
    simp [linked, clearFrame, setWord, hgr, hgf]

theorem reserved_leaf {q : List Index} {i : Index} {f : Word} (e : Word) (ht : Tree m)
    (h : Reserved img pt held m₀ pages m) (hpage : PagePath (i :: q)) (hne : i :: q ≠ pivotPage img)
    (hf : m.table q = some f) : Reserved img pt held m₀ pages { m with mem := setWord m.mem f i e } := by
  have hq := pagePath_tail hpage
  have hsame := leafWrite (i := i) ht hq hf e
  have hlen : ∀ p, p = i :: q → p.length = 4 := by
    rintro p rfl
    exact hpage.length_eq
  refine ⟨h.subset, pagesOk_leaf e ht h.ok hpage hne hf, h.cr3, ?_, ?_, ?_⟩
  · intro p g hp hg
    rw [hsame.table hlen hp]
    exact h.keeps hp hg
  · intro g hg
    rw [hsame.isTable hlen]
    exact h.no_table g hg
  · intro g hg
    have hgf : g ≠ f := fun heq => h.no_table g hg ⟨q, hq, heq ▸ hf⟩
    rw [← h.mem g hg]
    funext j
    simp [setWord, hgf]

/-- The allocator writes to free pages, and moves the pivot page. -/
theorem reserved_moved {left touched : Set Word} (h : Reserved img pt held m₀ pages m)
    (hsub : held ⊆ left) (hok : PagesOk img pt (left \ held) m') (hmoved : MovesPivot img m m')
    (hconf : Confined img pt touched m m') (htouched : ∀ f ∈ held, f ∉ touched) :
    Reserved img pt held m₀ left m' := by
  refine ⟨hsub, hok, hmoved.same.cr3.trans h.cr3, ?_, ?_, ?_⟩
  · intro p f hp hf
    rw [hmoved.same.table pivotPage_length hp]
    exact h.keeps hp hf
  · intro f hf
    rw [hmoved.same.isTable pivotPage_length]
    exact h.no_table f hf
  · intro f hf
    rw [← h.mem f hf]
    funext i
    refine hconf.mem f i (htouched f hf) ?_
    rintro ⟨rfl, -⟩
    exact h.no_table _ hf (onPivotPath_isTable h.ok.stack.ready (by simp [OnPivotPath]))

theorem reserved_laws (img : KernelImage) (pt : PivotTables) (held : Set Word) (m₀ : Machine) :
    OkLaws img (Reserved img pt held m₀) where
  link ht hok hq hf habs he her hfresh hr := reserved_link ht hok hq hf habs he her hfresh hr
  leaf e ht hok hpage hne hf := reserved_leaf e ht hok hpage hne hf

theorem reserved_alloc_laws (img : KernelImage) (pt : PivotTables) (held : Set Word) (m₀ : Machine)
    (hfault : E .page_fault) : AllocLaws img (Reserved img pt held m₀) (physical_alloc img) E where
  toOkLaws := reserved_laws img pt held m₀
  alloc := by
    intro m pages ht h
    refine wp_imp (wp_alloc_confined (fun _ => hfault) ht h.ok) ?_
    rintro r m' ⟨hr, hok, hconf, hmoved⟩
    have hsets : (pages \ held) \ {r} = (pages \ {r}) \ held := by
      ext f
      simp only [Set.mem_sdiff]
      tauto
    rw [hsets] at hok
    refine ⟨hmoved, .inr ⟨hr.1, good_isFrame (free_good h.ok.stack hr), h.ok.apart r hr, ?_⟩⟩
    refine reserved_moved h ?_ hok hmoved hconf fun f hf hmem => hmem.2 hf
    intro f hf
    refine ⟨h.subset hf, ?_⟩
    rintro rfl
    exact hr.2 hf

theorem reserved_free_laws (img : KernelImage) (pt : PivotTables) (held : Set Word) (m₀ : Machine)
    (hpanic : E (.panic "physical_free_range")) : FreeLaws img (Reserved img pt held m₀) (physical_free img) E where
  toOkLaws := reserved_laws img pt held m₀
  free := by
    intro m pages f ht h hframe hf htable
    refine wp_imp (wp_free_confined (fun _ => hpanic) ht h.ok hframe (fun hmem => hf hmem.1) htable) ?_
    rintro _ m' ⟨hok, hconf, hmoved⟩
    have hsets : (pages \ held) ∪ {f} = (pages ∪ {f}) \ held := by
      have hnot : f ∉ held := fun hmem => hf (h.subset hmem)
      ext g
      simp only [Set.mem_union, Set.mem_sdiff, Set.mem_singleton_iff]
      constructor
      · rintro (⟨h1, h2⟩ | rfl)
        · exact ⟨.inl h1, h2⟩
        · exact ⟨.inr rfl, hnot⟩
      · rintro ⟨h1 | rfl, h2⟩
        · exact .inl ⟨h1, h2⟩
        · exact .inr rfl
    rw [hsets] at hok
    refine ⟨hmoved, reserved_moved h (h.subset.trans Set.subset_union_left) hok hmoved hconf ?_⟩
    rintro g hg rfl
    exact hf (h.subset hg)

end Laws

/-! ## Paths of the two halves -/

theorem lower_nil : Lower [] := by
  intro i h
  cases h

theorem lower_tail {i : Index} {p : List Index} (h : Lower (i :: p)) : Lower p := by
  cases p with
  | nil => exact lower_nil
  | cons j p => simpa [Lower, List.getLast?_cons_cons] using h

theorem upper_cons {i j : Index} {p : List Index} : Upper (i :: j :: p) ↔ Upper (j :: p) := by
  simp [Upper, List.getLast?_cons_cons]

theorem upper_single {i : Index} : Upper [i] ↔ 256 < i.toNat := by
  simp [Upper]

theorem lower_not_upper {p : List Index} (h : Lower p) : ¬ Upper p := by
  rintro ⟨i, hi, hlt⟩
  have := h i hi
  omega

theorem lower_or_upper {p : List Index} (h : Outside p) : Lower p ∨ Upper p := by
  cases hlast : p.getLast? with
  | none => exact .inl fun i hi => by rw [hlast] at hi; cases hi
  | some i =>
    have hne : i.toNat ≠ 256 := by
      intro heq
      refine h ?_
      rw [hlast]
      exact congrArg some (BitVec.eq_of_toNat_eq heq)
    rcases Nat.lt_or_gt_of_ne hne with hlt | hgt
    · refine .inl fun j hj => ?_
      rw [hlast] at hj
      cases hj
      exact hlt
    · exact .inr ⟨i, hlast, hgt⟩

theorem pivot_index4 (img : KernelImage) : 256 < (index4 (Kernel_Pivot_Page img)).toNat := by
  have hlow := img.memory_le_start
  have hlt := img.kernel_start.isLt
  rw [index4, BitVec.extractLsb'_toNat, pivot_toNat, Nat.shiftRight_eq_div_pow]
  simp [Page_Small, Kernel_Memory_Start] at *
  omega

theorem upper_pagePath {v : Word} : Upper (pagePath v) ↔ 256 < (index4 v).toNat := by
  simp [Upper, pagePath]

theorem lower_pagePath {v : Word} : Lower (pagePath v) ↔ (index4 v).toNat < 256 := by
  simp [Lower, pagePath]

theorem lower_half_index4 {v : Word} (h : memory_is_lower_half v) : (index4 v).toNat < 256 := by
  have hend : Lower_Half_End.toNat = 2 ^ 47 - 1 := rfl
  simp only [memory_is_lower_half, decide_eq_true_eq, BitVec.le_def, hend] at h
  rw [index4, BitVec.extractLsb'_toNat, Nat.shiftRight_eq_div_pow]
  omega

theorem lower_ordinary {v : Word} (h : memory_is_lower_half v) : Ordinary img v := by
  have hlow := lower_half_index4 h
  refine ⟨?_, ?_⟩
  · intro heq
    rw [heq] at hlow
    exact absurd hlow (by decide)
  · intro heq
    have hpivot := upper_pagePath.mpr (pivot_index4 img)
    rw [show pagePath (Kernel_Pivot_Page img) = pagePath v from heq.symm] at hpivot
    exact lower_not_upper (lower_pagePath.mpr hlow) hpivot

/-! ## Page tables that are in order -/

@[simp] theorem under_mem (m : Machine) (r : Word) : (under m r).mem = m.mem := rfl

@[simp] theorem under_cr3 (m : Machine) (r : Word) : (under m r).cr3 = r := rfl

@[simp] theorem under_under (m : Machine) (r r' : Word) : under (under m r) r' = under m r' := rfl

@[simp] theorem under_self (m : Machine) : under m m.cr3 = m := rfl

/-- The page tables with these roots share the higher half and nothing else, and `free` are the pages
that the allocator has. -/
structure Spaces (img : KernelImage) (pt : PivotTables) (roots free : Set Word) (m : Machine) : Prop where
  tree : ∀ r ∈ roots, Tree (under m r)
  pages : ∀ r ∈ roots, PagesOk img pt free (under m r)
  shared : SharedUpper roots m
  disjoint : DisjointLower roots m

variable {roots free held pages : Set Word}

theorem isTable_of_own {f : Word} (h : IsOwnTable m f) : IsTable m f := by
  obtain ⟨p, hp, -, hf⟩ := h
  exact ⟨p, hp, hf⟩

theorem table_upper (h : SharedUpper roots m) {r r' : Word} (hr : r ∈ roots) (hr' : r' ∈ roots) {p : List Index}
    (hp : Upper p) : (under m r).table p = (under m r').table p := by
  induction p with
  | nil =>
    obtain ⟨i, hi, -⟩ := hp
    cases hi
  | cons i p ih =>
    cases p with
    | nil =>
      obtain ⟨f, hf, hf'⟩ := h r hr r' hr' i (upper_single.mp hp)
      rw [hf, hf']
    | cons j p =>
      rw [table_cons (under m r), ih (upper_cons.mp hp), table_cons (under m r')]
      rfl

theorem walk_upper (h : SharedUpper roots m) {r r' : Word} (hr : r ∈ roots) (hr' : r' ∈ roots) {page : List Index}
    (hpage : PagePath page) (hup : Upper page) : walk (under m r) page = walk (under m r') page := by
  match page, hpage.length_eq with
  | [i1, i2, i3, i4], _ => simp only [walk, entry, table_upper h hr hr' (upper_cons.mp hup), under_mem]

/-- The tables that only other page tables use than the current one. -/
def others (roots : Set Word) (m : Machine) : Set Word :=
  { f | ∃ r ∈ roots, r ≠ m.cr3 ∧ IsOwnTable (under m r) f }

theorem others_no_table (h : Spaces img pt roots free m) (hc : m.cr3 ∈ roots) {f : Word} (hf : f ∈ others roots m) :
    ¬ IsTable m f := by
  obtain ⟨r, hr, hne, p, hp, hlow, hpf⟩ := hf
  rintro ⟨q, hq, hqf⟩
  rcases lower_or_upper hq.outside with hql | hqu
  · exact h.disjoint _ hc r hr hne.symm f ⟨q, hq, hql, hqf⟩ ⟨p, hp, hlow, hpf⟩
  · have hqf' : (under m r).table q = some f := (table_upper h.shared hr hc hqu).trans hqf
    rw [(h.tree r hr).inj hp hq hpf hqf'] at hlow
    exact lower_not_upper hlow hqu

theorem others_not_free (h : Spaces img pt roots free m) {f : Word} (hf : f ∈ others roots m) : f ∉ free := by
  obtain ⟨r, hr, -, hown⟩ := hf
  intro hfree
  exact (h.pages r hr).apart f hfree (isTable_of_own hown)

/-- Frames that the current page table does not use can be reserved. -/
theorem reserved_start (h : PagesOk img pt free m) (hfree : ∀ f ∈ held, f ∉ free)
    (htable : ∀ f ∈ held, ¬ IsTable m f) : Reserved img pt held m (free ∪ held) m := by
  have hsets : (free ∪ held) \ held = free := by
    ext f
    simp only [Set.mem_sdiff, Set.mem_union]
    constructor
    · rintro ⟨h1 | h1, h2⟩
      · exact h1
      · exact absurd h1 h2
    · intro h1
      exact ⟨.inl h1, fun h2 => hfree f h2 h1⟩
  exact ⟨Set.subset_union_right, by rwa [hsets], rfl, fun _ hf => hf, htable, fun _ _ => rfl⟩

/-! ## What a call does to the page tables that are not current -/

section Call

variable (hothers : others roots m ⊆ held) (hres : Reserved img pt held m pages m')
include hothers hres

theorem other_lower_table {r : Word} (hr : r ∈ roots) (hne : r ≠ m.cr3) {p : List Index} (hp : TablePath p)
    (hlow : Lower p) : (under m' r).table p = (under m r).table p := by
  induction p with
  | nil => rfl
  | cons i p ih =>
    have hp' := tablePath_tail hp
    have hlow' := lower_tail hlow
    have ih := ih hp' hlow'
    cases hf : (under m r).table p with
    | none => rw [table_cons_none hf, table_cons_none (ih.trans hf)]
    | some f =>
      have hmem : (under m' r).mem f = (under m r).mem f := hres.mem f (hothers ⟨r, hr, hne, p, hp', hlow', hf⟩)
      rw [table_cons_some hf, table_cons_some (ih.trans hf), hmem]

theorem other_lower_walk {r : Word} (hr : r ∈ roots) (hne : r ≠ m.cr3) {page : List Index} (hpage : PagePath page)
    (hlow : Lower page) : walk (under m' r) page = walk (under m r) page := by
  cases page with
  | nil => rfl
  | cons i p =>
    have hp := pagePath_tail hpage
    have htable := other_lower_table hothers hres hr hne hp (lower_tail hlow)
    cases hf : (under m r).table p with
    | none => simp [walk, entry, htable, hf]
    | some f =>
      have hmem : (under m' r).mem f = (under m r).mem f :=
        hres.mem f (hothers ⟨r, hr, hne, p, hp, lower_tail hlow, hf⟩)
      rw [walk, walk, entry_cons_some hf, entry_cons_some (htable.trans hf), hmem]

theorem root_mem {r : Word} (hr : r ∈ roots) (hne : r ≠ m.cr3) : (under m' r).mem r = (under m r).mem r :=
  hres.mem r (hothers ⟨r, hr, hne, [], tablePath_nil, lower_nil, rfl⟩)

variable (h : Spaces img pt roots free m)
include h

/-- The first table on the way is the one it was. -/
theorem kept_upper {r : Word} (hr : r ∈ roots) {i : Index} (hi : 256 < i.toNat) :
    ∃ f, (under m' r).table [i] = some f ∧ (under m r).table [i] = some f := by
  obtain ⟨f, hf, -⟩ := h.shared r hr r hr i hi
  refine ⟨f, ?_, hf⟩
  by_cases hc : r = m.cr3
  · have hpath : TablePath [i] := by
      refine ⟨by simp, ?_⟩
      intro hout
      cases hout
      exact absurd hi (by decide)
    have hkept := hres.keeps hpath (by rw [hc] at hf; exact hf)
    rw [hc, ← hres.cr3]
    exact hkept
  · have hroot := table_cons_some (m := under m' r) (i := i) (p := []) rfl
    rw [hroot, ← hf, table_cons_some (m := under m r) (p := []) rfl, under_cr3, under_cr3,
      root_mem hothers hres hr hc]

theorem call_shared : SharedUpper roots m' := by
  intro r hr r' hr' i hi
  obtain ⟨f, hf, hfr⟩ := kept_upper hothers hres h hr hi
  obtain ⟨f', hf', hfr'⟩ := kept_upper hothers hres h hr' hi
  obtain ⟨g, hg, hg'⟩ := h.shared r hr r' hr' i hi
  rw [hg] at hfr
  rw [hg'] at hfr'
  cases hfr
  cases hfr'
  exact ⟨_, hf, hf'⟩

theorem other_table_cases {r : Word} (hc : m.cr3 ∈ roots) (hr : r ∈ roots) (hne : r ≠ m.cr3) {p : List Index}
    {f : Word} (hp : TablePath p) (hf : (under m' r).table p = some f) :
    (Lower p ∧ f ∈ held ∧ (under m r).table p = some f) ∨ (Upper p ∧ m'.table p = some f) := by
  rcases lower_or_upper hp.outside with hlow | hup
  · rw [other_lower_table hothers hres hr hne hp hlow] at hf
    exact .inl ⟨hlow, hothers ⟨r, hr, hne, p, hp, hlow, hf⟩, hf⟩
  · rw [table_upper (call_shared hothers hres h) hr hc hup, ← hres.cr3] at hf
    exact .inr ⟨hup, hf⟩

theorem call_tree (hc : m.cr3 ∈ roots) (ht : Tree m') {r : Word} (hr : r ∈ roots) : Tree (under m' r) := by
  by_cases hne : r = m.cr3
  · rw [hne, ← hres.cr3]
    exact ht
  · have hcases := @other_table_cases img pt m m' roots free held pages hothers hres h r hc hr hne
    refine ⟨?_, ?_⟩
    · have hself := (h.tree r hr).self
      rw [SelfMapped, under_cr3, root_mem hothers hres hr hne]
      exact hself
    · intro p q f hp hq hpf hqf
      rcases hcases hp hpf with ⟨-, hheld, hpf⟩ | ⟨-, hpf⟩ <;> rcases hcases hq hqf with ⟨-, hheld', hqf⟩ | ⟨-, hqf⟩
      · exact (h.tree r hr).inj hp hq hpf hqf
      · exact (hres.no_table f hheld ⟨q, hq, hqf⟩).elim
      · exact (hres.no_table f hheld' ⟨p, hp, hpf⟩).elim
      · exact ht.inj hp hq hpf hqf

theorem call_disjoint (hc : m.cr3 ∈ roots) : DisjointLower roots m' := by
  -- a table of another page table is in `held`, and so it is no table of the current one
  have hheld : ∀ r ∈ roots, r ≠ m.cr3 → ∀ f, IsOwnTable (under m' r) f → f ∈ held ∧ IsOwnTable (under m r) f := by
    rintro r hr hne f ⟨p, hp, hlow, hf⟩
    rcases other_table_cases hothers hres h hc hr hne hp hf with ⟨-, hmem, hf⟩ | ⟨hup, -⟩
    · exact ⟨hmem, p, hp, hlow, hf⟩
    · exact (lower_not_upper hlow hup).elim
  intro r hr r' hr' hne f hf hf'
  by_cases hrc : r = m.cr3
  · have hrc' : r' ≠ m.cr3 := fun heq => hne (hrc.trans heq.symm)
    rw [hrc, ← hres.cr3] at hf
    exact hres.no_table f (hheld r' hr' hrc' f hf').1 (isTable_of_own hf)
  · by_cases hrc' : r' = m.cr3
    · rw [hrc', ← hres.cr3] at hf'
      exact hres.no_table f (hheld r hr hrc f hf).1 (isTable_of_own hf')
    · exact h.disjoint r hr r' hr' hne f (hheld r hr hrc f hf).2 (hheld r' hr' hrc' f hf').2

theorem call_pages (hc : m.cr3 ∈ roots) (ht : Tree m') {r : Word} (hr : r ∈ roots) :
    PagesOk img pt (pages \ held) (under m' r) := by
  by_cases hne : r = m.cr3
  · rw [hne, ← hres.cr3]
    exact hres.ok
  · have hup : ∀ p, Upper p → (under m' r).table p = m'.table p := by
      intro p hp
      rw [table_upper (call_shared hothers hres h) hr hc hp, ← hres.cr3]
      rfl
    have hpivot : Upper [index4 (Kernel_Pivot_Page img)] := ⟨_, rfl, pivot_index4 img⟩
    have hready := hres.ok.stack.ready
    have hf1 : pt.f1 ≠ r := by
      rintro heq
      have hheld : r ∈ held := hothers ⟨r, hr, hne, [], tablePath_nil, lower_nil, rfl⟩
      exact hres.no_table r hheld ⟨_, pivotTable_path img, heq ▸ hready.t1⟩
    have hready' : PivotReady img pt (under m' r) :=
      ⟨(call_tree hothers hres h hc ht hr).self, (hup _ hpivot).trans hready.t3,
        (hup _ (upper_cons.mpr hpivot)).trans hready.t2,
        (hup _ (upper_cons.mpr (upper_cons.mpr hpivot))).trans hready.t1, hf1, hready.ne3, hready.ne2⟩
    have hapart : ∀ f ∈ pages \ held, ¬ IsTable (under m' r) f := by
      rintro f hf ⟨p, hp, hpf⟩
      rcases other_table_cases hothers hres h hc hr hne hp hpf with ⟨-, hmem, -⟩ | ⟨-, hpf⟩
      · exact hf.2 hmem
      · exact hres.ok.apart f hf ⟨p, hp, hpf⟩
    exact ⟨⟨hready', hres.ok.stack.holds, hres.ok.stack.top,
      fun f hf hpath => hapart f hf (onPivotPath_isTable hready' hpath)⟩, hres.ok.bottom, hapart⟩

theorem call_spaces (hc : m.cr3 ∈ roots) (ht : Tree m') : Spaces img pt roots (pages \ held) m' where
  tree _ hr := call_tree hothers hres h hc ht hr
  pages _ hr := call_pages hothers hres h hc ht hr
  shared := call_shared hothers hres h
  disjoint := call_disjoint hothers hres h hc

end Call

/-! ## One call under the current page table -/

/-- Of the pages of the current page table only `v` and the pivot page have changed, and of the others no
page of the lower half. -/
structure ActsOn (img : KernelImage) (roots : Set Word) (v : Word) (m m' : Machine) : Prop where
  cr3 : m'.cr3 = m.cr3
  current : ∀ {page : List Index}, PagePath page → page ≠ pivotPage img → page ≠ pagePath v →
    walk m' page = walk m page
  others : ∀ {r : Word}, r ∈ roots → r ≠ m.cr3 → ∀ {page : List Index}, PagePath page → Lower page →
    walk (under m' r) page = walk (under m r) page

theorem others_reserved (h : Spaces img pt roots free m) (hc : m.cr3 ∈ roots) :
    Reserved img pt (others roots m) m (free ∪ others roots m) m :=
  reserved_start (h.pages _ hc) (fun _ hf => others_not_free h hf) fun _ hf => others_no_table h hc hf

section Acts

variable {v : Word} (h : Spaces img pt roots free m) (hc : m.cr3 ∈ roots) (hv : Ordinary img v)
include h hc hv

theorem wp_map_page_spaces (hfault : E .page_fault) (p perms : Word) :
    wp (map_page (physical_alloc img) v p perms) (fun _ m' =>
      ActsOn img roots v m m' ∧ ∃ free', Spaces img pt roots free' m') E m := by
  have hlaws := reserved_alloc_laws img pt (others roots m) m hfault
  refine wp_imp (wp_map_page hv.outside hv.not_pivot hlaws (h.tree _ hc) (others_reserved h hc)) ?_
  rintro status m' ⟨pages, hmaps⟩
  exact ⟨⟨hmaps.ok.cr3, hmaps.others, fun hr hne => other_lower_walk subset_rfl hmaps.ok hr hne⟩,
    _, call_spaces subset_rfl hmaps.ok h hc hmaps.tree⟩

theorem wp_map_update_page_spaces (perms : Word) :
    wp (map_update_page v perms) (fun _ m' => ActsOn img roots v m m' ∧ ∃ free', Spaces img pt roots free' m') E m := by
  have hlaws := reserved_laws img pt (others roots m) m
  refine wp_imp (wp_map_update_page hv.outside hv.not_pivot hlaws (h.tree _ hc) (others_reserved h hc)) ?_
  intro status m' hup
  exact ⟨⟨hup.ok.cr3, fun hpage _ => hup.others hpage, fun hr hne => other_lower_walk subset_rfl hup.ok hr hne⟩,
    _, call_spaces subset_rfl hup.ok h hc hup.tree⟩

/-- The frame is only freed when the page is mapped, and when it is no table of any of the page tables. -/
theorem wp_unmap_page_spaces (hpanic : E (.panic "physical_free_range")) {flag : Bool}
    (hmay : flag = true → MayFreeIn m.cr3 roots m v) :
    wp (unmap_page (physical_free img) v flag) (fun _ m' =>
      ActsOn img roots v m m' ∧ ∃ free', Spaces img pt roots free' m') E m := by
  have hlaws := reserved_free_laws img pt (others roots m) m hpanic
  have hfree : flag = true → Freeable m (free ∪ others roots m) v := by
    intro hflag e he
    obtain ⟨frame, perms, hwalk, hused, htable⟩ := hmay hflag
    rw [under_self, walk, he, Option.bind_some, leafValue] at hwalk
    split at hwalk
    · rename_i hpres
      cases hwalk
      refine ⟨hpres, htable _ hc, ?_⟩
      rintro (hmem | ⟨r, hr, -, hown⟩)
      · exact hused ((freePage_iff (h.pages _ hc) _).mpr hmem)
      · exact htable r hr (isTable_of_own hown)
    · cases hwalk
  refine wp_imp (wp_unmap_page hv.outside hv.not_pivot hlaws (h.tree _ hc) (others_reserved h hc) hfree) ?_
  intro _ m' hunmaps
  exact ⟨⟨hunmaps.ok.cr3, hunmaps.others, fun hr hne => other_lower_walk subset_rfl hunmaps.ok hr hne⟩,
    _, call_spaces subset_rfl hunmaps.ok h hc hunmaps.tree⟩

end Acts

/-! ## Calls on a page table that need not be current -/

/-- What the calls on the page table `root` do not change. -/
structure Isolated (img : KernelImage) (roots : Set Word) (root : Word) (m m' : Machine) : Prop where
  cr3 : m'.cr3 = m.cr3
  lower : ∀ r ∈ roots, r ≠ root → ∀ page, PagePath page → Lower page → walk (under m' r) page = walk (under m r) page
  upper : ∀ r ∈ roots, ∀ page, PagePath page → Upper page → page ≠ pivotPage img →
    walk (under m' r) page = walk (under m r) page

theorem isolated_refl (img : KernelImage) (roots : Set Word) (root : Word) (m : Machine) :
    Isolated img roots root m m :=
  ⟨rfl, fun _ _ _ _ _ _ => rfl, fun _ _ _ _ _ _ => rfl⟩

theorem Isolated.trans {root : Word} {m₁ m₂ : Machine} (h : Isolated img roots root m m₁)
    (h' : Isolated img roots root m₁ m₂) : Isolated img roots root m m₂ where
  cr3 := h'.cr3.trans h.cr3
  lower r hr hne page hp hlow := (h'.lower r hr hne page hp hlow).trans (h.lower r hr hne page hp hlow)
  upper r hr page hp hup hne := (h'.upper r hr page hp hup hne).trans (h.upper r hr page hp hup hne)

theorem spaces_under (h : Spaces img pt roots free m) (root : Word) : Spaces img pt roots free (under m root) :=
  ⟨h.tree, h.pages, h.shared, h.disjoint⟩

/-- A call under `root`, after which the register is restored. -/
theorem isolated_of_acts {root v c : Word} {free' : Set Word} {m₁ : Machine} (h : Spaces img pt roots free m)
    (hroot : root ∈ roots) (hlow : memory_is_lower_half v) (hacts : ActsOn img roots v (under m root) m₁)
    (h' : Spaces img pt roots free' m₁) (hcr3 : m.cr3 = c) : Isolated img roots root m (under m₁ c) := by
  refine ⟨hcr3.symm, fun r hr hne page hp hlower => hacts.others hr hne hp hlower, ?_⟩
  intro r hr page hp hup hne
  have hv : page ≠ pagePath v := by
    rintro rfl
    exact lower_not_upper (lower_pagePath.mpr (lower_half_index4 hlow)) hup
  have hcurrent := hacts.current hp hne hv
  rw [under_under, walk_upper h'.shared hr hroot hp hup, walk_upper h.shared hr hroot hp hup]
  rw [show under m₁ root = m₁ by rw [← under_self m₁, hacts.cr3]; rfl]
  exact hcurrent

theorem wp_map_external_page {root v : Word} (h : Spaces img pt roots free m) (hroot : root ∈ roots)
    (hlow : memory_is_lower_half v) (hfault : E .page_fault) (p perms : Word) :
    wp (map_external_page img root v p perms) (fun _ m' =>
      Isolated img roots root m m' ∧ ∃ free', Spaces img pt roots free' m') E m := by
  unfold map_external_page read_cr3 write_cr3
  simp only [wp_bind, wp_get, wp_pure, wp_modify]
  have hcall := wp_map_page_spaces (E := E) (spaces_under h root) hroot (lower_ordinary hlow) hfault p perms
  refine wp_imp hcall ?_
  rintro status m₁ ⟨hacts, free', h'⟩
  exact ⟨isolated_of_acts h hroot hlow hacts h' rfl, free', spaces_under h' _⟩

theorem wp_unmap_external_page {root v : Word} (h : Spaces img pt roots free m) (hroot : root ∈ roots)
    (hlow : memory_is_lower_half v) (hpanic : E (.panic "physical_free_range")) {flag : Bool}
    (hmay : flag = true → MayFreeIn root roots m v) :
    wp (unmap_external_page img root v flag) (fun _ m' =>
      Isolated img roots root m m' ∧ ∃ free', Spaces img pt roots free' m') E m := by
  unfold unmap_external_page read_cr3 write_cr3
  simp only [wp_bind, wp_get, wp_pure, wp_modify]
  have hcall := wp_unmap_page_spaces (E := E) (spaces_under h root) hroot (lower_ordinary hlow) hpanic hmay
  refine wp_imp hcall ?_
  rintro _ m₁ ⟨hacts, free', h'⟩
  exact ⟨isolated_of_acts h hroot hlow hacts h' rfl, free', spaces_under h' _⟩

theorem external_step {root : Word} (h : Spaces img pt roots free m) (hroot : root ∈ roots)
    (hstep : ExternalStep img root (MayFreeIn root roots) m m') :
    Isolated img roots root m m' ∧ ∃ free', Spaces img pt roots free' m' := by
  cases hstep with
  | map hv hrun =>
    have h' := wp_ok (wp_map_external_page (E := fun _ => True) h hroot hv trivial _ _) hrun
    exact h'
  | unmap hv hmay hrun =>
    have h' := wp_ok (wp_unmap_external_page (E := fun _ => True) h hroot hv trivial hmay) hrun
    exact h'

theorem external_run {root : Word} (h : Spaces img pt roots free m) (hroot : root ∈ roots)
    (hrun : Relation.ReflTransGen (ExternalStep img root (MayFreeIn root roots)) m m') :
    Isolated img roots root m m' ∧ ∃ free', Spaces img pt roots free' m' := by
  induction hrun with
  | refl => exact ⟨isolated_refl img roots root m, free, h⟩
  | tail _ hstep ih =>
    obtain ⟨hisolated, free₁, h₁⟩ := ih
    obtain ⟨hisolated', free₂, h₂⟩ := external_step h₁ hroot hstep
    exact ⟨hisolated.trans hisolated', free₂, h₂⟩

/-- As long as only frames are freed that are mapped, are not free and are no tables of the two page
tables `A` and `B`, calls on `A` leave `B` and the higher half alone. -/
theorem external_calls_isolated {A B : Word} (hne : B ≠ A) (h : Spaces img pt {A, B} free m)
    (hrun : Relation.ReflTransGen (ExternalStep img A (MayFreeIn A {A, B})) m m') :
    (∀ page, PagePath page → Lower page → walk (under m' B) page = walk (under m B) page) ∧
    (∀ r ∈ ({A, B} : Set Word), ∀ page, PagePath page → Upper page → page ≠ pivotPage img →
      walk (under m' r) page = walk (under m r) page) ∧
    m'.cr3 = m.cr3 ∧ DisjointLower {A, B} m' := by
  obtain ⟨hisolated, free', h'⟩ := external_run h (by simp) hrun
  exact ⟨hisolated.lower B (by simp) hne, hisolated.upper, hisolated.cr3, h'.disjoint⟩

/-! ## Two page tables -/

/-- Tables that carry their own paths form a tree. -/
theorem label_table (label : Word → List Index) (hroot : label m.cr3 = [])
    (hstep : ∀ f i, TablePath (i :: label f) → present (m.mem f i) →
      label (page_entry_to_phys (m.mem f i)) = i :: label f)
    {p : List Index} {f : Word} (hp : TablePath p) (hf : m.table p = some f) : label f = p := by
  induction p generalizing f with
  | nil =>
    cases hf
    exact hroot
  | cons i p ih =>
    cases hg : m.table p with
    | none =>
      rw [table_cons_none hg] at hf
      cases hf
    | some g =>
      have hlabel := ih (tablePath_tail hp) hg
      rw [table_cons_some hg] at hf
      split at hf
      · rename_i hpres
        cases hf
        rw [hstep g i (by rwa [hlabel]) hpres, hlabel]
      · cases hf

/-- The page tables with the roots 0x1000 and 0x5000. In the lower half each has a table on each level. -/
def twoSpaces : Machine where
  mem f i :=
    if f = 0x1000 ∨ f = 0x5000 then
      if i = fractal then f ||| 3
      else if i = 511 then 0x2003
      else if 256 < i then 0x10000003 ||| i.setWidth 64 <<< 12
      else if i = 0 then (if f = 0x1000 then 0xa007 else 0x6007)
      else 0
    else if f = 0x2000 ∧ i = 510 then 0x3003
    else if f = 0x3000 ∧ i = 0 then 0x4003
    else if f = 0xa000 ∧ i = 0 then 0xb007
    else if f = 0xb000 ∧ i = 0 then 0xc007
    else if f = 0x6000 ∧ i = 0 then 0x7007
    else if f = 0x7000 ∧ i = 0 then 0x8007
    else 0
  cr3 := 0x1000
  physical_page := invalid_phys_addr

def twoSpacesLabel (f : Word) : List Index :=
  if f = 0x1000 ∨ f = 0x5000 then []
  else if f = 0x2000 then [511]
  else if f = 0x3000 then [510, 511]
  else if f = 0x4000 then [0, 510, 511]
  else if f = 0xa000 ∨ f = 0x6000 then [0]
  else if f = 0xb000 ∨ f = 0x7000 then [0, 0]
  else if f = 0xc000 ∨ f = 0x8000 then [0, 0, 0]
  else [f.extractLsb' 12 9]

theorem upper_label : ∀ i : Index, 256 < i → i ≠ 511 →
    twoSpacesLabel (page_entry_to_phys (0x10000003 ||| i.setWidth 64 <<< 12)) = [i] := by
  decide +kernel

theorem twoSpaces_step (f : Word) (i : Index) (hpath : TablePath (i :: twoSpacesLabel f))
    (hpres : present (twoSpaces.mem f i)) :
    twoSpacesLabel (page_entry_to_phys (twoSpaces.mem f i)) = i :: twoSpacesLabel f := by
  have hroot : f = 0x1000 ∨ f = 0x5000 → twoSpacesLabel f = [] := by
    rintro (rfl | rfl) <;> rfl
  simp only [twoSpaces] at hpres ⊢
  split_ifs at hpres ⊢ with h0 h1 h2 h3 h4 h5
  · rw [hroot h0, h1] at hpath
    exact absurd rfl hpath.outside
  · rw [hroot h0, h2]
    rfl
  · rw [hroot h0]
    exact upper_label i h3 h2
  · rw [hroot h0, h4]
    rfl
  · rw [hroot h0, h4]
    rfl
  · cases hpres
  all_goals first | (rename_i h; obtain ⟨rfl, rfl⟩ := h; rfl) | cases hpres

theorem twoSpaces_label {r : Word} (hr : r ∈ ({0x1000, 0x5000} : Set Word)) {p : List Index} {f : Word}
    (hp : TablePath p) (hf : (under twoSpaces r).table p = some f) : twoSpacesLabel f = p := by
  refine label_table (m := under twoSpaces r) twoSpacesLabel ?_ twoSpaces_step hp hf
  rcases hr with rfl | rfl <;> rfl

theorem twoSpaces_tree {r : Word} (hr : r ∈ ({0x1000, 0x5000} : Set Word)) : Tree (under twoSpaces r) := by
  refine ⟨?_, ?_⟩
  · rcases hr with rfl | rfl <;> exact ⟨by decide, by decide⟩
  · intro p q f hp hq hpf hqf
    rw [← twoSpaces_label hr hp hpf, ← twoSpaces_label hr hq hqf]

theorem twoSpaces_shared : SharedUpper {0x1000, 0x5000} twoSpaces := by
  have h : ∀ r ∈ ({0x1000, 0x5000} : Set Word), ∀ i : Index, 256 < i.toNat →
      (under twoSpaces r).table [i] = some ((if i = 511 then 0x2000 else 0x10000000 ||| i.setWidth 64 <<< 12 : Word)) := by
    rintro r (rfl | rfl) <;> decide +kernel
  intro r hr r' hr' i hi
  exact ⟨_, h r hr i hi, h r' hr' i hi⟩

/-- The page table that a table of the lower half belongs to. -/
def twoSpacesOwner (f : Word) : Word := if f = 0x1000 ∨ 0xa000 ≤ f then 0x1000 else 0x5000

theorem twoSpaces_owner_step (f : Word) (i : Index) (hlow : Lower (i :: twoSpacesLabel f))
    (hpres : present (twoSpaces.mem f i)) :
    twoSpacesOwner (page_entry_to_phys (twoSpaces.mem f i)) = twoSpacesOwner f := by
  have hroot : f = 0x1000 ∨ f = 0x5000 → i.toNat < 256 := by
    rintro (rfl | rfl) <;> exact hlow i rfl
  simp only [twoSpaces] at hpres ⊢
  split_ifs at hpres ⊢ with h0 h1 h2 h3 h4 h5
  · exact absurd (h1 ▸ hroot h0) (by decide)
  · exact absurd (h2 ▸ hroot h0) (by decide)
  · have := hroot h0
    rw [BitVec.lt_def] at h3
    simp at h3
    omega
  · rw [h5]
    rfl
  · rw [h0.resolve_left h5]
    rfl
  · cases hpres
  · rename_i h
    rw [h.1, h.2] at hlow
    exact absurd (hlow 511 rfl) (by decide)
  · rename_i h
    rw [h.1, h.2] at hlow
    exact absurd (hlow 511 rfl) (by decide)
  all_goals first | (rename_i h; obtain ⟨rfl, rfl⟩ := h; rfl) | cases hpres

theorem twoSpaces_owner {r : Word} (hr : r ∈ ({0x1000, 0x5000} : Set Word)) {p : List Index} {f : Word}
    (hp : TablePath p) (hlow : Lower p) (hf : (under twoSpaces r).table p = some f) : twoSpacesOwner f = r := by
  induction p generalizing f with
  | nil =>
    cases hf
    rcases hr with rfl | rfl <;> rfl
  | cons i p ih =>
    cases hg : (under twoSpaces r).table p with
    | none =>
      rw [table_cons_none hg] at hf
      cases hf
    | some g =>
      have hlabel := twoSpaces_label hr (tablePath_tail hp) hg
      rw [table_cons_some hg] at hf
      split at hf
      · rename_i hpres
        cases hf
        rw [← ih (tablePath_tail hp) (lower_tail hlow) hg]
        exact twoSpaces_owner_step g i (by rwa [hlabel]) hpres
      · cases hf

theorem twoSpaces_disjoint : DisjointLower {0x1000, 0x5000} twoSpaces := by
  rintro r hr r' hr' hne f ⟨p, hp, hlow, hpf⟩ ⟨q, hq, hlow', hqf⟩
  exact hne ((twoSpaces_owner hr hp hlow hpf).symm.trans (twoSpaces_owner hr' hq hlow' hqf))

theorem twoSpaces_pages {r : Word} (hr : r ∈ ({0x1000, 0x5000} : Set Word)) :
    PagesOk linkedImage linkedTables ∅ (under twoSpaces r) := by
  have hready : PivotReady linkedImage linkedTables (under twoSpaces r) := by
    rcases hr with rfl | rfl <;>
    exact ⟨⟨by decide, by decide⟩, by decide, by decide, by decide, by decide, by decide, by decide⟩
  refine ⟨⟨hready, ⟨[], .nil, by simp, by simp, by simp⟩, fun h => absurd rfl h, by simp⟩, ?_, by simp⟩
  intro _
  show present (twoSpaces.mem 0x4000 (pivotIndex linkedImage)) = false
  decide

theorem twoSpaces_live : Spaces linkedImage linkedTables {0x1000, 0x5000} ∅ twoSpaces :=
  ⟨fun _ => twoSpaces_tree, fun _ => twoSpaces_pages, twoSpaces_shared, twoSpaces_disjoint⟩

/-- No page of the lower half is mapped. -/
theorem twoSpaces_lower {r : Word} (hr : r ∈ ({0x1000, 0x5000} : Set Word)) {page : List Index}
    (hpage : PagePath page) : walk (under twoSpaces r) page = none := by
  match page, hpage.length_eq with
  | [i1, i2, i3, i4], _ =>
    cases hf : (under twoSpaces r).table [i2, i3, i4] with
    | none => simp [walk, entry, hf]
    | some f =>
      have hlabel := twoSpaces_label hr (pagePath_tail hpage) hf
      rw [walk, entry_cons_some hf]
      have hzero : twoSpaces.mem f i1 = 0 := by
        unfold twoSpacesLabel at hlabel
        split_ifs at hlabel with h0 h1 h2 h3 h4 h5 h6 <;> try cases hlabel
        · subst h3
          simp [twoSpaces]
        · rcases h6 with rfl | rfl <;> simp [twoSpaces]
      rw [under_mem, hzero]
      rfl

/-- The machine after the frame `phys` has been mapped at 0x1000 in the first of the two page tables. -/
def mappedAt (phys : Word) : Machine :=
  { twoSpaces with mem := setWord twoSpaces.mem 0xc000 1 (leafEntry phys Memory_Writable) }

theorem twoSpaces_map (phys : Word) (may : Machine → Word → Prop) :
    ExternalStep linkedImage 0x1000 may twoSpaces (mappedAt phys) := by
  have hrun : (map_external_page linkedImage 0x1000 0x1000 phys Memory_Writable).run twoSpaces = .ok (.Ok, mappedAt phys) := rfl
  exact .map (by decide) hrun

theorem mapped_isolated : ∃ m',
    Relation.ReflTransGen (ExternalStep linkedImage 0x1000 (MayFreeIn 0x1000 {0x1000, 0x5000})) twoSpaces m' ∧
    walk (under m' 0x1000) (pagePath 0x1000) = some (0x9000, Memory_Writable ||| Memory_Present) ∧
    walk (under m' 0x5000) (pagePath 0x1000) = none := by
  have hrun := Relation.ReflTransGen.single (twoSpaces_map 0x9000 (MayFreeIn 0x1000 {0x1000, 0x5000}))
  obtain ⟨hlower, -, -, -⟩ := external_calls_isolated (by decide) twoSpaces_live hrun
  refine ⟨_, hrun, by decide, ?_⟩
  rw [hlower _ (pagePath_of_index4 (by decide)) (lower_pagePath.mpr (by decide))]
  exact twoSpaces_lower (by simp) (pagePath_of_index4 (by decide))

/-- A table of the other page table is mapped and then freed. The stack puts its header into it. -/
theorem freed_table_not_isolated : Spaces linkedImage linkedTables {0x1000, 0x5000} ∅ twoSpaces ∧
    (∀ r ∈ ({0x1000, 0x5000} : Set Word), ∀ page, PagePath page → walk (under twoSpaces r) page = none) ∧
    ∃ m', Relation.ReflTransGen (ExternalStep linkedImage 0x1000 (MappedIn 0x1000)) twoSpaces m' ∧
      ∃ page, PagePath page ∧ Lower page ∧ walk (under m' 0x5000) page ≠ walk (under twoSpaces 0x5000) page := by
  obtain ⟨m', hunmap, hwalk⟩ : ∃ m', (unmap_external_page linkedImage 0x1000 0x1000 true).run (mappedAt 0x8000) =
      .ok ((), m') ∧ walk (under m' 0x5000) (pagePath 0) = some (0, 0xfff) := ⟨_, rfl, by decide⟩
  refine ⟨twoSpaces_live, fun r hr page hpage => twoSpaces_lower hr hpage, m', ?_, pagePath 0,
    pagePath_of_index4 (by decide), lower_pagePath.mpr (by decide), ?_⟩
  · refine (Relation.ReflTransGen.single (twoSpaces_map 0x8000 _)).tail (.unmap (v := 0x1000) (by decide) ?_ hunmap)
    intro _
    unfold MappedIn
    decide
  · rw [hwalk, twoSpaces_lower (by simp) (pagePath_of_index4 (by decide))]
    simp

end KernelOfTruth.AddressSpace
