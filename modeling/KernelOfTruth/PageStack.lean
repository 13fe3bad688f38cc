import KernelOfTruth.PhysicalAllocator

/-! # Free pages are neither lost nor handed out twice -/

open KernelOfTruth.Lib KernelOfTruth.Code KernelOfTruth.Spec KernelOfTruth.Bits KernelOfTruth.Paging
  KernelOfTruth.PhysicalAllocator

namespace KernelOfTruth.PageStack

/-! ## Pages of a range -/

theorem mem_pages {r : PageRange} {f : Word} :
    f ∈ r.pages ↔ f.toNat % 4096 = 0 ∧ r.start.toNat ≤ f.toNat ∧ f.toNat < r.start.toNat + r.length.toNat := by
  simp only [PageRange.pages, Set.mem_ofPred_eq, is_aligned_iff]

theorem start_mem_pages {r : PageRange} (hr : r.Good) : r.start ∈ r.pages := by
  have := hr.nonempty
  exact ⟨hr.start_aligned, le_rfl, by omega⟩

theorem mem_pages_one {s f : Word} (hs : is_aligned s Page_Small) :
    f ∈ (⟨s, Page_Small⟩ : PageRange).pages ↔ f = s := by
  have hal := (is_aligned_iff _).mp hs
  rw [mem_pages]
  simp only [show Page_Small.toNat = 4096 from rfl]
  constructor
  · rintro ⟨hf, hle, hlt⟩
    apply BitVec.eq_of_toNat_eq
    omega
  · rintro rfl
    omega

section Shrink

variable {s len : Word}

/-- The last page of a range. -/
theorem last_toNat (hr : (⟨s, len⟩ : PageRange).Good) :
    (s + (len - Page_Small)).toNat = s.toNat + (len.toNat - 4096) := by
  obtain ⟨-, hlen, hpos, hbelow⟩ := hr
  have hlen' := (is_aligned_iff _).mp hlen
  simp only at hlen' hpos hbelow
  rw [BitVec.toNat_add, sub_page (by omega)]
  omega

theorem last_mem_pages (hr : (⟨s, len⟩ : PageRange).Good) :
    s + (len - Page_Small) ∈ (⟨s, len⟩ : PageRange).pages := by
  rw [mem_pages, last_toNat hr]
  obtain ⟨hstart, hlen, hpos, -⟩ := hr
  have hstart' := (is_aligned_iff _).mp hstart
  have hlen' := (is_aligned_iff _).mp hlen
  simp only at hstart' hlen' hpos ⊢
  omega

theorem shrink_good (hr : (⟨s, len⟩ : PageRange).Good) (hlt : 4096 < len.toNat) :
    (⟨s, len - Page_Small⟩ : PageRange).Good := by
  have hsub := sub_page (le_of_lt hlt)
  have hlen' := (is_aligned_iff _).mp hr.length_aligned
  have hbelow := hr.below
  simp only at hlen' hbelow
  refine ⟨hr.start_aligned, (is_aligned_iff _).mpr ?_, ?_, ?_⟩ <;> simp only [hsub] <;> omega

theorem mem_pages_shrink (hr : (⟨s, len⟩ : PageRange).Good) (hlt : 4096 < len.toNat) (f : Word) :
    f ∈ (⟨s, len - Page_Small⟩ : PageRange).pages ↔
      f ∈ (⟨s, len⟩ : PageRange).pages ∧ f ≠ s + (len - Page_Small) := by
  have hsub := sub_page (le_of_lt hlt)
  have hlast := last_toNat hr
  have hstart' := (is_aligned_iff _).mp hr.start_aligned
  have hlen' := (is_aligned_iff _).mp hr.length_aligned
  simp only at hstart' hlen'
  simp only [mem_pages, hsub]
  constructor
  · rintro ⟨hf, hle, hlt'⟩
    refine ⟨⟨hf, hle, by omega⟩, ?_⟩
    rintro rfl
    omega
  · rintro ⟨⟨hf, hle, hlt'⟩, hne⟩
    have : f.toNat ≠ (s + (len - Page_Small)).toNat := fun e => hne (BitVec.eq_of_toNat_eq e)
    omega

end Shrink

/-! ## Chains of headers -/

theorem chain_congr {mem mem' : Word → Index → Word} {p : Word} {rs : List PageRange}
    (h : Chain mem p rs) (heq : ∀ r ∈ rs, mem' r.start = mem r.start) : Chain mem' p rs := by
  induction h with
  | nil => exact .nil
  | @cons p rs hp _ ih =>
    have hhead : mem' p = mem p := heq ⟨p, lengthOf mem p⟩ (by simp)
    have hnext : nextOf mem' p = nextOf mem p := by simp [nextOf, hhead]
    have hlen : lengthOf mem' p = lengthOf mem p := by simp [lengthOf, hhead]
    rw [← hlen]
    exact .cons hp (hnext ▸ ih fun r hr => heq r (by simp [hr]))

/-! ## The invariant -/

/-- The stack holds exactly the pages in `free`, its top is mapped at the pivot page, and the page tables
of the pivot page are not among the free pages. -/
structure StackInv (img : KernelImage) (pt : PivotTables) (m : Machine) (free : Set Word) : Prop where
  ready : PivotReady img pt m
  holds : Holds m free
  top : m.physical_page ≠ invalid_phys_addr → PivotAt img pt m m.physical_page
  apart : ∀ f ∈ free, ¬ OnPivotPath pt m f

variable {img : KernelImage} {pt : PivotTables} {m m' : Machine} {free : Set Word}

theorem StackInv.congr (h : StackInv img pt m free) (hcr3 : m'.cr3 = m.cr3)
    (hpage : m'.physical_page = m.physical_page)
    (hupper : ∀ f i, UpperSlot img pt m f i → m'.mem f i = m.mem f i)
    (hleaf : m'.mem pt.f1 (pivotIndex img) = m.mem pt.f1 (pivotIndex img))
    (hfree : ∀ f ∈ free, m'.mem f = m.mem f) : StackInv img pt m' free := by
  obtain ⟨rs, hchain, hgood, hdisj, hunion⟩ := h.holds
  refine ⟨ready_congr h.ready hcr3 hupper, ⟨rs, ?_, hgood, hdisj, hunion⟩, ?_, ?_⟩
  · rw [hpage]
    refine chain_congr hchain fun r hr => hfree _ ?_
    exact (hunion _).mpr ⟨r, hr, start_mem_pages (hgood r hr)⟩
  · rw [hpage, PivotAt, hleaf]
    exact h.top
  · intro f hf
    rw [OnPivotPath, hcr3]
    exact h.apart f hf

/-- What both operations leave alone: all memory outside `touched` but for the entry of the pivot page. -/
structure Confined (img : KernelImage) (pt : PivotTables) (touched : Set Word) (m m' : Machine) : Prop where
  cr3 : m'.cr3 = m.cr3
  mem : ∀ f i, f ∉ touched → ¬ (f = pt.f1 ∧ i = pivotIndex img) → m'.mem f i = m.mem f i
  leaf : pt.f1 ∉ touched → m'.mem pt.f1 (pivotIndex img) = m.mem pt.f1 (pivotIndex img) ∨
    m'.mem pt.f1 (pivotIndex img) = free_page_entry ∨
    ∃ g, m'.mem pt.f1 (pivotIndex img) = leafEntry g Memory_Writable

/-- An empty stack has nothing mapped at the pivot page. -/
def Bottom (img : KernelImage) (pt : PivotTables) (m : Machine) : Prop :=
  m.physical_page = invalid_phys_addr → present (m.mem pt.f1 (pivotIndex img)) = false

/-! ## Allocation -/

/-- The range whose header is mapped at the pivot page. -/
abbrev topRange (m : Machine) : PageRange := ⟨m.physical_page, lengthOf m.mem m.physical_page⟩

/-- The stack has a top range, with the ranges `rs` below it. -/
structure TopAndRest (m : Machine) (free : Set Word) (rs : List PageRange) : Prop where
  chain : Chain m.mem (nextOf m.mem m.physical_page) rs
  top : (topRange m).Good
  rest : ∀ r ∈ rs, r.Good
  disjoint : rs.Pairwise (fun r r' => Disjoint r.pages r'.pages)
  apart : ∀ r ∈ rs, Disjoint (topRange m).pages r.pages
  union : ∀ f, f ∈ free ↔ f ∈ (topRange m).pages ∨ ∃ r ∈ rs, f ∈ r.pages

theorem StackInv.topAndRest (h : StackInv img pt m free) (hne : free.Nonempty) :
    ∃ rs, TopAndRest m free rs := by
  obtain ⟨rs, hchain, hgood, hdisj, hunion⟩ := h.holds
  generalize hp : m.physical_page = p at hchain
  cases hchain with
  | nil =>
    obtain ⟨f, hf⟩ := hne
    obtain ⟨r, hr, -⟩ := (hunion f).mp hf
    cases hr
  | @cons _ rs _ hnext =>
    subst hp
    rw [List.pairwise_cons] at hdisj
    refine ⟨rs, hnext, hgood _ (by simp), fun r hr => hgood r (by simp [hr]), hdisj.2, hdisj.1, ?_⟩
    intro f
    rw [hunion f]
    simp

namespace TopAndRest

variable {rs : List PageRange}

theorem page_mem (h : TopAndRest m free rs) : m.physical_page ∈ free :=
  (h.union _).mpr (.inl (start_mem_pages h.top))

theorem rest_apart (h : TopAndRest m free rs) {r : PageRange} (hr : r ∈ rs) {f : Word}
    (hf : f ∈ (topRange m).pages) : f ∉ r.pages :=
  fun hf' => Set.disjoint_left.mp (h.apart r hr) hf hf'

theorem start_ne (h : TopAndRest m free rs) {r : PageRange} (hr : r ∈ rs) : r.start ≠ m.physical_page := by
  intro heq
  refine h.rest_apart hr (start_mem_pages h.top) ?_
  rw [show (topRange m).start = r.start from heq.symm]
  exact start_mem_pages (h.rest r hr)

/-- The next header is that of a good range, unless there is none. -/
theorem next_cases (h : TopAndRest m free rs) :
    nextOf m.mem m.physical_page = invalid_phys_addr ∨ ∃ r ∈ rs, r.start = nextOf m.mem m.physical_page := by
  have hchain := h.chain
  generalize nextOf m.mem m.physical_page = next at hchain
  cases hchain with
  | nil => exact .inl rfl
  | cons => exact .inr ⟨_, List.mem_cons_self .., rfl⟩

theorem next_ne (h : TopAndRest m free rs) : m.physical_page ≠ nextOf m.mem m.physical_page := by
  rcases h.next_cases with hnext | ⟨r, hr, hnext⟩
  · rw [hnext]; exact good_ne_invalid h.top
  · rw [← hnext]; exact (h.start_ne hr).symm

end TopAndRest

/-- The last page of the top range is its header page: it is handed out, and the next range is the top. -/
theorem StackInv.pop {rs : List PageRange} (h : StackInv img pt m free) (ht : TopAndRest m free rs)
    (hlast : lengthOf m.mem m.physical_page = Page_Small) :
    StackInv img pt { pivotTo img pt (shrunk m) (nextOf m.mem m.physical_page) with
      physical_page := nextOf m.mem m.physical_page } (free \ {m.physical_page}) := by
  have hone : ∀ f, f ∈ (topRange m).pages ↔ f = m.physical_page := by
    intro f
    rw [topRange, hlast]
    exact mem_pages_one ht.top.start_aligned
  have hready : PivotReady img pt (shrunk m) :=
    ready_setWord h.ready (fun hu => h.apart _ ht.page_mem hu.onPivotPath) _
  refine ⟨ready_congr (pivotTo_ready hready _) rfl fun _ _ _ => rfl, ⟨rs, ?_, ht.rest, ht.disjoint, ?_⟩, ?_, ?_⟩
  · refine chain_congr ht.chain fun r hr => ?_
    have hmem : r.start ∈ free := (ht.union _).mpr (.inr ⟨r, hr, start_mem_pages (ht.rest r hr)⟩)
    have h1 : r.start ≠ pt.f1 := fun heq => h.apart _ hmem (by simp [OnPivotPath, heq])
    funext i
    simp [pivotTo, shrunk, setWord, h1, ht.start_ne hr]
  · intro f
    rw [Set.mem_sdiff, ht.union, hone, Set.mem_singleton_iff]
    constructor
    · rintro ⟨rfl | hf, hne⟩
      · exact (hne rfl).elim
      · exact hf
    · rintro ⟨r, hr, hf⟩
      refine ⟨.inr ⟨r, hr, hf⟩, ?_⟩
      rintro rfl
      exact ht.rest_apart hr ((hone _).mpr rfl) hf
  · intro hvalid
    rcases ht.next_cases with hnext | ⟨r, hr, hnext⟩
    · exact (hvalid hnext).elim
    · exact pivotTo_at (m := shrunk m) (hnext ▸ good_isFrame (ht.rest r hr)) hvalid
  · intro f hf
    exact h.apart f hf.1

theorem lt_of_not_last {rs : List PageRange} (ht : TopAndRest m free rs)
    (hlast : lengthOf m.mem m.physical_page ≠ Page_Small) :
    4096 < (lengthOf m.mem m.physical_page).toNat := by
  have hpos := ht.top.nonempty
  have hal := (is_aligned_iff _).mp ht.top.length_aligned
  have : (lengthOf m.mem m.physical_page).toNat ≠ 4096 := fun e => hlast (BitVec.eq_of_toNat_eq e)
  simp only at hpos hal
  omega

/-- The top range loses its last page, and its header stays where it is. -/
theorem StackInv.shrink {rs : List PageRange} (h : StackInv img pt m free) (ht : TopAndRest m free rs)
    (hlast : lengthOf m.mem m.physical_page ≠ Page_Small) :
    StackInv img pt (shrunk m)
      (free \ {m.physical_page + (lengthOf m.mem m.physical_page - Page_Small)}) := by
  have hoff := h.apart _ ht.page_mem
  have hlt := lt_of_not_last ht hlast
  have hmem := mem_pages_shrink ht.top hlt
  have htop : topRange (shrunk m) = ⟨m.physical_page, lengthOf m.mem m.physical_page - Page_Small⟩ := by
    simp [topRange, shrunk_length]
  refine ⟨ready_setWord h.ready (fun hu => hoff hu.onPivotPath) _, ⟨topRange (shrunk m) :: rs,
    .cons (good_ne_invalid ht.top) ?_, ?_, ?_, ?_⟩, ?_, fun f hf => h.apart f hf.1⟩
  · rw [shrunk_physical_page, shrunk_next]
    refine chain_congr ht.chain fun r hr => ?_
    funext i
    simp [shrunk, setWord, ht.start_ne hr]
  · rw [htop]
    intro r hr
    rcases List.mem_cons.mp hr with rfl | hr
    · exact shrink_good ht.top hlt
    · exact ht.rest r hr
  · rw [htop, List.pairwise_cons]
    refine ⟨fun r hr => Set.disjoint_left.mpr fun f hf => ?_, ht.disjoint⟩
    exact ht.rest_apart hr ((hmem f).mp hf).1
  · intro f
    rw [htop, Set.mem_sdiff, ht.union, Set.mem_singleton_iff]
    simp only [List.mem_cons, exists_eq_or_imp, hmem]
    constructor
    · rintro ⟨hf | hf, hne⟩
      · exact .inl ⟨hf, hne⟩
      · exact .inr hf
    · rintro (⟨hf, hne⟩ | ⟨r, hr, hf⟩)
      · exact ⟨.inl hf, hne⟩
      · refine ⟨.inr ⟨r, hr, hf⟩, ?_⟩
        rintro rfl
        exact ht.rest_apart hr (last_mem_pages ht.top) hf
  · intro hvalid
    exact pivotAt_setWord (by unfold OnPivotPath at hoff; tauto) (h.top hvalid)

theorem wp_alloc (h : StackInv img pt m free) (hne : free.Nonempty) (E : Halt → Prop) :
    wp (physical_alloc img)
      (fun p m' => p ∈ free ∧ StackInv img pt m' (free \ {p}) ∧ Confined img pt free m m' ∧ Bottom img pt m')
      E m := by
  obtain ⟨rs, ht⟩ := h.topAndRest hne
  have hvalid : m.physical_page ≠ invalid_phys_addr := good_ne_invalid ht.top
  have hpage : ∀ f, f ∉ free → f ≠ m.physical_page := fun f hf heq => hf (heq ▸ ht.page_mem)
  rw [wp_physical_alloc h.ready (h.top hvalid) (h.apart _ ht.page_mem) ht.top ht.next_ne]
  split
  · rename_i hlast
    refine ⟨ht.page_mem, h.pop ht hlast, ⟨rfl, ?_, ?_⟩, ?_⟩
    · intro f i hf hpivot
      simp [pivotTo, shrunk, setWord, hpage f hf, hpivot]
    · intro _
      by_cases hinv : nextOf m.mem m.physical_page = invalid_phys_addr
      · exact .inr (.inl (by simp [pivotTo, setWord, hinv]))
      · exact .inr (.inr ⟨nextOf m.mem m.physical_page, by simp [pivotTo, setWord, hinv]⟩)
    · intro hinv
      simp only at hinv
      simp [pivotTo, setWord, hinv, free_entry_absent]
  · rename_i hlast
    refine ⟨(ht.union _).mpr (.inl (last_mem_pages ht.top)), h.shrink ht hlast, ⟨rfl, ?_, ?_⟩, ?_⟩
    · intro f i hf _
      simp [shrunk, setWord, hpage f hf]
    · intro hf
      exact .inl (by simp [shrunk, setWord, hpage pt.f1 hf])
    · intro hinv
      exact (hvalid hinv).elim

/-! ## Freeing -/

section Free

variable {address length : Word}

theorem pushed_mem (f : Word) (i : Index) (hf : f ≠ address) (hpivot : ¬ (f = pt.f1 ∧ i = pivotIndex img)) :
    (pushed img pt m address length).mem f i = m.mem f i := by
  simp [pushed, pivotTo, setWord, hf, hpivot]

theorem pushed_next : nextOf (pushed img pt m address length).mem address = m.physical_page := by
  simp [pushed, nextOf, setWord]

theorem pushed_length : lengthOf (pushed img pt m address length).mem address = length := by
  simp [pushed, lengthOf, setWord]

theorem StackInv.push (h : StackInv img pt m free) (hr : (⟨address, length⟩ : PageRange).Good)
    (hdisj : Disjoint (⟨address, length⟩ : PageRange).pages free)
    (hoff : ∀ f ∈ (⟨address, length⟩ : PageRange).pages, ¬ OnPivotPath pt m f) :
    StackInv img pt (pushed img pt m address length) (free ∪ (⟨address, length⟩ : PageRange).pages) := by
  obtain ⟨rs, hchain, hgood, hpair, hunion⟩ := h.holds
  have hmem := start_mem_pages hr
  have hoff' : ¬ OnPivotPath pt m address := hoff _ hmem
  have hfree : ∀ r ∈ rs, r.pages ⊆ free := fun r hrs f hf => (hunion f).mpr ⟨r, hrs, hf⟩
  have hchain' : Chain (pushed img pt m address length).mem m.physical_page rs := by
    refine chain_congr hchain fun r hrs => ?_
    have hstart := hfree r hrs (start_mem_pages (hgood r hrs))
    funext i
    refine pushed_mem _ _ (fun heq => ?_) fun heq => h.apart _ hstart (by simp [OnPivotPath, heq.1])
    exact Set.disjoint_left.mp hdisj hmem (heq ▸ hstart)
  have htop : Chain (pushed img pt m address length).mem address (⟨address, length⟩ :: rs) := by
    have := Chain.cons (good_ne_invalid hr) (pushed_next ▸ hchain')
    rwa [pushed_length] at this
  refine ⟨?_, ⟨_, htop, ?_, ?_, ?_⟩, ?_, ?_⟩
  · refine ready_congr h.ready rfl fun f i hu => pushed_mem f i ?_ fun heq => ready_upper_ne h.ready hu heq.1
    rintro rfl
    exact hoff' hu.onPivotPath
  · intro r hrs
    rcases List.mem_cons.mp hrs with rfl | hrs
    · exact hr
    · exact hgood r hrs
  · rw [List.pairwise_cons]
    exact ⟨fun r hrs => hdisj.mono_right (hfree r hrs), hpair⟩
  · intro f
    simp only [Set.mem_union, hunion f, List.mem_cons, exists_eq_or_imp]
    exact or_comm
  · intro hvalid
    have hf1 : address ≠ pt.f1 := by unfold OnPivotPath at hoff'; tauto
    have hat : PivotAt img pt (pivotTo img pt m address) address := pivotTo_at (good_isFrame hr) hvalid
    have hleaf : (pushed img pt m address length).mem pt.f1 (pivotIndex img) =
        (pivotTo img pt m address).mem pt.f1 (pivotIndex img) := by
      simp [pushed, setWord, hf1.symm]
    rw [PivotAt, hleaf]
    exact hat
  · rintro f (hf | hf)
    · exact h.apart f hf
    · exact hoff f hf

theorem wp_free_range (h : StackInv img pt m free) (hr : (⟨address, length⟩ : PageRange).Good)
    (hdisj : Disjoint (⟨address, length⟩ : PageRange).pages free)
    (hoff : ∀ f ∈ (⟨address, length⟩ : PageRange).pages, ¬ OnPivotPath pt m f) (E : Halt → Prop) :
    wp (physical_free_range img address length)
      (fun _ m' => StackInv img pt m' (free ∪ (⟨address, length⟩ : PageRange).pages) ∧
        Confined img pt (⟨address, length⟩ : PageRange).pages m m' ∧ Bottom img pt m') E m := by
  have hmem := start_mem_pages hr
  rw [wp_physical_free_range h.ready (hoff _ hmem) hr]
  refine ⟨h.push hr hdisj hoff, ⟨rfl, ?_, ?_⟩, fun hinv => (good_ne_invalid hr hinv).elim⟩
  · intro f i hf hpivot
    refine pushed_mem f i ?_ hpivot
    rintro rfl
    exact hf hmem
  · intro hf
    have hne : pt.f1 ≠ address := by
      rintro rfl
      exact hf hmem
    exact .inr (.inr ⟨address, by simp [pushed, pivotTo, setWord, hne, good_ne_invalid hr]⟩)

end Free

/-- A range beyond 2^48 is refused by the last assert on the arguments, if not before. -/
theorem wp_free_refused {address length : Word} {Q : Unit → Machine → Prop} {E : Halt → Prop}
    (hpanic : E (.panic "physical_free_range")) (hge : ¬ (address.toNat + length.toNat < 2 ^ 48)) (hfits : address.toNat + length.toNat < 2 ^ 64) :
    wp (physical_free_range img address length) Q E m := by
  have hsum : (address + length).toNat = address.toNat + length.toNat := by
    rw [BitVec.toNat_add, Nat.mod_eq_of_lt hfits]
  have hhigh : ¬ (address + length) &&& 0xffff000000000000 = 0 := by
    rw [and_high_eq_zero, hsum]
    exact hge
  unfold physical_free_range Code.assert
  simp only [wp_bind, wp_check, decide_eq_false hhigh]
  repeat' split
  all_goals first | exact hpanic | simp_all

theorem free_range_below {address length : Word} (hle : address.toNat + length.toNat ≤ 2 ^ 48)
    (hrun : (physical_free_range img address length).run m = .ok ((), m')) :
    address.toNat + length.toNat < 2 ^ 48 := by
  by_contra hge
  have hstop : wp (physical_free_range img address length) (fun _ _ => False) (fun _ => True) m :=
    wp_free_refused trivial hge (by omega)
  exact wp_ok hstop hrun

/-! ## Runs -/

/-- Every page that a client holds is off the stack, and is no table of the pivot page. -/
structure WorldInv (img : KernelImage) (pt : PivotTables) (w : World) : Prop where
  stack : StackInv img pt w.machine w.free
  held : ∀ f ∈ w.allocated, f ∉ w.free ∧ ¬ OnPivotPath pt w.machine f

theorem start_inv {w : World} (h : w.Start img pt) : WorldInv img pt w := by
  obtain ⟨hempty, hready, hfree, halloc⟩ := h
  refine ⟨⟨hready, ⟨[], ?_, by simp, by simp, by simp [hfree]⟩, fun hne => (hne hempty).elim,
    by simp [hfree]⟩, by simp [halloc]⟩
  rw [hempty]
  exact .nil

section Step

variable {w : World}

theorem free_inv (h : WorldInv img pt w) {r : PageRange} (hr : r.Good) (hmay : w.MayFree pt r)
    (hrun : (physical_free_range img r.start r.length).run w.machine = .ok ((), m')) :
    WorldInv img pt ⟨m', w.free ∪ r.pages, w.allocated \ r.pages⟩ := by
  obtain ⟨hstack, hconf, -⟩ :=
    wp_ok (wp_free_range h.stack hr hmay.not_free hmay.apart fun _ => False) hrun
  refine ⟨hstack, ?_⟩
  rintro f ⟨hf, hnot⟩
  obtain ⟨hfree, hoff⟩ := h.held f hf
  simp only [OnPivotPath, hconf.cr3] at hoff ⊢
  exact ⟨fun h => h.elim hfree hnot, hoff⟩

theorem alloc_inv (h : WorldInv img pt w) (hne : w.free.Nonempty) {p : Word}
    (hrun : (physical_alloc img).run w.machine = .ok (p, m')) :
    WorldInv img pt ⟨m', w.free \ {p}, w.allocated ∪ {p}⟩ := by
  obtain ⟨hp, hstack, hconf, -⟩ := wp_ok (wp_alloc h.stack hne fun _ => False) hrun
  refine ⟨hstack, ?_⟩
  simp only [OnPivotPath, hconf.cr3]
  rintro f (hf | rfl)
  · obtain ⟨hfree, hoff⟩ := h.held f hf
    exact ⟨fun h => hfree h.1, hoff⟩
  · exact ⟨fun h => h.2 rfl, h.stack.apart f hp⟩

theorem write_inv (h : WorldInv img pt w) {mem' : Word → Index → Word}
    (hmem : ∀ f, f ∉ w.allocated → mem' f = w.machine.mem f) :
    WorldInv img pt ⟨{ w.machine with mem := mem' }, w.free, w.allocated⟩ := by
  have hpath : ∀ f, OnPivotPath pt w.machine f → mem' f = w.machine.mem f :=
    fun f hf => hmem f fun ha => (h.held f ha).2 hf
  refine ⟨h.stack.congr rfl rfl ?_ ?_ ?_, h.held⟩
  · intro f i hu
    exact congrFun (hpath f hu.onPivotPath) i
  · exact congrFun (hpath pt.f1 (by simp [OnPivotPath])) _
  · intro f hf
    exact hmem f fun ha => (h.held f ha).1 hf

theorem step_inv {w' : World} (h : WorldInv img pt w) (hstep : World.Step img pt w w') : WorldInv img pt w' := by
  cases hstep with
  | free_range address length hmay hrun =>
    have hbelow := free_range_below hmay.below hrun
    exact free_inv h ⟨hmay.start_aligned, hmay.length_aligned, hmay.nonempty, hbelow⟩ hmay hrun
  | free address hmay hrun =>
    have hbelow := free_range_below hmay.below hrun
    have hpages : (⟨address, Page_Small⟩ : PageRange).pages = {address} :=
      Set.ext fun f => mem_pages_one hmay.start_aligned
    have hinv := free_inv h ⟨hmay.start_aligned, hmay.length_aligned, hmay.nonempty, hbelow⟩ hmay hrun
    rwa [hpages] at hinv
  | alloc hne hrun => exact alloc_inv h hne hrun
  | write mem' hmem => exact write_inv h hmem

theorem run_inv {w' : World} (h : WorldInv img pt w)
    (hrun : Relation.ReflTransGen (World.Step img pt) w w') : WorldInv img pt w' := by
  induction hrun with
  | refl => exact h
  | tail _ hstep ih => exact step_inv ih hstep

end Step

theorem physical_pages_conserved {w₀ w : World} (hstart : w₀.Start img pt)
    (hrun : Relation.ReflTransGen (World.Step img pt) w₀ w) :
    Holds w.machine w.free ∧
    (w.free.Nonempty → ∃ p m', (physical_alloc img).run w.machine = .ok (p, m') ∧
      p ∈ w.free ∧ Holds m' (w.free \ {p})) ∧
    ∀ r : PageRange, w.MayFree pt r → r.start.toNat + r.length.toNat < 2 ^ 48 →
      ∃ m', (physical_free_range img r.start r.length).run w.machine = .ok ((), m') ∧
        Holds m' (w.free ∪ r.pages) := by
  have hinv := run_inv (start_inv hstart) hrun
  refine ⟨hinv.stack.holds, ?_, ?_⟩
  · intro hne
    obtain ⟨p, m', hok, hp, hstack, -⟩ := wp_total (wp_alloc hinv.stack hne fun _ => False)
    exact ⟨p, m', hok, hp, hstack.holds⟩
  · intro r hmay hbelow
    have hgood : r.Good := ⟨hmay.start_aligned, hmay.length_aligned, hmay.nonempty, hbelow⟩
    obtain ⟨_, m', hok, hstack, -⟩ :=
      wp_total (wp_free_range hinv.stack hgood hmay.not_free hmay.apart fun _ => False)
    exact ⟨m', hok, hstack.holds⟩

/-- The page tables of the pivot page of `linkedImage`, and nothing else. -/
def linkedMachine : Machine where
  mem f i :=
    if f = 0x1000 ∧ i = fractal then 0x1003
    else if f = 0x1000 ∧ i = 511 then 0x2003
    else if f = 0x2000 ∧ i = 510 then 0x3003
    else if f = 0x3000 ∧ i = 0 then 0x4003
    else 0
  cr3 := 0x1000
  physical_page := invalid_phys_addr

def linkedTables : PivotTables := ⟨0x2000, 0x3000, 0x4000⟩

theorem linked_ready : PivotReady linkedImage linkedTables linkedMachine :=
  ⟨⟨by decide, by decide⟩, by decide, by decide, by decide, by decide, by decide, by decide⟩

theorem linked_start : World.Start linkedImage linkedTables ⟨linkedMachine, ∅, ∅⟩ :=
  ⟨rfl, linked_ready, rfl, rfl⟩

theorem linked_mayFree : World.MayFree linkedTables ⟨linkedMachine, ∅, ∅⟩ ⟨0x200000, 0x2000⟩ := by
  refine ⟨by decide, by decide, by decide, by decide, by simp, ?_⟩
  intro f hf hpath
  rw [mem_pages] at hf
  rcases hpath with rfl | rfl | rfl | rfl <;> simp [linkedMachine, linkedTables] at hf

/-- Two pages are freed, and one of them is handed out. -/
theorem linked_pages_conserved :
    ∃ p w, Relation.ReflTransGen (World.Step linkedImage linkedTables) ⟨linkedMachine, ∅, ∅⟩ w ∧
      w.allocated = {p} ∧ Holds w.machine w.free := by
  obtain ⟨-, -, hfree⟩ := physical_pages_conserved linked_start .refl
  obtain ⟨m₁, hrun₁, -⟩ := hfree _ linked_mayFree (by decide)
  have hstep₁ := Relation.ReflTransGen.single (World.Step.free_range _ _ linked_mayFree hrun₁)
  have hne : (∅ ∪ (⟨0x200000, 0x2000⟩ : PageRange).pages).Nonempty :=
    ⟨0x200000, .inr (by rw [mem_pages]; decide)⟩
  obtain ⟨p, m₂, hrun₂, -⟩ := (physical_pages_conserved linked_start hstep₁).2.1 hne
  have hstep₂ := hstep₁.tail (World.Step.alloc hne hrun₂)
  exact ⟨p, _, hstep₂, by simp, (physical_pages_conserved linked_start hstep₂).1⟩

end KernelOfTruth.PageStack
