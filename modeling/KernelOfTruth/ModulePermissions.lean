import KernelOfTruth.ModuleCalls
import KernelOfTruth.PageRanges
import KernelOfTruth.Spec.ModulePermissions

/-!
# Setting the permissions of a module

An update of a range stops at its first absent page, and so does the one that takes it back. No update changes which
pages are present, so both come to the same pages.
-/

open KernelOfTruth.Lib KernelOfTruth.Code KernelOfTruth.Spec KernelOfTruth.Rules KernelOfTruth.Bits KernelOfTruth.Tables
  KernelOfTruth.Paging KernelOfTruth.MapPage KernelOfTruth.PageOps KernelOfTruth.PageRanges KernelOfTruth.ModuleCalls
open KernelOfTruth.Symbols (wp_inMemory wp_inHeap withSection withSymbol withBytes)
open KernelOfTruth.FreePages (stockedMachine BootTables boot_tree)

namespace KernelOfTruth.ModulePermissions

variable {E : Halt → Prop} {m₀ m m' : Machine} {virt perms : Word} {count : Nat} {status : Status}

/-! ## One page -/

/-- Permissions that no page refuses. -/
structure Plain (perms : Word) : Prop where
  mask : perms &&& Memory_Permissions_Mask = perms
  write : perms &&& Memory_Writable = 0 ∨ perms &&& Memory_No_Execute ≠ 0
  user : perms &&& Memory_User_Access = 0

theorem Plain.not_refused (h : Plain perms) (v : Word) : permissionsRefused v perms = false := by
  have hwrite : (perms &&& Memory_Writable != 0 && perms &&& Memory_No_Execute == 0) = false := by
    rcases h.write with hwrite | hwrite
    · simp [hwrite]
    · rw [beq_false_of_ne hwrite, Bool.and_false]
  rw [permissionsRefused, hwrite, h.user]
  simp

theorem leafEntry_same_frame (h : Plain perms) (e : Word) :
    page_entry_to_phys (leafEntry e perms) = page_entry_to_phys e := by
  have hkept : ~~~Memory_Permissions_Mask &&& Phys_Addr_Mask = Phys_Addr_Mask := by decide
  have hpresent : Memory_Present &&& Phys_Addr_Mask = 0#64 := by decide
  unfold leafEntry page_entry_to_phys
  rw [BitVec.and_or_distrib_right, BitVec.and_or_distrib_right, BitVec.and_assoc, hkept, perms_and_phys h.mask, hpresent,
    BitVec.or_zero, BitVec.or_zero]

/-- The page has the permissions. -/
def Has (m : Machine) (page : List Index) (perms : Word) : Prop := ∃ frame, walk m page = some (frame, perms ||| Memory_Present)

/-- What an update of a page does, when the page is present. -/
structure SetsPage (v perms : Word) (m m' : Machine) : Prop where
  tree : Tree m'
  frames : SameFrames m m'
  set : Has m' (pagePath v) perms
  others : ∀ {page : List Index}, PagePath page → page ≠ pagePath v → walk m' page = walk m page

theorem setsPage {v f1 : Word} (hperms : Plain perms) (hv : index4 v ≠ fractal) (ht : Tree m)
    (h1 : m.table [index2 v, index3 v, index4 v] = some f1) (hpresent : present (m.mem f1 (index1 v))) :
    SetsPage v perms m { m with mem := setWord m.mem f1 (index1 v) (leafEntry (m.mem f1 (index1 v)) perms) } := by
  have hpage := pagePath_of_index4 hv
  have hlen := @pagePath_length v
  have hsame := leafWrite (i := index1 v) ht (pagePath_tail hpage) h1 (leafEntry (m.mem f1 (index1 v)) perms)
  have hbefore : walk m (pagePath v) =
      some (page_entry_to_phys (m.mem f1 (index1 v)), m.mem f1 (index1 v) &&& Memory_Permissions_Mask) := by
    rw [walk, pagePath, entry_cons_some h1, Option.bind_some, leafValue, if_pos hpresent]
  have hafter : walk { m with mem := setWord m.mem f1 (index1 v) (leafEntry (m.mem f1 (index1 v)) perms) } (pagePath v) =
      some (page_entry_to_phys (m.mem f1 (index1 v)), perms ||| Memory_Present) := by
    rw [walk, pagePath, leafWrite_entry ht hpage h1, Option.bind_some, leafValue, if_pos (leafEntry_present _ _),
      leafEntry_same_frame hperms, leafEntry_perms hperms.mask]
  refine ⟨hsame.tree hlen ht, fun page hp => ?_, ⟨_, hafter⟩, fun hp hne => hsame.walk hlen hp hne⟩
  unfold frameOf
  by_cases hne : page = pagePath v
  · rw [hne, hafter, hbefore]
    rfl
  · rw [hsame.walk hlen hp hne]

theorem SameFrames.present_iff (h : SameFrames m m') {page : List Index} (hp : PagePath page) :
    walk m' page = none ↔ walk m page = none := by
  have hframe := h page hp
  unfold frameOf at hframe
  constructor
  · intro hnone
    rwa [hnone, Option.map_none, eq_comm, Option.map_eq_none_iff] at hframe
  · intro hnone
    rwa [hnone, Option.map_none, Option.map_eq_none_iff] at hframe

theorem SameFrames.trans {m₁ : Machine} (h : SameFrames m m₁) (h' : SameFrames m₁ m') : SameFrames m m' :=
  fun page hp => (h' page hp).trans (h page hp)

/-! ## A range of pages -/

/-- An update of the range comes to this page: it and all before it are present. -/
def Reached (m : Machine) (virt : Word) (count : Nat) (page : List Index) : Prop :=
  ∃ i < count, page = pagePath (pageAt virt i) ∧ ∀ j ≤ i, walk m (pagePath (pageAt virt j)) ≠ none

theorem reached_succ {page : List Index} : Reached m virt (count + 1) page ↔
    walk m (pagePath virt) ≠ none ∧ (page = pagePath virt ∨ Reached m (virt + Page_Small) count page) := by
  constructor
  · rintro ⟨i, hi, rfl, hpresent⟩
    refine ⟨pageAt_zero virt ▸ hpresent 0 (Nat.zero_le _), ?_⟩
    cases i with
    | zero => exact .inl (by rw [pageAt_zero])
    | succ i =>
      refine .inr ⟨i, by omega, by rw [pageAt_next], fun j hj => ?_⟩
      rw [pageAt_next]
      exact hpresent (j + 1) (by omega)
  · rintro ⟨hfirst, rfl | ⟨i, hi, rfl, hpresent⟩⟩
    · refine ⟨0, by omega, by rw [pageAt_zero], fun j hj => ?_⟩
      rwa [Nat.le_zero.mp hj, pageAt_zero]
    · refine ⟨i + 1, by omega, by rw [pageAt_next], fun j hj => ?_⟩
      cases j with
      | zero => rwa [pageAt_zero]
      | succ j =>
        rw [← pageAt_next]
        exact hpresent j (by omega)

/-- The pages that an update comes to depend on nothing that an update changes. -/
theorem reached_congr (h : SameFrames m m') (hout : ∀ i < count, index4 (pageAt virt i) ≠ fractal) {page : List Index} :
    Reached m' virt count page ↔ Reached m virt count page := by
  have hiff : ∀ j < count, (walk m' (pagePath (pageAt virt j)) = none ↔ walk m (pagePath (pageAt virt j)) = none) :=
    fun j hj => SameFrames.present_iff h (pagePath_of_index4 (hout j hj))
  constructor
  · rintro ⟨i, hi, rfl, hpresent⟩
    exact ⟨i, hi, rfl, fun j hj hnone => hpresent j hj ((hiff j (by omega)).mpr hnone)⟩
  · rintro ⟨i, hi, rfl, hpresent⟩
    exact ⟨i, hi, rfl, fun j hj hnone => hpresent j hj ((hiff j (by omega)).mp hnone)⟩

/-- What an update of a range does. -/
structure SetsRange (virt : Word) (count : Nat) (perms : Word) (status : Status) (m m' : Machine) : Prop where
  tree : Tree m'
  frames : SameFrames m m'
  set : ∀ {page : List Index}, Reached m virt count page → Has m' page perms
  others : ∀ {page : List Index}, PagePath page → ¬ Reached m virt count page → walk m' page = walk m page
  all : status = .Ok → ∀ page, InRange virt count page → Reached m virt count page

theorem setsRange_stop (ht : Tree m) (hnone : ∀ page, ¬ Reached m virt count page)
    (hall : status = .Ok → ∀ page, ¬ InRange virt count page) : SetsRange virt count perms status m m where
  tree := ht
  frames _ _ := rfl
  set h := absurd h (hnone _)
  others _ _ := rfl
  all hok page hin := absurd hin (hall hok page)

theorem setsRange_cons {m₁ : Machine} (hv : index4 virt ≠ fractal)
    (hout : ∀ i < count, index4 (pageAt (virt + Page_Small) i) ≠ fractal) (hpresent : walk m (pagePath virt) ≠ none)
    (hfirst : SetsPage virt perms m m₁)
    (hrest : SetsRange (virt + Page_Small) count perms status m₁ m') : SetsRange virt (count + 1) perms status m m' := by
  have hreached : ∀ page, Reached m₁ (virt + Page_Small) count page ↔ Reached m (virt + Page_Small) count page :=
    fun page => reached_congr hfirst.frames hout
  refine ⟨hrest.tree, SameFrames.trans hfirst.frames hrest.frames, fun {page} h => ?_, fun {page} hp hnot => ?_,
    fun hok page hin => ?_⟩
  · by_cases hlater : Reached m₁ (virt + Page_Small) count page
    · exact hrest.set hlater
    · -- then it is the first page, which is left as it was set
      obtain ⟨-, rfl | hin⟩ := reached_succ.mp h
      · obtain ⟨frame, hset⟩ := hfirst.set
        exact ⟨frame, (hrest.others (pagePath_of_index4 hv) hlater).trans hset⟩
      · exact absurd ((hreached page).mpr hin) hlater
  · rw [reached_succ, not_and] at hnot
    have hboth := not_or.mp (hnot hpresent)
    rw [hrest.others hp (mt (hreached page).mp hboth.2), hfirst.others hp hboth.1]
  · refine reached_succ.mpr ⟨hpresent, ?_⟩
    rcases inRange_succ.mp hin with rfl | hlater
    · exact .inl rfl
    · exact .inr ((hreached page).mp (hrest.all hok page hlater))

theorem wp_paging_update_range (hperms : Plain perms) (hout : ∀ i < count, index4 (pageAt virt i) ≠ fractal) (ht : Tree m) :
    wp (paging_update_range virt count perms) (fun status m' => SetsRange virt count perms status m m') E m := by
  induction count generalizing virt m with
  | zero =>
    refine (wp_pure ..).mpr (setsRange_stop ht ?_ ?_)
    · rintro page ⟨i, hi, -⟩
      omega
    · rintro - page ⟨i, hi, -⟩
      omega
  | succ count ih =>
    have hfirst : index4 virt ≠ fractal := pageAt_zero virt ▸ hout 0 (by omega)
    have hlater : ∀ i < count, index4 (pageAt (virt + Page_Small) i) ≠ fractal := fun i hi => by
      rw [pageAt_next]
      exact hout (i + 1) (by omega)
    rw [paging_update_range, wp_bubble]
    refine wp_map_update_page_cases ht.self (fun hrefused => ?_) (fun habsent => ?_) fun f1 h1 hpresent _ => ?_
    · rw [hperms.not_refused] at hrefused
      cases hrefused
    · refine setsRange_stop ht (fun page h => ?_) fun hok => by cases hok
      exact (reached_succ.mp h).1 habsent
    · have hset := setsPage hperms hfirst ht h1 hpresent
      have hwalk : walk m (pagePath virt) ≠ none := by
        rw [walk, pagePath, entry_cons_some h1, Option.bind_some, leafValue, if_pos hpresent]
        exact Option.some_ne_none _
      rw [if_pos rfl]
      exact wp_imp (ih hlater hset.tree) fun status m' hrest => setsRange_cons hfirst hlater hwalk hset hrest

/-! ## Delimiters -/

section Delimiters

variable {d : Delimiters} {start : Word} {n : Nat}

theorem pageAt_inside (hmap : PageMapping start n) (h : d.Inside start n) {i : Nat} (hi : i < d.pages) :
    ∃ k < n, pageAt d.first i = pageAt start k := by
  have hfirst := (is_aligned_iff _).mp h.first_aligned
  have hlast := (is_aligned_iff _).mp h.last_aligned
  have hstart := (is_aligned_iff _).mp hmap.aligned
  have habove := BitVec.le_def.mp h.above
  have hbelow := h.below
  have hwrap := hmap.no_wrap
  have hpages : d.pages = (d.last.toNat - d.first.toNat) / 4096 := rfl
  refine ⟨(d.first.toNat - start.toNat) / 4096 + i, by omega, BitVec.eq_of_toNat_eq ?_⟩
  rw [pageAt_toNat (by omega), pageAt_toNat (by omega)]
  omega

theorem outside_window (hmap : PageMapping start n) (h : d.Inside start n) {i : Nat} (hi : i < d.pages) :
    index4 (pageAt d.first i) ≠ fractal := by
  obtain ⟨k, hk, heq⟩ := pageAt_inside hmap h hi
  rw [heq]
  exact hmap.outside k hk

theorem pagesBetween_toNat (hmap : PageMapping start n) (h : d.Inside start n) :
    (pagesBetween d.first d.last).toNat = d.pages := by
  have hcount := count_lt hmap.outside
  have hordered := BitVec.le_def.mp h.ordered
  have habove := BitVec.le_def.mp h.above
  have hbelow := h.below
  have hdifference : (d.last - d.first).toNat = d.last.toNat - d.first.toNat := BitVec.toNat_sub_of_le h.ordered
  have hsign : (d.last - d.first).msb = false := by
    rw [BitVec.msb_eq_false_iff_two_mul_lt, hdifference]
    omega
  unfold pagesBetween
  rw [BitVec.sdiv_eq, hsign, show Page_Small.msb = false from by decide, BitVec.udiv_eq, BitVec.toNat_udiv, hdifference]
  rfl

end Delimiters

/-! ## Updates that are taken back -/

section Stages

variable {start : Word} {n : Nat} {changed : List Index → Prop} {d : Delimiters}

theorem Has.allows {page : List Index} {write execute : Prop} (h : Has m page perms)
    (hwrite : (perms ||| Memory_Present) &&& Memory_Just_Writable ≠ 0 ↔ write)
    (hexecute : (perms ||| Memory_Present) &&& Memory_No_Execute = 0 ↔ execute) : Allows m page write execute := by
  obtain ⟨frame, hwalk⟩ := h
  exact ⟨frame, _, hwalk, hwrite, hexecute⟩

theorem Allows.congr {page : List Index} {write execute : Prop} (heq : walk m' page = walk m page)
    (h : Allows m page write execute) : Allows m' page write execute := by
  obtain ⟨frame, perms, hwalk, hflags⟩ := h
  exact ⟨frame, perms, heq.trans hwalk, hflags⟩

/-- The pages that an update between the delimiters comes to. -/
def Touched (m₀ : Machine) (d : Delimiters) (page : List Index) : Prop := Reached m₀ d.first d.pages page

/-- Between two updates: only pages that have been changed need not be writable. -/
structure Stage (m₀ : Machine) (start : Word) (n : Nat) (changed : List Index → Prop) (m : Machine) : Prop where
  tree : Tree m
  frames : SameFrames m₀ m
  writable : ∀ page, InRange start n page → ¬ changed page → walk m page ≠ none → Allows m page True False

variable (hmap : PageMapping start n) (hd : d.Inside start n)
include hmap

theorem PageMapping.page {page : List Index} (hin : InRange start n page) : PagePath page := by
  obtain ⟨i, hi, rfl⟩ := hin
  exact pagePath_of_index4 (hmap.outside i hi)

include hd

theorem wp_updateRange (hperms : Plain perms) (ht : Tree m) :
    wp (updateRange d.first (pagesBetween d.first d.last) perms)
      (fun status m' => SetsRange d.first d.pages perms status m m') E m := by
  unfold updateRange
  rw [pagesBetween_toNat hmap hd]
  exact wp_paging_update_range hperms (fun _ hi => outside_window hmap hd hi) ht

theorem touched_iff (hframes : SameFrames m₀ m) {page : List Index} :
    Reached m d.first d.pages page ↔ Touched m₀ d page :=
  reached_congr hframes fun _ hi => outside_window hmap hd hi

theorem Stage.set (h : Stage m₀ start n changed m) (hset : SetsRange d.first d.pages perms status m m') :
    Stage m₀ start n (fun page => changed page ∨ Touched m₀ d page) m' := by
  refine ⟨hset.tree, SameFrames.trans h.frames hset.frames, fun page hin hnot hpresent => ?_⟩
  have hkept := hset.others (PageMapping.page hmap hin) (mt (touched_iff hmap hd h.frames).mp (not_or.mp hnot).2)
  rw [hkept] at hpresent
  exact Allows.congr hkept (h.writable page hin (not_or.mp hnot).1 hpresent)

theorem Stage.undo (h : Stage m₀ start n (fun page => changed page ∨ Touched m₀ d page) m)
    (hset : SetsRange d.first d.pages (Memory_No_Execute ||| Memory_Writable) status m m') :
    Stage m₀ start n changed m' := by
  refine ⟨hset.tree, SameFrames.trans h.frames hset.frames, fun page hin hnot hpresent => ?_⟩
  by_cases htouched : Touched m₀ d page
  · have hhas := hset.set ((touched_iff hmap hd h.frames).mpr htouched)
    exact Has.allows hhas (by decide) (by decide)
  · have hkept := hset.others (PageMapping.page hmap hin) (mt (touched_iff hmap hd h.frames).mp htouched)
    rw [hkept] at hpresent
    exact Allows.congr hkept (h.writable page hin (not_or.mpr ⟨hnot, htouched⟩) hpresent)

end Stages

/-! ## `module_set_section_permissions` -/

theorem readOnly_symbolLoop (elf size : Word) (name : List Byte) (strtab symtab base : Word) (n : Nat) (i : Word) :
    ReadOnly (symbolLoop elf size name strtab symtab base n i) := by
  induction n generalizing i with
  | zero => exact readOnly_pure _
  | succ n ih =>
    refine readOnly_bind (readOnly_load _ _) fun _ => readOnly_ite ?_ (ih _)
    refine readOnly_bind (readOnly_load _ _) fun _ => readOnly_ite (readOnly_pure _) ?_
    refine readOnly_bind (readOnly_load _ _) fun _ => readOnly_bind ?_ fun _ => readOnly_ite (readOnly_pure _) ?_
    · refine readOnly_bind (readOnly_load _ _) fun _ => readOnly_bind (readOnly_load _ _) fun _ => ?_
      exact readOnly_ite (readOnly_pure _) (readOnly_ite (readOnly_pure _) (readOnly_pure _))
    · refine readOnly_bind (readOnly_strncmpLoop (fun _ => readOnly_loadByte _) (fun _ => readOnly_pure _) _ _) fun _ => ?_
      refine readOnly_ite ?_ (ih _)
      exact readOnly_bind (readOnly_load _ _) fun _ => readOnly_ite (readOnly_pure _) (readOnly_pure _)

theorem readOnly_elf_get_symbol_address (elf size : Word) (name : List Byte) :
    ReadOnly (elf_get_symbol_address elf size name) := by
  refine readOnly_bind (readOnly_elf_get_section ..) fun _ => readOnly_ite (readOnly_pure _) ?_
  refine readOnly_bind (readOnly_elf_get_section ..) fun _ => readOnly_ite (readOnly_pure _) ?_
  exact readOnly_bind (readOnly_elf_get_base_address ..) fun _ => readOnly_ite (readOnly_pure _) (readOnly_symbolLoop ..)

section Module

variable {s : SymbolState Machine} {elf size : Word} {parts : ModuleParts} {n : Nat}

theorem wp_lookup {name : List Byte} {a : Word} {Q : Word → SymbolState Machine → Prop}
    (h : (elf_get_symbol_address elf size name).run' s.memory = .ok a) (hQ : Q a s) :
    wp (inMemory (elf_get_symbol_address elf size name)) Q E s := by
  obtain ⟨memory, hrun⟩ := run_of_run' h
  obtain rfl := (readOnly_elf_get_symbol_address elf size name).run hrun
  rw [wp_inMemory, wp_of_run hrun]
  exact hQ

theorem Reached.contains {d : Delimiters} {page : List Index} (h : Reached m d.first d.pages page) : d.Contains page := by
  obtain ⟨i, hi, heq, -⟩ := h
  exact ⟨i, hi, heq⟩

/-- A page keeps its permissions when another part is updated. -/
theorem SetsRange.keeps_has {d : Delimiters} {perms' : Word} {page : List Index}
    (h : SetsRange d.first d.pages perms status m m') (hp : PagePath page) (hnot : ¬ d.Contains page)
    (hhas : Has m page perms') : Has m' page perms' := by
  obtain ⟨frame, hwalk⟩ := hhas
  exact ⟨frame, (h.others hp (mt Reached.contains hnot)).trans hwalk⟩

theorem protected_of_sets {m₁ m₂ m₃ : Machine} (hmap : PageMapping elf n) (hinside : ∀ d ∈ parts.all, d.Inside elf n)
    (hdisjoint : parts.Disjoint) (hrw : SetsRange parts.rw.first parts.rw.pages Memory_Writable .Ok m m₁)
    (hrx : SetsRange parts.rx.first parts.rx.pages Memory_No_Attributes .Ok m₁ m₂)
    (hro : SetsRange parts.ro.first parts.ro.pages Memory_No_Execute .Ok m₂ m₃) : parts.Protected m₃ := by
  have hpage : ∀ d ∈ parts.all, ∀ page, d.Contains page → PagePath page := by
    rintro d hd page ⟨i, hi, rfl⟩
    exact pagePath_of_index4 (outside_window hmap (hinside d hd) hi)
  simp only [ModuleParts.Disjoint, ModuleParts.all, List.pairwise_cons, List.mem_cons, List.not_mem_nil, or_false,
    forall_eq_or_imp, forall_eq, not_and] at hdisjoint hpage
  obtain ⟨⟨hrwrx, hrwro⟩, hrxro, -⟩ := hdisjoint
  obtain ⟨hprw, hprx, hpro⟩ := hpage
  refine ⟨fun page hin => ?_, fun page hin => ?_, fun page hin => ?_⟩
  · have hhas := SetsRange.keeps_has hrx (hprw page hin) (hrwrx page hin) (hrw.set (hrw.all rfl page hin))
    exact Has.allows (SetsRange.keeps_has hro (hprw page hin) (hrwro page hin) hhas) (by decide) (by decide)
  · have hhas := SetsRange.keeps_has hro (hprx page hin) (hrxro page hin) (hrx.set (hrx.all rfl page hin))
    exact Has.allows hhas (by decide) (by decide)
  · exact Has.allows (hro.set (hro.all rfl page hin)) (by decide) (by decide)

theorem plain_perms : Plain Memory_Writable ∧ Plain Memory_No_Attributes ∧ Plain Memory_No_Execute ∧
    Plain (Memory_No_Execute ||| Memory_Writable) :=
  ⟨⟨by decide, by decide, by decide⟩, ⟨by decide, by decide, by decide⟩, ⟨by decide, by decide, by decide⟩,
    ⟨by decide, by decide, by decide⟩⟩

section Steps

variable {d : Delimiters} {changed : List Index → Prop} {Q : Status → SymbolState Machine → Prop}
  (hmap : PageMapping elf n) (hd : d.Inside elf n)
include hmap hd

theorem wp_forth {next : Kernel (SymbolState Machine) Status} {back : Status → Kernel (SymbolState Machine) Status}
    (hperms : Plain perms) (h : Stage m₀ elf n changed s.heap)
    (hfail : ∀ status m', status ≠ .Ok → Stage m₀ elf n (fun page => changed page ∨ Touched m₀ d page) m' →
      wp (back status) Q E { s with heap := m' })
    (hok : ∀ m', SetsRange d.first d.pages perms .Ok s.heap m' →
      Stage m₀ elf n (fun page => changed page ∨ Touched m₀ d page) m' → wp next Q E { s with heap := m' }) :
    wp (do
      let status ← inHeap (updateRange d.first (pagesBetween d.first d.last) perms)
      if status ≠ .Ok then back status else next) Q E s := by
  rw [wp_bind, wp_inHeap]
  refine wp_imp (wp_updateRange hmap hd hperms h.tree) fun status m' hset => ?_
  have hstage := Stage.set hmap hd h hset
  rw [wp_ite]
  split
  · rename_i hstatus
    exact hfail status m' hstatus hstage
  · rename_i hstatus
    simp only [ne_eq, Decidable.not_not] at hstatus
    subst hstatus
    exact hok m' hset hstage

theorem wp_back {rest : Kernel (SymbolState Machine) Status}
    (h : Stage m₀ elf n (fun page => changed page ∨ Touched m₀ d page) s.heap)
    (hrest : ∀ m', Stage m₀ elf n changed m' → wp rest Q E { s with heap := m' }) :
    wp (do
      let _ ← inHeap (updateRange d.first (pagesBetween d.first d.last) (Memory_No_Execute ||| Memory_Writable))
      rest) Q E s := by
  rw [wp_bind, wp_inHeap]
  refine wp_imp (wp_updateRange hmap hd plain_perms.2.2.2 h.tree) fun status m' hset => ?_
  exact hrest m' (Stage.undo hmap hd h hset)

end Steps

/-- Setting the permissions gives all parts of a module theirs, or leaves the module as it was. -/
theorem permissions_transactional (htree : Tree s.heap) (hmap : PageMapping elf n) (hbefore : AllWritable s.heap elf n)
    (hparts : parts.Of s.memory elf size) (hinside : parts.Complete → ∀ d ∈ parts.all, d.Inside elf n) :
    wp (module_set_section_permissions updateRange elf size) (fun status s' => SameFrames s.heap s'.heap ∧
      (status ≠ .Ok → AllWritable s'.heap elf n) ∧ (status = .Ok → parts.Disjoint → parts.Protected s'.heap))
      (fun _ => False) s := by
  unfold module_set_section_permissions
  simp only [wp_bind (inMemory _)]
  refine wp_lookup hparts.rw.1 (wp_lookup hparts.rw.2 ?_)
  refine wp_lookup hparts.rx.1 (wp_lookup hparts.rx.2 ?_)
  refine wp_lookup hparts.ro.1 (wp_lookup hparts.ro.2 ?_)
  rw [wp_ite]
  split
  · exact (wp_pure ..).mpr ⟨fun _ _ => rfl, fun _ => hbefore, fun h => by cases h⟩
  · rename_i hfound
    have hcomplete : parts.Complete := by
      simp only [not_or] at hfound
      simpa [ModuleParts.Complete, ModuleParts.all, and_assoc] using hfound
    have hall := hinside hcomplete
    obtain ⟨hrw, hrx, hro⟩ : parts.rw.Inside elf n ∧ parts.rx.Inside elf n ∧ parts.ro.Inside elf n := by
      simpa [ModuleParts.all] using hall
    obtain ⟨hwritable, hnone, hnoexec, -⟩ := plain_perms
    have hstart : Stage s.heap elf n (fun _ => False) s.heap := ⟨htree, fun _ _ => rfl, fun page hin _ => hbefore page hin⟩
    -- what is left when all changes have been taken back
    have hundone : ∀ {status : Status} {m : Machine}, status ≠ .Ok → Stage s.heap elf n (fun _ => False) m →
        SameFrames s.heap m ∧ (status ≠ .Ok → AllWritable m elf n) ∧ (status = .Ok → parts.Disjoint → parts.Protected m) :=
      fun hstatus h => ⟨h.frames, fun _ page hin => h.writable page hin not_false, fun hok => absurd hok hstatus⟩
    refine wp_forth hmap hrw hwritable hstart (fun status m₁ hstatus h₁ => ?_) fun m₁ hset₁ h₁ => ?_
    · refine wp_back hmap hrw h₁ fun m' h' => ?_
      exact (wp_pure ..).mpr (hundone hstatus h')
    refine wp_forth hmap hrx hnone h₁ (fun status m₂ hstatus h₂ => ?_) fun m₂ hset₂ h₂ => ?_
    · refine wp_back hmap hrx h₂ fun m₃ h₃ => wp_back hmap hrw h₃ fun m' h' => ?_
      exact (wp_pure ..).mpr (hundone hstatus h')
    refine wp_forth hmap hro hnoexec h₂ (fun status m₃ hstatus h₃ => ?_) fun m₃ hset₃ h₃ => ?_
    · refine wp_back hmap hro h₃ fun m₄ h₄ => wp_back hmap hrx h₄ fun m₅ h₅ => wp_back hmap hrw h₅ fun m' h' => ?_
      exact (wp_pure ..).mpr (hundone hstatus h')
    refine (wp_pure ..).mpr ⟨h₃.frames, fun h => absurd rfl h, fun _ hdisjoint => ?_⟩
    exact protected_of_sets hmap hall hdisjoint hset₁ hset₂ hset₃

end Module

/-! ## A module with a page of each kind -/

/-- A module of four pages at 0xffffffff80001000. The first has the tables, then come code, data and constants. -/
def fourPages : Memory :=
  let m := filled (fun _ => none) 0xffffffff80001000 592 0
  let m := stored (stored (stored (stored m 8 0xffffffff80001028 64) 2 0xffffffff8000103a 64) 2 0xffffffff8000103c 4) 2
    0xffffffff8000103e 3
  let m := withSection (withSection m 0xffffffff80001080 1 1 0 0) 0xffffffff800010c0 7 2 0x1c0 144
  let m := withSection m 0xffffffff80001100 15 3 0x140 125
  let m := withBytes m 0xffffffff80001140 (["", ".text", ".symtab", ".strtab", "__module_rw_start", "__module_rw_end",
    "__module_rx_start", "__module_rx_end", "__module_ro_start", "__module_ro_end"].flatMap (ascii · ++ [0]))
  let m := withSymbol (withSymbol m 0xffffffff800011c0 23 0x10 1 0x2000) 0xffffffff800011d8 41 0x10 1 0x3000
  let m := withSymbol (withSymbol m 0xffffffff800011f0 57 0x10 1 0x1000) 0xffffffff80001208 75 0x10 1 0x2000
  withSymbol (withSymbol m 0xffffffff80001220 91 0x10 1 0x3000) 0xffffffff80001238 109 0x10 1 0x4000

def fourParts : ModuleParts where
  rw := ⟨0xffffffff80003000, 0xffffffff80004000⟩
  rx := ⟨0xffffffff80002000, 0xffffffff80003000⟩
  ro := ⟨0xffffffff80004000, 0xffffffff80005000⟩

/-- The pages are in the table of the pivot page. -/
def fourMachine : Machine :=
  { stockedMachine with mem := fun f i =>
      if f = 0x4000 ∧ 1 ≤ i.toNat ∧ i.toNat ≤ 4 then leafEntry (0x400000 + i.setWidth 64 * Page_Small) Memory_Writable
      else stockedMachine.mem f i }

def fourState : SymbolState Machine where
  memory := fourPages
  symbol_table := ⟨0, 0, id, fun _ _ => .Partial_Equal, .zeroed 0 0⟩
  heap := fourMachine

theorem fourMachine_boot : BootTables fourMachine :=
  ⟨rfl, fun i => by simp [fourMachine, stockedMachine], fun i => by simp [fourMachine, stockedMachine],
    fun i => by simp [fourMachine, stockedMachine]⟩

theorem fourParts_of : fourParts.Of fourPages 0xffffffff80001000 0x4000 := by
  have h : Delimits fourPages 0xffffffff80001000 0x4000 (ascii "__module_rw_start") (ascii "__module_rw_end") fourParts.rw ∧
      Delimits fourPages 0xffffffff80001000 0x4000 (ascii "__module_rx_start") (ascii "__module_rx_end") fourParts.rx ∧
      Delimits fourPages 0xffffffff80001000 0x4000 (ascii "__module_ro_start") (ascii "__module_ro_end") fourParts.ro := by
    decide +kernel
  exact ⟨h.1, h.2.1, h.2.2⟩

theorem fourPages_mapping : PageMapping 0xffffffff80001000 4 := ⟨by decide, by decide, by decide⟩

theorem fourPages_writable : AllWritable fourMachine 0xffffffff80001000 4 := by
  rintro page ⟨i, hi, rfl⟩ -
  have hwalk : ∀ i < 4, walk fourMachine (pagePath (pageAt 0xffffffff80001000 i)) =
      some (pageAt 0x401000 i, Memory_Writable ||| Memory_Present) := by decide
  exact ⟨_, _, hwalk i hi, by decide, by decide⟩

theorem fourParts_inside : ∀ d ∈ fourParts.all, d.Inside 0xffffffff80001000 4 := by
  have hall : ∀ d ∈ fourParts.all, d.first ≤ d.last ∧ is_aligned d.first Page_Small ∧ is_aligned d.last Page_Small ∧
      0xffffffff80001000 ≤ d.first ∧ d.last.toNat ≤ (0xffffffff80001000 : Word).toNat + 4 * 4096 := by decide
  intro d hd
  obtain ⟨hordered, hfirst, hlast, habove, hbelow⟩ := hall d hd
  exact ⟨hordered, hfirst, hlast, habove, hbelow⟩

theorem fourParts_disjoint : fourParts.Disjoint := by
  have hone : ∀ d ∈ fourParts.all, ∀ page, d.Contains page → page = pagePath d.first := by
    rintro d hd page ⟨i, hi, rfl⟩
    have hpages : ∀ d ∈ fourParts.all, d.pages = 1 := by decide
    obtain rfl : i = 0 := by
      rw [hpages d hd] at hi
      omega
    rw [pageAt_zero]
  have hapart : fourParts.all.Pairwise fun d d' => pagePath d.first ≠ pagePath d'.first := by decide
  refine hapart.imp_of_mem fun {d d'} hd hd' hne page hboth => hne ?_
  rw [← hone d hd page hboth.1, hone d' hd' page hboth.2]

/-- No page is missing, and each kind gets its permissions. -/
theorem fourParts_protected : ∃ s', (module_set_section_permissions updateRange 0xffffffff80001000 0x4000).run fourState =
    .ok (.Ok, s') ∧ fourParts.Protected s'.heap := by
  have hok : (module_set_section_permissions updateRange 0xffffffff80001000 0x4000).run' fourState = .ok .Ok := by
    decide +kernel
  obtain ⟨s', hrun⟩ := run_of_run' hok
  have hresult := wp_ok (permissions_transactional (s := fourState) (boot_tree fourMachine_boot) fourPages_mapping
    fourPages_writable fourParts_of fun _ => fourParts_inside) hrun
  exact ⟨s', hrun, hresult.2.2 rfl fourParts_disjoint⟩

end KernelOfTruth.ModulePermissions
