import KernelOfTruth.Paging
import KernelOfTruth.Spec.Paging

/-!
# `map_page` updates the translation of one page

Up to three tables are linked on the way to the page. Each of these steps only adds a table that maps
nothing, so no walk changes until the entry of the page itself is written.
-/

open KernelOfTruth.Lib KernelOfTruth.Code KernelOfTruth.Spec KernelOfTruth.Rules KernelOfTruth.Window
  KernelOfTruth.Tables KernelOfTruth.Paging

namespace KernelOfTruth.MapPage

variable {img : KernelImage} {ok : Set Word → Machine → Prop} {okN : Nat → Set Word → Machine → Prop}
  {alloc : Kernel Machine Word} {E : Halt → Prop} {F : Prop} {m m' : Machine} {free free' : Set Word} {k : Nat}

/-! ## Tables in the window -/

theorem translate_pl3 (h : SelfMapped m) (v : Word) : m.translate (get_pl3 v) = m.table [index4 v] := by
  rw [Machine.translate, get_pl3, pl4_index_eq, pagePath_pl3_index, table_pl3 h]

theorem translate_pl2 (h : SelfMapped m) (v : Word) : m.translate (get_pl2 v) = m.table [index3 v, index4 v] := by
  rw [Machine.translate, get_pl2, pl4_index_eq, pl3_index_eq, pagePath_pl2_index, table_pl2 h]

theorem translate_pl1 (h : SelfMapped m) (v : Word) :
    m.translate (get_pl1 v) = m.table [index2 v, index3 v, index4 v] := by
  rw [Machine.translate, get_pl1, pl4_index_eq, pl3_index_eq, pl2_index_eq, pagePath_pl1_index, table_pl1 h]

/-! ## Steps that add tables -/

theorem pivotWalk_trans {m₁ m₂ : Machine} (h : PivotWalk img m m₁) (h' : PivotWalk img m₁ m₂) :
    PivotWalk img m m₂ := by
  unfold PivotWalk at *
  rcases h' with h' | h' | h'
  · rw [h']
    exact h
  · exact .inr (.inl h')
  · exact .inr (.inr h')

theorem grows_refl (ht : Tree m) (hok : ok free m) : Grows img ok m m free free where
  subset := subset_rfl
  ok := hok
  tree := ht
  tables f := by tauto
  keeps _ h := h
  walks _ _ := rfl
  pivot := .inl rfl

theorem grows_trans {ok' : Set Word → Machine → Prop} {m₁ m₂ : Machine} {free₁ free₂ : Set Word}
    (h : Grows img ok m m₁ free free₁) (h' : Grows img ok' m₁ m₂ free₁ free₂) : Grows img ok' m m₂ free free₂ where
  subset := h'.subset.trans h.subset
  ok := h'.ok
  tree := h'.tree
  tables f := by
    have hsub := @h.subset f
    have hsub' := @h'.subset f
    rw [h'.tables, h.tables]
    tauto
  keeps hp hf := h'.keeps hp (h.keeps hp hf)
  walks hp hne := (h'.walks hp hne).trans (h.walks hp hne)
  pivot := pivotWalk_trans h.pivot h'.pivot

theorem pagePath_length {v : Word} (p : List Index) (h : p = pagePath v) : p.length = 4 := by
  rw [h]
  rfl

theorem pivotPage_length (p : List Index) (h : p = pivotPage img) : p.length = 4 := pagePath_length p h

/-- The allocator returns no page. -/
theorem grows_moved (ht : Tree m) (h : MovesPivot img m m') (hok : ok free m') : Grows img ok m m' free free where
  subset := subset_rfl
  ok := hok
  tree := h.same.tree pivotPage_length ht
  tables f := by
    rw [h.same.isTable pivotPage_length]
    tauto
  keeps hp hf := (h.same.table pivotPage_length hp).trans hf
  walks hp hne := h.same.walk pivotPage_length hp hne
  pivot := h.pivot

/-! ## One new table -/

theorem pagePath_of_index4 {v : Word} (hv : index4 v ≠ fractal) : PagePath (pagePath v) := by
  refine ⟨rfl, ?_⟩
  simpa [Outside, pagePath] using hv

theorem pivotPage_pagePath (img : KernelImage) : PagePath (pivotPage img) := pagePath_of_index4 (pivot_outside img)

/-- The entry that `map_page` writes for a new table. -/
def tableEntry (r : Word) : Word := r ||| Memory_Just_Writable ||| Memory_User_Access ||| Memory_Present

theorem tableEntry_present (r : Word) : present (tableEntry r) := present_or _

theorem tableEntry_phys {r : Word} (hr : IsFrame r) : page_entry_to_phys (tableEntry r) = r := by
  have h1 : Memory_Just_Writable &&& Phys_Addr_Mask = 0#64 := by decide
  have h2 : Memory_User_Access &&& Phys_Addr_Mask = 0#64 := by decide
  have h3 : Memory_Present &&& Phys_Addr_Mask = 0#64 := by decide
  unfold tableEntry page_entry_to_phys
  rw [BitVec.and_or_distrib_right, BitVec.and_or_distrib_right, BitVec.and_or_distrib_right, h1, h2, h3,
    BitVec.or_zero, BitVec.or_zero, BitVec.or_zero]
  exact hr

section Link

variable {q : List Index} {i : Index} {f e r : Word}

/-- A write to an entry of the table `q` is not on the way to `q`, or to a table on its level. -/
theorem setWord_table (ht : Tree m) (hq : TablePath q) (hf : m.table q = some f) {p : List Index} (hp : TablePath p)
    (hlen : p.length ≤ q.length) : ({ m with mem := setWord m.mem f i e } : Machine).table p = m.table p := by
  induction p with
  | nil => rfl
  | cons j p ih =>
    have hp' := tablePath_tail hp
    have ih := ih hp' (by simp at hlen; omega)
    cases hg : m.table p with
    | none => rw [table_cons_none hg, table_cons_none (ih.trans hg)]
    | some g =>
      have hne : ¬ (g = f ∧ j = i) := by
        rintro ⟨rfl, -⟩
        rw [ht.inj hp' hq hg hf] at hlen
        simp at hlen
      rw [table_cons_some hg, table_cons_some (ih.trans hg)]
      simp [setWord, hne]

theorem setWord_self (ht : Tree m) (hq : TablePath (i :: q)) (hf : m.table q = some f) :
    SelfMapped { m with mem := setWord m.mem f i e } := by
  have hne : ¬ (m.cr3 = f ∧ fractal = i) := by
    rintro ⟨rfl, rfl⟩
    have hnil := ht.inj tablePath_nil (tablePath_tail hq) rfl hf
    rw [← hnil] at hq
    exact hq.outside rfl
  simpa [SelfMapped, setWord, hne] using ht.self

theorem grows_linked {m₁ : Machine} (laws : OkLaws img ok) (ht : Tree m) (hmoved : MovesPivot img m m₁)
    (hq : TablePath (i :: q)) (hf : m.table q = some f) (habs : present (m.mem f i) = false) (hfree : r ∈ free)
    (hr : IsFrame r) (hfresh : ¬ IsTable m r) (hok : ok (free \ {r}) m₁) :
    Grows img ok m (linked m₁ f i (tableEntry r) r) free (free \ {r}) ∧
      (linked m₁ f i (tableEntry r) r).table (i :: q) = some r := by
  have hq' := tablePath_tail hq
  have hlen : ¬ i :: q = pivotPage img := by
    intro h
    have := pivotPage_length _ h
    have := hq.length_le
    omega
  have ht₁ : Tree m₁ := hmoved.same.tree pivotPage_length ht
  have hf₁ : m₁.table q = some f := (hmoved.same.table pivotPage_length hq').trans hf
  have habs₁ : present (m₁.mem f i) = false := by rw [hmoved.same.mem hq' hf hlen, habs]
  have hfresh₁ : ¬ IsTable m₁ r := by rwa [hmoved.same.isTable pivotPage_length]
  have he := tableEntry_present r
  have her := tableEntry_phys hr
  have htable := @linked_table m₁ q i f r (tableEntry r) ht₁ hq hf₁ habs₁ he her hfresh₁
  have hwalk := @linked_walk m₁ q i f r (tableEntry r) ht₁ hq hf₁ habs₁ he her hfresh₁
  refine ⟨⟨Set.sdiff_subset, ?_, linked_tree ht₁ hq hf₁ habs₁ he her hfresh₁, ?_, ?_, ?_, ?_⟩, ?_⟩
  · exact laws.link ht₁ hok hq hf₁ habs₁ he her hfresh₁ fun h => h.2 rfl
  · intro g
    rw [linked_isTable ht₁ hq hf₁ habs₁ he her hfresh₁, hmoved.same.isTable pivotPage_length]
    by_cases hg : g = r <;> simp [hg, hfree]
  · intro p g hp hg
    rw [htable hp, if_neg, hmoved.same.table pivotPage_length hp, hg]
    rintro rfl
    rw [table_cons_some hf, habs] at hg
    cases hg
  · intro page hp hne
    rw [hwalk hp, hmoved.same.walk pivotPage_length hp hne]
  · have hpivot := hmoved.pivot
    unfold PivotWalk at *
    rw [hwalk (pivotPage_pagePath img)]
    exact hpivot
  · rw [htable hq, if_pos rfl]

/-- One of the three blocks that link a table: `a` is the address of the entry above it, and `t` the
address of the table. -/
theorem wp_linkTable {a t : Word} (laws : BudgetLaws img okN alloc E F) (ht : Tree m) (hok : okN (k + 1) free m)
    (hq : TablePath (i :: q)) (hf : m.table q = some f) (ha : ∀ m', SelfMapped m' → Slot m' a q i)
    (htr : ∀ m' : Machine, SelfMapped m' → m'.translate t = m'.table (i :: q)) :
    wp (linkTable alloc a t (present (m.mem f i))) (fun status m' => ∃ free', Grows img (okN k) m m' free free' ∧
      (status = .Ok → ∃ g, m'.table (i :: q) = some g) ∧ (status ≠ .Ok → F)) E m := by
  cases hpres : present (m.mem f i) with
  | true =>
    rw [wp_linkTable_present]
    refine ⟨free, grows_refl ht (laws.fewer hok), fun _ => ⟨page_entry_to_phys (m.mem f i), ?_⟩, fun h => absurd rfl h⟩
    rw [table_cons_some hf, if_pos hpres]
  | false =>
    unfold linkTable
    rw [if_neg (by decide), wp_bind]
    refine wp_imp (laws.alloc ht hok) ?_
    rintro r m₁ ⟨hmoved, ⟨rfl, hnone, hok₁⟩ | ⟨hfree, hr, hfresh, hok₁⟩⟩
    · rw [if_pos rfl, wp_pure]
      exact ⟨free, grows_moved ht hmoved hok₁, (fun h => by cases h), fun _ => hnone⟩
    · have hq' := tablePath_tail hq
      have ht₁ : Tree m₁ := hmoved.same.tree pivotPage_length ht
      have hf₁ : m₁.table q = some f := (hmoved.same.table pivotPage_length hq').trans hf
      have hself := setWord_self (e := tableEntry r) ht₁ hq hf₁
      have htable : ({ m₁ with mem := setWord m₁.mem f i (tableEntry r) } : Machine).table (i :: q) = some r := by
        rw [table_cons_some ((setWord_table ht₁ hq' hf₁ hq' le_rfl).trans hf₁)]
        simp [setWord, tableEntry_present, tableEntry_phys hr]
      have hne : r ≠ invalid_phys_addr := by
        rintro rfl
        exact absurd hr (by unfold IsFrame; decide)
      obtain ⟨hgrows, htab⟩ := grows_linked (laws.laws k) ht hmoved hq hf hpres hfree hr hfresh hok₁
      rw [if_neg hne, wp_bind, (ha m₁ ht₁.self).wp_store hf₁, wp_bind]
      change wp (clear_page t) _ E { m₁ with mem := setWord m₁.mem f i (tableEntry r) }
      rw [wp_clear_page ((htr _ hself).trans htable), wp_pure]
      exact ⟨_, hgrows, fun _ => ⟨r, htab⟩, fun h => absurd rfl h⟩

end Link

/-! ## The whole call -/

/-- What a call of `map_page` does. -/
structure MapsPage (img : KernelImage) (ok : Set Word → Machine → Prop) (v p perms : Word) (status : Status)
    (m m' : Machine) (free free' : Set Word) : Prop where
  subset : free' ⊆ free
  ok : ok free' m'
  tree : Tree m'
  tables : ∀ f, IsTable m' f ↔ IsTable m f ∨ (f ∈ free ∧ f ∉ free')
  others : ∀ {page : List Index}, PagePath page → page ≠ pivotPage img → page ≠ pagePath v →
    walk m' page = walk m page
  pivot : PivotWalk img m m'
  mapped : status = .Ok → walk m (pagePath v) = none ∧ walk m' (pagePath v) = leafValue (leafEntry p perms) ∧
    permissionsRefused v perms = false
  failed : status ≠ .Ok → walk m' (pagePath v) = walk m (pagePath v)

section Call

variable {v p perms : Word} {status : Status} (hv : index4 v ≠ fractal) (hne : pagePath v ≠ pivotPage img)
include hv hne

theorem mapsPage_failed (hstatus : status ≠ .Ok) (h : Grows img ok m m' free free') :
    MapsPage img ok v p perms status m m' free free' where
  subset := h.subset
  ok := h.ok
  tree := h.tree
  tables := h.tables
  others hp hpivot _ := h.walks hp hpivot
  pivot := h.pivot
  mapped hok := absurd hok hstatus
  failed _ := h.walks (pagePath_of_index4 hv) hne

theorem mapsPage_ok {m₁ : Machine} {f : Word} (laws : OkLaws img ok) (h : Grows img ok m m₁ free free')
    (hf : m₁.table [index2 v, index3 v, index4 v] = some f) (habs : present (m₁.mem f (index1 v)) = false)
    (hperms : permissionsRefused v perms = false) :
    MapsPage img ok v p perms .Ok m { m₁ with mem := setWord m₁.mem f (index1 v) (leafEntry p perms) } free free' := by
  have hpage := pagePath_of_index4 hv
  have hlen := @pagePath_length v
  have hsame := leafWrite (i := index1 v) h.tree (pagePath_tail hpage) hf (leafEntry p perms)
  have hentry := leafWrite_entry h.tree hpage hf (leafEntry p perms)
  refine ⟨h.subset, laws.leaf _ h.tree h.ok hpage hne hf, hsame.tree hlen h.tree, ?_, ?_, ?_, ?_, ?_⟩
  · intro g
    rw [hsame.isTable hlen, h.tables]
  · intro page hp hpivot hother
    rw [hsame.walk hlen hp hother, h.walks hp hpivot]
  · refine pivotWalk_trans h.pivot (.inl ?_)
    exact hsame.walk hlen (pivotPage_pagePath img) hne.symm
  · intro _
    have hbefore : walk m₁ (pagePath v) = none := by
      unfold walk pagePath
      rw [entry_cons_some hf]
      simp [leafValue, habs]
    refine ⟨(h.walks hpage hne).symm.trans hbefore, ?_, hperms⟩
    unfold walk pagePath
    rw [hentry]
    rfl
  · intro hstatus
    exact absurd rfl hstatus

/-- The three links take at most three pages. The call fails only for its permissions, for a page that is mapped, and
without a page for a table. -/
theorem wp_map_page_budget (laws : BudgetLaws img okN alloc E F) (ht : Tree m) (hok : okN (k + 3) free m) :
    wp (map_page alloc v p perms) (fun status m' => ∃ free', MapsPage img (okN k) v p perms status m m' free free' ∧
      (status ≠ .Ok → permissionsRefused v perms ∨ walk m (pagePath v) ≠ none ∨ F)) E m := by
  have hpath : TablePath [index2 v, index3 v, index4 v] := pagePath_tail (pagePath_of_index4 hv)
  have hless : ∀ {n m' free'}, Grows img (okN (n + 1)) m m' free free' → Grows img (okN n) m m' free free' :=
    fun h => { h with ok := laws.fewer h.ok }
  unfold map_page
  split
  · rename_i hperms
    rw [wp_pure]
    exact ⟨free, mapsPage_failed hv hne (by decide) (grows_refl ht (laws.fewer (laws.fewer (laws.fewer hok)))), fun _ =>
      .inl hperms⟩
  · rename_i hperms
    simp only [Bool.not_eq_true] at hperms
    rw [wp_bubble, wp_bind, wp_is_pl3_present ht.self]
    refine wp_imp (wp_linkTable laws ht hok (tablePath_tail (tablePath_tail hpath)) rfl
      (fun _ h => slot_pl4 h v) fun _ h => translate_pl3 h v) ?_
    rintro status m₁ ⟨free₁, hgrows₁, hlinked₁, hnone₁⟩
    split
    · rename_i hstatus
      obtain ⟨f3, h3⟩ := hlinked₁ hstatus
      rw [wp_bubble, wp_bind, wp_is_pl2_present hgrows₁.tree.self h3]
      refine wp_imp (wp_linkTable laws hgrows₁.tree hgrows₁.ok (tablePath_tail hpath) h3
        (fun _ h => slot_pl3 h v) fun _ h => translate_pl2 h v) ?_
      rintro status m₂ ⟨free₂, hgrows₂, hlinked₂, hnone₂⟩
      have hgrows := grows_trans hgrows₁ hgrows₂
      split
      · rename_i hstatus
        obtain ⟨f2, h2⟩ := hlinked₂ hstatus
        rw [wp_bubble, wp_bind, wp_is_pl1_present hgrows.tree.self h2]
        refine wp_imp (wp_linkTable laws hgrows.tree hgrows.ok hpath h2
          (fun _ h => slot_pl2 h v) fun _ h => translate_pl1 h v) ?_
        rintro status m₃ ⟨free₃, hgrows₃, hlinked₃, hnone₃⟩
        have hgrows := grows_trans hgrows hgrows₃
        split
        · rename_i hstatus
          obtain ⟨f1, h1⟩ := hlinked₃ hstatus
          rw [wp_bind, wp_is_Memory_Present hgrows.tree.self h1, wp_ite]
          split
          · rename_i hpres
            rw [wp_pure]
            refine ⟨free₃, mapsPage_failed hv hne (by decide) hgrows, fun _ => .inr (.inl ?_)⟩
            rw [← hgrows.walks (pagePath_of_index4 hv) hne, walk, pagePath, entry_cons_some h1]
            simp [leafValue, hpres]
          · rename_i habs
            rw [wp_bind, (slot_pl1 hgrows.tree.self v).wp_store h1, wp_pure]
            exact ⟨free₃, mapsPage_ok hv hne (laws.laws k) hgrows h1 (by simpa using habs) hperms, fun h => absurd rfl h⟩
        · rename_i hstatus
          exact ⟨free₃, mapsPage_failed hv hne hstatus hgrows, fun _ => .inr (.inr (hnone₃ hstatus))⟩
      · rename_i hstatus
        exact ⟨free₂, mapsPage_failed hv hne hstatus (hless hgrows), fun _ => .inr (.inr (hnone₂ hstatus))⟩
    · rename_i hstatus
      exact ⟨free₁, mapsPage_failed hv hne hstatus (hless (hless hgrows₁)), fun _ => .inr (.inr (hnone₁ hstatus))⟩

omit hv hne in
theorem budget_of_alloc (laws : AllocLaws img ok alloc E) : BudgetLaws img (fun _ => ok) alloc E True where
  laws _ := laws.toOkLaws
  fewer h := h
  alloc ht hok := by
    refine wp_imp (laws.alloc ht hok) ?_
    rintro r m' ⟨hmoved, ⟨hr, hok'⟩ | htaken⟩
    · exact ⟨hmoved, .inl ⟨hr, trivial, hok'⟩⟩
    · exact ⟨hmoved, .inr htaken⟩

theorem wp_map_page (laws : AllocLaws img ok alloc E) (ht : Tree m) (hok : ok free m) :
    wp (map_page alloc v p perms)
      (fun status m' => ∃ free', MapsPage img ok v p perms status m m' free free') E m := by
  refine wp_imp (wp_map_page_budget hv hne (budget_of_alloc laws) ht hok (k := 0)) ?_
  rintro status m' ⟨free', hmaps, -⟩
  exact ⟨free', hmaps⟩

end Call

end KernelOfTruth.MapPage
