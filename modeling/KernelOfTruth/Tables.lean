import KernelOfTruth.Window

/-!
# What a write does to the page tables

Three kinds of writes happen: a new table is linked and cleared, an entry of the lowest level is
changed, and memory that is no table is changed. Each has one lemma that says what all paths reach
afterwards.
-/

open KernelOfTruth.Lib KernelOfTruth.Code KernelOfTruth.Spec

namespace KernelOfTruth.Tables

/-! ## Paths -/

theorem tablePath_nil : TablePath [] := ⟨by simp, by simp [Outside]⟩

theorem outside_tail {i : Index} {p : List Index} (h : Outside (i :: p)) : Outside p := by
  cases p with
  | nil => simp [Outside]
  | cons j p => simpa [Outside, List.getLast?_cons_cons] using h

theorem tablePath_tail {i : Index} {p : List Index} (h : TablePath (i :: p)) : TablePath p :=
  ⟨by have := h.length_le; simp at this; omega, outside_tail h.outside⟩

theorem pagePath_tail {i : Index} {p : List Index} (h : PagePath (i :: p)) : TablePath p :=
  ⟨by have := h.length_eq; simp at this; omega, outside_tail h.outside⟩

/-! ## Tables and entries -/

variable {m m' : Machine}

theorem table_cons (m : Machine) (i : Index) (p : List Index) :
    m.table (i :: p) =
      (m.table p).bind fun f => if present (m.mem f i) then some (page_entry_to_phys (m.mem f i)) else none :=
  rfl

theorem table_cons_some {i : Index} {p : List Index} {f : Word} (h : m.table p = some f) :
    m.table (i :: p) = if present (m.mem f i) then some (page_entry_to_phys (m.mem f i)) else none := by
  rw [table_cons, h]; rfl

theorem table_cons_none {i : Index} {p : List Index} (h : m.table p = none) : m.table (i :: p) = none := by
  rw [table_cons, h]; rfl

theorem entry_cons_some {i : Index} {p : List Index} {f : Word} (h : m.table p = some f) :
    entry m (i :: p) = some (m.mem f i) := by
  simp [entry, h]

theorem isFrame_page_entry (e : Word) : IsFrame (page_entry_to_phys e) := by
  unfold IsFrame page_entry_to_phys
  rw [BitVec.and_assoc, BitVec.and_self]

end KernelOfTruth.Tables

namespace KernelOfTruth.Spec

open KernelOfTruth.Tables

variable {m m' : Machine}

/-! ## Agreement -/

/-- Entries of the lowest level are not on the way to any table. -/
theorem SameEntries.table {except : List Index → Prop} (h : SameEntries m m' except)
    (hex : ∀ p, except p → p.length = 4) {p : List Index} (hp : TablePath p) : m'.table p = m.table p := by
  induction p with
  | nil => simp [Machine.table, h.cr3]
  | cons i p ih =>
    have ih := ih (tablePath_tail hp)
    cases hq : m.table p with
    | none => rw [table_cons_none hq, table_cons_none (ih.trans hq)]
    | some f =>
      have hlen : ¬ except (i :: p) := by
        intro he
        have := hex _ he
        have := hp.length_le
        omega
      rw [table_cons_some hq, table_cons_some (ih.trans hq), h.mem (tablePath_tail hp) hq hlen]

theorem SameEntries.entry {except : List Index → Prop} (h : SameEntries m m' except)
    (hex : ∀ p, except p → p.length = 4) {i : Index} {p : List Index} (hp : TablePath p)
    (hne : ¬ except (i :: p)) : entry m' (i :: p) = entry m (i :: p) := by
  have ht := h.table hex hp
  cases hq : m.table p with
  | none => simp [Spec.entry, hq, ht]
  | some f => rw [entry_cons_some hq, entry_cons_some (ht.trans hq), h.mem hp hq hne]

theorem SameEntries.walk {except : List Index → Prop} (h : SameEntries m m' except)
    (hex : ∀ p, except p → p.length = 4) {page : List Index} (hp : PagePath page)
    (hne : ¬ except page) : walk m' page = walk m page := by
  cases page with
  | nil => rfl
  | cons i p => unfold Spec.walk; rw [h.entry hex (pagePath_tail hp) hne]

theorem SameEntries.tree {except : List Index → Prop} (h : SameEntries m m' except)
    (hex : ∀ p, except p → p.length = 4) (ht : Tree m) : Tree m' := by
  refine ⟨?_, ?_⟩
  · have hself : m'.mem m.cr3 fractal = m.mem m.cr3 fractal :=
      h.mem tablePath_nil rfl fun he => by simpa using hex _ he
    rw [SelfMapped, h.cr3, hself]
    exact ht.self
  · intro p q f hp hq hf hg
    rw [h.table hex hp] at hf
    rw [h.table hex hq] at hg
    exact ht.inj hp hq hf hg

theorem SameEntries.isTable {except : List Index → Prop} (h : SameEntries m m' except)
    (hex : ∀ p, except p → p.length = 4) (f : Word) : IsTable m' f ↔ IsTable m f := by
  constructor
  · rintro ⟨p, hp, hf⟩; exact ⟨p, hp, by rw [← h.table hex hp]; exact hf⟩
  · rintro ⟨p, hp, hf⟩; exact ⟨p, hp, by rw [h.table hex hp]; exact hf⟩

theorem SameEntries.trans {m'' : Machine} {except : List Index → Prop} (h : SameEntries m m' except)
    (h' : SameEntries m' m'' except) (hex : ∀ p, except p → p.length = 4) : SameEntries m m'' except := by
  refine ⟨h'.cr3.trans h.cr3, ?_⟩
  intro p i f hp hf hne
  rw [h'.mem hp ((h.table hex hp).trans hf) hne, h.mem hp hf hne]

end KernelOfTruth.Spec

namespace KernelOfTruth.Tables

variable {m m' : Machine}

/-! ## A new table -/

section Link

variable {q : List Index} {i : Index} {f r e : Word}

theorem linked_mem (ht : Tree m) (hq : TablePath (i :: q)) (hf : m.table q = some f)
    (hfresh : ¬ IsTable m r) {p : List Index} {g : Word} (hp : TablePath p) (hg : m.table p = some g)
    (j : Index) : (linked m f i e r).mem g j = if j :: p = i :: q then e else m.mem g j := by
  have hgr : g ≠ r := fun h => hfresh ⟨p, hp, by rw [hg, h]⟩
  by_cases hslot : g = f ∧ j = i
  · obtain ⟨rfl, rfl⟩ := hslot
    have : p = q := ht.inj hp (tablePath_tail hq) hg hf
    simp [linked, clearFrame, setWord, hgr, this]
  · have hne : ¬ j :: p = i :: q := by
      intro h; cases h; rw [hf] at hg; cases hg; exact hslot ⟨rfl, rfl⟩
    rw [if_neg hne]
    simp [linked, clearFrame, setWord, hgr, hslot]

theorem linked_table (ht : Tree m) (hq : TablePath (i :: q)) (hf : m.table q = some f)
    (habs : present (m.mem f i) = false) (he : present e) (her : page_entry_to_phys e = r)
    (hfresh : ¬ IsTable m r) {p : List Index} (hp : TablePath p) :
    (linked m f i e r).table p = if p = i :: q then some r else m.table p := by
  induction p with
  | nil => simp [Machine.table, linked]
  | cons j p ih =>
    have hp' := tablePath_tail hp
    have ih := ih hp'
    by_cases hpq : p = i :: q
    · -- Below the new table there is nothing, before and after.
      rw [if_pos hpq] at ih
      have hnone : m.table p = none := by rw [hpq, table_cons_some hf, habs]; rfl
      have hne : ¬ j :: p = i :: q := by rw [hpq]; simp
      rw [if_neg hne, table_cons_none hnone, table_cons_some ih]
      simp [linked, clearFrame, present]
    · rw [if_neg hpq] at ih
      cases hg : m.table p with
      | none =>
        have hne : ¬ j :: p = i :: q := by
          intro h; cases h; rw [hf] at hg; cases hg
        rw [if_neg hne, table_cons_none hg, table_cons_none (ih.trans hg)]
      | some g =>
        rw [table_cons_some (ih.trans hg), table_cons_some hg, linked_mem ht hq hf hfresh hp' hg]
        by_cases hslot : j :: p = i :: q
        · rw [if_pos hslot, if_pos hslot, if_pos he, her]
        · rw [if_neg hslot, if_neg hslot]

theorem linked_tree (ht : Tree m) (hq : TablePath (i :: q)) (hf : m.table q = some f)
    (habs : present (m.mem f i) = false) (he : present e) (her : page_entry_to_phys e = r)
    (hfresh : ¬ IsTable m r) : Tree (linked m f i e r) := by
  have htab := @linked_table m q i f r e ht hq hf habs he her hfresh
  refine ⟨?_, ?_⟩
  · have hne : ¬ [fractal] = i :: q := by
      intro h; exact hq.outside (by rw [← h]; rfl)
    have := linked_mem (e := e) ht hq hf hfresh tablePath_nil rfl fractal
    rw [if_neg hne] at this
    rw [SelfMapped, show (linked m f i e r).cr3 = m.cr3 from rfl, this]
    exact ht.self
  · intro p p' g hp hp' hg hg'
    rw [htab hp] at hg
    rw [htab hp'] at hg'
    split at hg <;> split at hg'
    · simp_all
    · cases hg; exact (hfresh ⟨p', hp', hg'⟩).elim
    · cases hg'; exact (hfresh ⟨p, hp, hg⟩).elim
    · exact ht.inj hp hp' hg hg'

theorem linked_isTable (ht : Tree m) (hq : TablePath (i :: q)) (hf : m.table q = some f)
    (habs : present (m.mem f i) = false) (he : present e) (her : page_entry_to_phys e = r)
    (hfresh : ¬ IsTable m r) (g : Word) : IsTable (linked m f i e r) g ↔ IsTable m g ∨ g = r := by
  have htab := @linked_table m q i f r e ht hq hf habs he her hfresh
  constructor
  · rintro ⟨p, hp, hg⟩
    rw [htab hp] at hg
    split at hg
    · cases hg; exact Or.inr rfl
    · exact Or.inl ⟨p, hp, hg⟩
  · rintro (⟨p, hp, hg⟩ | rfl)
    · refine ⟨p, hp, ?_⟩
      rw [htab hp, if_neg, hg]
      intro h; rw [h, table_cons_some hf, habs] at hg; cases hg
    · exact ⟨i :: q, hq, by rw [htab hq, if_pos rfl]⟩

theorem linked_walk (ht : Tree m) (hq : TablePath (i :: q)) (hf : m.table q = some f)
    (habs : present (m.mem f i) = false) (he : present e) (her : page_entry_to_phys e = r)
    (hfresh : ¬ IsTable m r) {page : List Index} (hp : PagePath page) :
    walk (linked m f i e r) page = walk m page := by
  cases page with
  | nil => rfl
  | cons j p =>
    have hp' := pagePath_tail hp
    have htab := linked_table ht hq hf habs he her hfresh hp'
    by_cases hpq : p = i :: q
    · have hnone : m.table p = none := by rw [hpq, table_cons_some hf, habs]; rfl
      rw [if_pos hpq] at htab
      rw [walk, walk, entry_cons_some htab]
      simp [entry, hnone, leafValue, linked, clearFrame, present]
    · rw [if_neg hpq] at htab
      cases hg : m.table p with
      | none => simp [walk, entry, htab, hg]
      | some g =>
        have hne : ¬ j :: p = i :: q := by
          intro h
          have := hp.length_eq
          have := hq.length_le
          rw [h] at *
          omega
        have hmem := linked_mem (e := e) ht hq hf hfresh hp' hg j
        rw [if_neg hne] at hmem
        rw [walk, walk, entry_cons_some hg, entry_cons_some (htab.trans hg), hmem]

end Link

/-! ## An entry of the lowest level -/

theorem leafWrite (ht : Tree m) {q : List Index} {i : Index} {f : Word} (hq : TablePath q)
    (hf : m.table q = some f) (e : Word) :
    SameEntries m { m with mem := setWord m.mem f i e } (· = i :: q) := by
  refine ⟨rfl, ?_⟩
  intro p j g hp hg hne
  have : ¬ (g = f ∧ j = i) := by
    rintro ⟨rfl, rfl⟩
    exact hne (by rw [ht.inj hp hq hg hf])
  simp [setWord, this]

theorem leafWrite_entry (ht : Tree m) {q : List Index} {i : Index} {f : Word} (hq : PagePath (i :: q))
    (hf : m.table q = some f) (e : Word) :
    entry { m with mem := setWord m.mem f i e } (i :: q) = some e := by
  have hs := leafWrite (i := i) ht (pagePath_tail hq) hf e
  have htab := hs.table (by rintro p rfl; exact hq.length_eq) (pagePath_tail hq)
  rw [entry_cons_some (htab.trans hf)]
  simp [setWord]

end KernelOfTruth.Tables
