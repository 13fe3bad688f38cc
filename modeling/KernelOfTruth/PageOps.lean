import KernelOfTruth.MapPage

/-! # Unmapping a page, and changing its permissions -/

open KernelOfTruth.Lib KernelOfTruth.Code KernelOfTruth.Spec KernelOfTruth.Rules KernelOfTruth.Window
  KernelOfTruth.Tables KernelOfTruth.Paging KernelOfTruth.MapPage

namespace KernelOfTruth.PageOps

variable {img : KernelImage} {ok : Set Word → Machine → Prop} {E : Halt → Prop} {m m' : Machine} {free : Set Word}
  {v : Word}

/-! ## The way to the last table -/

/-- The tables on the way to a page are there when the last one is. -/
theorem tables_above {f1 : Word} (h1 : m.table [index2 v, index3 v, index4 v] = some f1) :
    ∃ f3 f2, m.table [index4 v] = some f3 ∧ m.table [index3 v, index4 v] = some f2 := by
  cases h3 : m.table [index4 v] with
  | none =>
    rw [table_cons_none (table_cons_none h3)] at h1
    cases h1
  | some f3 =>
    cases h2 : m.table [index3 v, index4 v] with
    | none =>
      rw [table_cons_none h2] at h1
      cases h1
    | some f2 => exact ⟨f3, f2, rfl, rfl⟩

theorem table_of_present {i : Index} {p : List Index} {f : Word} (hp : m.table p = some f) (h : present (m.mem f i)) :
    m.table (i :: p) = some (page_entry_to_phys (m.mem f i)) := by
  rw [table_cons_some hp, if_pos h]

/-! ## `unmap_page` -/

theorem wp_unmap_page_absent {physical_free : Word → Kernel Machine Unit} {flag : Bool} {Q : Unit → Machine → Prop}
    (hs : SelfMapped m) (h1 : m.table [index2 v, index3 v, index4 v] = none) :
    wp (unmap_page physical_free v flag) Q E m ↔ Q () m := by
  unfold unmap_page
  rw [wp_bind, wp_is_pl3_present hs]
  cases hp3 : present (m.mem m.cr3 (index4 v)) with
  | false => simp
  | true =>
    have h3 := table_of_present (p := []) rfl hp3
    simp only [if_true, wp_bind, wp_is_pl2_present hs h3]
    cases hp2 : present (m.mem _ (index3 v)) with
    | false => simp
    | true =>
      have h2 := table_of_present h3 hp2
      simp only [if_true, wp_bind, wp_is_pl1_present hs h2]
      cases hp1 : present (m.mem _ (index2 v)) with
      | false => simp
      | true =>
        rw [table_of_present h2 hp1] at h1
        cases h1

theorem wp_unmap_page_free {physical_free : Word → Kernel Machine Unit} {f1 : Word} {Q : Unit → Machine → Prop}
    (hs : SelfMapped m) (h1 : m.table [index2 v, index3 v, index4 v] = some f1) :
    wp (unmap_page physical_free v true) Q E m ↔
      wp (physical_free (page_entry_to_phys (m.mem f1 (index1 v)))) (fun _ m₁ =>
        wp (store (entryAddress (get_pl1 v) (pl1_index v)) free_page_entry) Q E m₁) E m := by
  obtain ⟨f3, f2, h3, h2⟩ := tables_above h1
  have hp3 : present (m.mem m.cr3 (index4 v)) := present_of_table rfl h3
  have hp2 : present (m.mem f3 (index3 v)) := present_of_table h3 h2
  have hp1 : present (m.mem f2 (index2 v)) := present_of_table h2 h1
  simp [unmap_page, wp_is_pl3_present hs, wp_is_pl2_present hs h3, wp_is_pl1_present hs h2, hp3, hp2, hp1,
    (slot_pl1 hs v).wp_load h1]

/-- The frames that a call of `unmap_page` frees. -/
def freedBy (m : Machine) (v : Word) (flag : Bool) : Set Word :=
  { f | flag = true ∧ ∃ perms, walk m (pagePath v) = some (f, perms) }

/-- What a call of `unmap_page` does. -/
structure UnmapsPage (img : KernelImage) (ok : Set Word → Machine → Prop) (v : Word) (flag : Bool) (m m' : Machine)
    (free : Set Word) : Prop where
  ok : ok (free ∪ freedBy m v flag) m'
  tree : Tree m'
  tables : ∀ f, IsTable m' f ↔ IsTable m f
  others : ∀ {page : List Index}, PagePath page → page ≠ pivotPage img → page ≠ pagePath v →
    walk m' page = walk m page
  pivot : PivotWalk img m m'
  unmapped : walk m' (pagePath v) = none

/-- The page may be freed with `unmap_page`: its frame is in use, and no page table. -/
def Freeable (m : Machine) (free : Set Word) (v : Word) : Prop :=
  ∀ e, entry m (pagePath v) = some e →
    present e ∧ ¬ IsTable m (page_entry_to_phys e) ∧ page_entry_to_phys e ∉ free

theorem movesPivot_refl (img : KernelImage) (m : Machine) : MovesPivot img m m := ⟨⟨rfl, fun _ _ _ => rfl⟩, .inl rfl⟩

theorem unmapsPage_absent {flag : Bool} (ht : Tree m) (hok : ok free m)
    (h1 : m.table [index2 v, index3 v, index4 v] = none) : UnmapsPage img ok v flag m m free := by
  have hnone : walk m (pagePath v) = none := by simp [walk, pagePath, entry, h1]
  have hfreed : freedBy m v flag = ∅ := by simp [freedBy, hnone]
  refine ⟨by rwa [hfreed, Set.union_empty], ht, fun _ => Iff.rfl, fun _ _ _ => rfl, .inl rfl, hnone⟩

section Call

variable (hv : index4 v ≠ fractal) (hne : pagePath v ≠ pivotPage img)
include hv hne

/-- The entry of the page is overwritten, after the allocator may have taken the frame. -/
theorem unmapsPage_store {m₁ : Machine} {f1 : Word} {flag : Bool} (laws : OkLaws img ok) (ht : Tree m)
    (hmoved : MovesPivot img m m₁) (hok : ok (free ∪ freedBy m v flag) m₁)
    (h1 : m.table [index2 v, index3 v, index4 v] = some f1) :
    UnmapsPage img ok v flag m { m₁ with mem := setWord m₁.mem f1 (index1 v) free_page_entry } free := by
  have hpage := pagePath_of_index4 hv
  have hlen := @pagePath_length v
  have ht₁ : Tree m₁ := hmoved.same.tree pivotPage_length ht
  have h1₁ := (hmoved.same.table pivotPage_length (pagePath_tail hpage)).trans h1
  have hsame := leafWrite (i := index1 v) ht₁ (pagePath_tail hpage) h1₁ free_page_entry
  have hentry := leafWrite_entry ht₁ hpage h1₁ free_page_entry
  refine ⟨laws.leaf _ ht₁ hok hpage hne h1₁, hsame.tree hlen ht₁, ?_, ?_, ?_, ?_⟩
  · intro f
    rw [hsame.isTable hlen, hmoved.same.isTable pivotPage_length]
  · intro page hp hpivot hother
    rw [hsame.walk hlen hp hother, hmoved.same.walk pivotPage_length hp hpivot]
  · refine pivotWalk_trans hmoved.pivot (.inl ?_)
    exact hsame.walk hlen (pivotPage_pagePath img) hne.symm
  · unfold walk pagePath
    rw [hentry]
    rfl

/-- Without the flag the physical allocator is not called. -/
theorem wp_unmap_page_keep {physical_free : Word → Kernel Machine Unit} (laws : OkLaws img ok) (ht : Tree m)
    (hok : ok free m) :
    wp (unmap_page physical_free v false) (fun _ m' => UnmapsPage img ok v false m m' free) E m := by
  cases h1 : m.table [index2 v, index3 v, index4 v] with
  | none =>
    rw [wp_unmap_page_absent ht.self h1]
    exact unmapsPage_absent ht hok h1
  | some f1 =>
    obtain ⟨f3, f2, h3, h2⟩ := tables_above h1
    rw [wp_unmap_page_present ht.self h3 h2 h1]
    have hfreed : freedBy m v false = ∅ := by simp [freedBy]
    exact unmapsPage_store hv hne laws ht (movesPivot_refl img m) (by rwa [hfreed, Set.union_empty]) h1

/-- With the flag, the page may be absent, or its frame is one that the allocator takes. -/
theorem wp_unmap_page_given {physical_free : Word → Kernel Machine Unit} (laws : OkLaws img ok) (ht : Tree m)
    (hok : ok free m) (hfree : ∀ e, entry m (pagePath v) = some e → present e ∧
      wp (physical_free (page_entry_to_phys e)) (fun _ m₁ => MovesPivot img m m₁ ∧ ok (free ∪ {page_entry_to_phys e}) m₁)
        E m) :
    wp (unmap_page physical_free v true) (fun _ m' => UnmapsPage img ok v true m m' free) E m := by
  cases h1 : m.table [index2 v, index3 v, index4 v] with
  | none =>
    rw [wp_unmap_page_absent ht.self h1]
    exact unmapsPage_absent ht hok h1
  | some f1 =>
    have hentry : entry m (pagePath v) = some (m.mem f1 (index1 v)) := entry_cons_some h1
    obtain ⟨hpres, hcall⟩ := hfree _ hentry
    rw [wp_unmap_page_free ht.self h1]
    refine wp_imp hcall ?_
    rintro _ m₁ ⟨hmoved, hok₁⟩
    have h1₁ := (hmoved.same.table pivotPage_length (pagePath_tail (pagePath_of_index4 hv))).trans h1
    have hself := (hmoved.same.tree pivotPage_length ht).self
    have hwalk : walk m (pagePath v) = leafValue (m.mem f1 (index1 v)) := by rw [walk, hentry]; rfl
    have hfreed : freedBy m v true = {page_entry_to_phys (m.mem f1 (index1 v))} := by
      ext f
      simp [freedBy, hwalk, leafValue, hpres, eq_comm]
    rw [(slot_pl1 hself v).wp_store h1₁]
    exact unmapsPage_store hv hne laws ht hmoved (by rwa [hfreed]) h1

theorem wp_unmap_page {physical_free : Word → Kernel Machine Unit} {flag : Bool}
    (laws : FreeLaws img ok physical_free E) (ht : Tree m) (hok : ok free m)
    (hfree : flag = true → Freeable m free v) :
    wp (unmap_page physical_free v flag) (fun _ m' => UnmapsPage img ok v flag m m' free) E m := by
  cases flag with
  | false => exact wp_unmap_page_keep hv hne laws.toOkLaws ht hok
  | true =>
    refine wp_unmap_page_given hv hne laws.toOkLaws ht hok fun e he => ?_
    obtain ⟨hpres, htable, hused⟩ := hfree rfl e he
    exact ⟨hpres, laws.free ht hok (isFrame_page_entry _) hused htable⟩

end Call

/-! ## `map_update_page` -/

/-- One case for each way to end. -/
theorem wp_map_update_page_cases {perms : Word} {Q : Status → Machine → Prop} (hs : SelfMapped m)
    (hrefused : permissionsRefused v perms = true → Q .Error_Permissions m)
    (habsent : walk m (pagePath v) = none → Q .Error_Absent m)
    (hpresent : ∀ f1, m.table [index2 v, index3 v, index4 v] = some f1 → present (m.mem f1 (index1 v)) →
      permissionsRefused v perms = false →
      Q .Ok { m with mem := setWord m.mem f1 (index1 v) (leafEntry (m.mem f1 (index1 v)) perms) }) :
    wp (map_update_page v perms) Q E m := by
  have hnone : m.table [index2 v, index3 v, index4 v] = none → Q .Error_Absent m := by
    intro h1
    refine habsent ?_
    simp [walk, pagePath, entry, h1]
  unfold map_update_page
  split
  · rename_i hperms
    exact (wp_pure ..).mpr (hrefused hperms)
  · rename_i hperms
    simp only [Bool.not_eq_true] at hperms
    rw [wp_bind, wp_is_pl3_present hs, wp_ite]
    split
    · rename_i hp3
      have h3 : m.table [index4 v] = none := by
        rw [table_cons_some (p := []) rfl, if_neg (by simpa using hp3)]
      exact (wp_pure ..).mpr (hnone (table_cons_none (table_cons_none h3)))
    · rename_i hp3
      have h3 := table_of_present (p := []) rfl (by simpa using hp3)
      rw [wp_bind, wp_is_pl2_present hs h3, wp_ite]
      split
      · rename_i hp2
        have h2 : m.table [index3 v, index4 v] = none := by
          rw [table_cons_some h3, if_neg (by simpa using hp2)]
        exact (wp_pure ..).mpr (hnone (table_cons_none h2))
      · rename_i hp2
        have h2 := table_of_present h3 (by simpa using hp2)
        rw [wp_bind, wp_is_pl1_present hs h2, wp_ite]
        split
        · rename_i hp1
          refine (wp_pure ..).mpr (hnone ?_)
          rw [table_cons_some h2, if_neg (by simpa using hp1)]
        · rename_i hp1
          have h1 := table_of_present h2 (by simpa using hp1)
          rw [wp_bind, wp_is_Memory_Present hs h1, wp_ite]
          split
          · rename_i hp
            refine (wp_pure ..).mpr (habsent ?_)
            rw [walk, pagePath, entry_cons_some h1, Option.bind_some, leafValue, if_neg (by simpa using hp)]
          · rename_i hp
            rw [wp_bind, (slot_pl1 hs v).wp_load h1, wp_bind, (slot_pl1 hs v).wp_store h1, wp_pure]
            exact hpresent _ h1 (by simpa using hp) hperms

/-- What a call of `map_update_page` does. -/
structure UpdatesPage (img : KernelImage) (ok : Set Word → Machine → Prop) (v perms : Word) (status : Status)
    (m m' : Machine) (free : Set Word) : Prop where
  ok : ok free m'
  tree : Tree m'
  tables : ∀ f, IsTable m' f ↔ IsTable m f
  others : ∀ {page : List Index}, PagePath page → page ≠ pagePath v → walk m' page = walk m page
  updated : status = .Ok → permissionsRefused v perms = false ∧
    ∃ e, walk m' (pagePath v) = leafValue (leafEntry e perms)
  failed : status ≠ .Ok → walk m' (pagePath v) = walk m (pagePath v)

theorem updatesPage_failed {perms : Word} {status : Status} (hstatus : status ≠ .Ok) (ht : Tree m) (hok : ok free m) :
    UpdatesPage img ok v perms status m m free :=
  ⟨hok, ht, fun _ => Iff.rfl, fun _ _ => rfl, fun h => absurd h hstatus, fun _ => rfl⟩

theorem updatesPage_store {perms f1 : Word} (hv : index4 v ≠ fractal) (hne : pagePath v ≠ pivotPage img)
    (laws : OkLaws img ok) (ht : Tree m) (hok : ok free m) (h1 : m.table [index2 v, index3 v, index4 v] = some f1)
    (hperms : permissionsRefused v perms = false) (e : Word) :
    UpdatesPage img ok v perms .Ok m { m with mem := setWord m.mem f1 (index1 v) (leafEntry e perms) } free := by
  have hpage := pagePath_of_index4 hv
  have hlen := @pagePath_length v
  have hsame := leafWrite (i := index1 v) ht (pagePath_tail hpage) h1 (leafEntry e perms)
  refine ⟨laws.leaf _ ht hok hpage hne h1, hsame.tree hlen ht, hsame.isTable hlen,
    fun hp hother => hsame.walk hlen hp hother, fun _ => ⟨hperms, e, ?_⟩, fun h => absurd rfl h⟩
  unfold walk pagePath
  rw [leafWrite_entry ht hpage h1]
  rfl

theorem wp_map_update_page {perms : Word} (hv : index4 v ≠ fractal) (hne : pagePath v ≠ pivotPage img)
    (laws : OkLaws img ok) (ht : Tree m) (hok : ok free m) :
    wp (map_update_page v perms) (fun status m' => UpdatesPage img ok v perms status m m' free) E m := by
  refine wp_map_update_page_cases ht.self (fun _ => ?_) (fun _ => ?_) fun f1 h1 _ hperms => ?_
  · exact updatesPage_failed (by decide) ht hok
  · exact updatesPage_failed (by decide) ht hok
  · exact updatesPage_store hv hne laws ht hok h1 hperms _

end KernelOfTruth.PageOps
