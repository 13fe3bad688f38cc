import KernelOfTruth.PageRanges

/-!
# Which frames `unmap_range` frees

`unmap_page` looks whether the three tables above a page are there, but not whether the entry of the page is present.
The address in an entry that is not present is freed like any other.
-/

open KernelOfTruth.Lib KernelOfTruth.Code KernelOfTruth.Spec KernelOfTruth.Window KernelOfTruth.Tables
  KernelOfTruth.Paging KernelOfTruth.MapPage KernelOfTruth.PageOps KernelOfTruth.PageStack
  KernelOfTruth.FreePages KernelOfTruth.PageRanges

namespace KernelOfTruth.Unmapping

variable {img : KernelImage} {m m' : Machine} {virt v : Word} {count : Nat} {push : Word → Word → Word}
  {physical_free : Word → Kernel Machine Unit}

/-- The frames that are passed to `physical_free`. -/
def freeCalls (m : Machine) : Word → Nat → List Word
  | _, 0 => []
  | virt, count + 1 => ((entry m (pagePath virt)).map page_entry_to_phys).toList ++ freeCalls m (virt + Page_Small) count

/-- The entries of all pages but the pivot page and the pages with `touched` are the same. -/
structure KeepsEntries (img : KernelImage) (touched : List Index → Prop) (m m' : Machine) : Prop where
  tree : Tree m'
  entries : ∀ page, PagePath page → page ≠ pivotPage img → ¬ touched page → entry m' page = entry m page

theorem keepsEntries_of_same {except touched : List Index → Prop} (ht : Tree m) (h : SameEntries m m' except)
    (hex : ∀ p, except p → p.length = 4) (hsub : ∀ p, except p → p = pivotPage img ∨ touched p) :
    KeepsEntries img touched m m' := by
  refine ⟨h.tree hex ht, fun page hp hpivot hout => ?_⟩
  cases page with
  | nil => rfl
  | cons i p => exact h.entry hex (pagePath_tail hp) fun he => (hsub _ he).elim hpivot hout

theorem KeepsEntries.trans {m₁ : Machine} {t t' : List Index → Prop} (h : KeepsEntries img t m m₁)
    (h' : KeepsEntries img t' m₁ m') : KeepsEntries img (fun p => t p ∨ t' p) m m' := by
  refine ⟨h'.tree, fun page hp hpivot hout => ?_⟩
  rw [not_or] at hout
  rw [h'.entries page hp hpivot hout.2, h.entries page hp hpivot hout.1]

theorem KeepsEntries.walk {t : List Index → Prop} (h : KeepsEntries img t m m') {page : List Index} (hp : PagePath page)
    (hpivot : page ≠ pivotPage img) (hout : ¬ t page) : walk m' page = walk m page := by
  unfold Spec.walk
  rw [h.entries page hp hpivot hout]

/-- One page: its entry decides what is freed, whether it is present or not. -/
theorem wp_unmap_page_calls (hv : index4 v ≠ fractal) (hrec : Records img push physical_free) (ht : Tree m) :
    wp (unmap_page physical_free v true) (fun _ m' => KeepsEntries img (· = pagePath v) m m' ∧
      walk m' (pagePath v) = none ∧
      m'.physical_page = ((entry m (pagePath v)).map page_entry_to_phys).toList.foldl push m.physical_page)
      (fun _ => False) m := by
  have hpage := pagePath_of_index4 hv
  cases h1 : m.table [index2 v, index3 v, index4 v] with
  | none =>
    rw [wp_unmap_page_absent ht.self h1]
    have hentry : entry m (pagePath v) = none := by simp [entry, pagePath, h1]
    exact ⟨⟨ht, fun _ _ _ _ => rfl⟩, by rw [walk, hentry]; rfl, by rw [hentry]; rfl⟩
  | some f1 =>
    have hentry : entry m (pagePath v) = some (m.mem f1 (index1 v)) := entry_cons_some h1
    rw [wp_unmap_page_free ht.self h1]
    refine wp_imp (hrec m _ ht) ?_
    rintro _ m₁ ⟨hmoved, hpush⟩
    have ht₁ : Tree m₁ := hmoved.same.tree pivotPage_length ht
    have h1₁ := (hmoved.same.table pivotPage_length (pagePath_tail hpage)).trans h1
    have hwrite := leafWrite (i := index1 v) ht₁ (pagePath_tail hpage) h1₁ free_page_entry
    rw [(slot_pl1 ht₁.self v).wp_store h1₁]
    have hmoved' : KeepsEntries img (fun _ => False) m m₁ :=
      keepsEntries_of_same ht hmoved.same pivotPage_length fun p hp => .inl hp
    have hwrite' : KeepsEntries img (· = pagePath v) m₁ _ :=
      keepsEntries_of_same ht₁ hwrite (@pagePath_length v) fun p hp => .inr hp
    refine ⟨⟨hwrite'.tree, fun page hp hpivot hout => ?_⟩, ?_, ?_⟩
    · rw [hwrite'.entries page hp hpivot hout, hmoved'.entries page hp hpivot not_false]
    · unfold walk pagePath
      rw [leafWrite_entry ht₁ hpage h1₁ free_page_entry]
      rfl
    · rw [hentry]
      exact hpush

/-- The calls for the pages of a range depend on the entries of these pages only. -/
theorem freeCalls_congr (h : ∀ i < count, entry m' (pagePath (pageAt virt i)) = entry m (pagePath (pageAt virt i))) :
    freeCalls m' virt count = freeCalls m virt count := by
  induction count generalizing virt with
  | zero => rfl
  | succ count ih =>
    have hfirst := h 0 (by omega)
    rw [pageAt_zero] at hfirst
    rw [freeCalls, freeCalls, hfirst, ih]
    intro i hi
    rw [pageAt_next]
    exact h (i + 1) (by omega)

theorem wp_unmap_range_calls (hav : Avoids img virt count) (hrec : Records img push physical_free) (ht : Tree m) :
    wp (unmap_range physical_free virt count true) (fun _ m' => KeepsEntries img (InRange virt count) m m' ∧
      (∀ page, InRange virt count page → walk m' page = none) ∧
      m'.physical_page = (freeCalls m virt count).foldl push m.physical_page) (fun _ => False) m := by
  induction count generalizing virt m with
  | zero =>
    refine (wp_pure ..).mpr ⟨⟨ht, fun _ _ _ _ => rfl⟩, ?_, rfl⟩
    rintro page ⟨i, hi, -⟩
    omega
  | succ count ih =>
    obtain ⟨hv, hne⟩ := Avoids.first hav
    rw [unmap_range, wp_bind]
    refine wp_imp (wp_unmap_page_calls hv hrec ht) ?_
    rintro _ m₁ ⟨hfirst, hnone, hcall⟩
    refine wp_imp (ih (Avoids.next hav) hfirst.tree) ?_
    rintro _ m' ⟨hrest, hnones, hcalls⟩
    -- the entries of the pages behind the first one are still as they were
    have hsame : freeCalls m₁ (virt + Page_Small) count = freeCalls m (virt + Page_Small) count := by
      refine freeCalls_congr fun i hi => ?_
      obtain ⟨hvi, hnei⟩ := Avoids.next hav i hi
      exact hfirst.entries _ (pagePath_of_index4 hvi) hnei fun heq => Avoids.first_not_later hav ⟨i, hi, heq.symm⟩
    refine ⟨⟨hrest.tree, fun page hp hpivot hout => ?_⟩, fun page hin => ?_, ?_⟩
    · rw [inRange_succ, not_or] at hout
      exact (hfirst.trans hrest).entries page hp hpivot (not_or.mpr hout)
    · rcases inRange_succ.mp hin with rfl | hin
      · rw [hrest.walk (pagePath_of_index4 hv) hne (Avoids.first_not_later hav), hnone]
      · exact hnones page hin
    · rw [hcalls, hsame, hcall, freeCalls, List.foldl_append]

/-! ## When the calls are right -/

/-- Every page of the range whose tables are there is mapped. -/
def AllPresent (m : Machine) (virt : Word) (count : Nat) : Prop :=
  ∀ i < count, ∀ e, entry m (pagePath (pageAt virt i)) = some e → present e

theorem allPresent_succ : AllPresent m virt (count + 1) ↔
    (∀ e, entry m (pagePath virt) = some e → present e) ∧ AllPresent m (virt + Page_Small) count := by
  constructor
  · intro h
    refine ⟨fun e he => h 0 (by omega) e (by rwa [pageAt_zero]), fun i hi e he => h (i + 1) (by omega) e ?_⟩
    rwa [← pageAt_next]
  · rintro ⟨hfirst, hrest⟩ i hi e he
    cases i with
    | zero => exact hfirst e (by rwa [pageAt_zero] at he)
    | succ i => exact hrest i (by omega) e (by rwa [pageAt_next])

/-- What one page adds to the two lists. -/
theorem page_calls (m : Machine) (page : List Index) : (∃ e, entry m page = some e ∧ ¬ present e ∧ walk m page = none) ∨
    ((∀ e, entry m page = some e → present e) ∧
      ((entry m page).map page_entry_to_phys).toList = ((walk m page).map Prod.fst).toList) := by
  cases he : entry m page with
  | none =>
    refine .inr ⟨fun e h => (by cases h), ?_⟩
    rw [walk, he]
    rfl
  | some e =>
    by_cases hpres : present e
    · refine .inr ⟨fun e' h => Option.some.inj h ▸ hpres, ?_⟩
      rw [walk, he]
      simp [leafValue, hpres]
    · refine .inl ⟨e, rfl, hpres, ?_⟩
      rw [walk, he]
      simp [leafValue, hpres]

theorem leafFrames_length_le (m : Machine) (virt : Word) (count : Nat) :
    (leafFrames m virt count).length ≤ (freeCalls m virt count).length := by
  induction count generalizing virt with
  | zero => rfl
  | succ count ih =>
    have hrest := ih (virt + Page_Small)
    rw [leafFrames, freeCalls, List.length_append, List.length_append]
    rcases page_calls m (pagePath virt) with ⟨e, -, -, hnone⟩ | ⟨-, heq⟩
    · rw [hnone]
      simp only [Option.map_none, Option.toList_none, List.length_nil]
      omega
    · rw [heq]
      omega

/-- An entry that is not present makes a call for nothing. -/
theorem leafFrames_length_lt (h : ¬ AllPresent m virt count) :
    (leafFrames m virt count).length < (freeCalls m virt count).length := by
  induction count generalizing virt with
  | zero => exact absurd (fun i hi => absurd hi (by omega)) h
  | succ count ih =>
    have hle := leafFrames_length_le m (virt + Page_Small) count
    rw [leafFrames, freeCalls, List.length_append, List.length_append]
    rcases page_calls m (pagePath virt) with ⟨e, he, -, hnone⟩ | ⟨hfirst, heq⟩
    · rw [hnone, he]
      simp only [Option.map_none, Option.map_some, Option.toList_none, Option.toList_some, List.length_nil,
        List.length_singleton]
      omega
    · have hrest := ih fun hrest => h (allPresent_succ.mpr ⟨hfirst, hrest⟩)
      rw [heq]
      omega

theorem freeCalls_length_le (m : Machine) (virt : Word) (count : Nat) : (freeCalls m virt count).length ≤ count := by
  induction count generalizing virt with
  | zero => rfl
  | succ count ih =>
    have hrest := ih (virt + Page_Small)
    rw [freeCalls, List.length_append]
    cases entry m (pagePath virt) <;> simp <;> omega

theorem freeCalls_of_present (h : AllPresent m virt count) : freeCalls m virt count = leafFrames m virt count := by
  induction count generalizing virt with
  | zero => rfl
  | succ count ih =>
    obtain ⟨hfirst, hrest⟩ := allPresent_succ.mp h
    rw [freeCalls, leafFrames, ih hrest]
    rcases page_calls m (pagePath virt) with ⟨e, he, hpres, -⟩ | ⟨-, heq⟩
    · exact absurd (hfirst e he) hpres
    · rw [heq]

/-- An allocator that counts its calls. -/
def countFree (_ : Word) : Kernel Machine Unit := modify fun m => { m with physical_page := m.physical_page + 1 }

theorem countFree_records (img : KernelImage) : Records img (fun c _ => c + 1) countFree := by
  intro m f _
  rw [countFree, wp_modify]
  exact ⟨⟨⟨rfl, fun _ _ _ => rfl⟩, .inl rfl⟩, rfl⟩

theorem foldl_count (fs : List Word) (c : Word) : fs.foldl (fun c _ => c + 1) c = c + BitVec.ofNat 64 fs.length := by
  induction fs generalizing c with
  | nil => simp
  | cons f fs ih =>
    rw [List.foldl_cons, ih, List.length_cons, Nat.add_comm, BitVec.ofNat_add, BitVec.add_assoc]
    rfl

/-- `linkedMachine` with one page mapped. -/
def onePageMapped : Machine :=
  { linkedMachine with mem := setWord linkedMachine.mem 0x4000 256 (leafEntry 0x5000 Memory_Writable) }

theorem kernelStart_avoids : Avoids linkedImage linkedImage.kernel_start 1 := by
  intro i hi
  obtain rfl : i = 0 := by omega
  decide

end KernelOfTruth.Unmapping
