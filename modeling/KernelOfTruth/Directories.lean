import KernelOfTruth.Files
import KernelOfTruth.Realloc

/-! # Directories keep their children -/

open KernelOfTruth.Lib KernelOfTruth.Code KernelOfTruth.Spec KernelOfTruth.Rules KernelOfTruth.Strings KernelOfTruth.Regions
  KernelOfTruth.Heap KernelOfTruth.HeapRuns KernelOfTruth.Realloc KernelOfTruth.Files

namespace KernelOfTruth.Directories

variable {σ : Type} {E F : Halt → Prop} {Own : σ → Nodes → Prop} {s s' : FileState σ} {live : Multiset Block}
  {free : Multiset Region} {d c : Word}

/-! ## The invariant -/

/-- Every directory has room for its children in an array of its own. -/
structure DirsOk (Own : σ → Nodes → Prop) (s : FileState σ) (live : Multiset Block) (free : Multiset Region) : Prop where
  heap : HeapInv Own s.heap live free
  tables : ∀ d ≠ 0, TableOk live (s.files d)
  apart : ∀ d ≠ 0, ∀ d' ≠ 0, d ≠ d' → (s.files d).children ≠ 0 → (s.files d).children ≠ (s.files d').children
  nonnull : ∀ d ≠ 0, ∀ c ∈ childrenOf s d, c ≠ 0

def WellFormed (Own : σ → Nodes → Prop) (s : FileState σ) : Prop := ∃ live free, DirsOk Own s live free

/-- The array of a directory that has one. -/
theorem DirsOk.array (h : DirsOk Own s live free) (hd : d ≠ 0) (hpos : 0 < (s.files d).child_capacity.toNat) :
    ∃ b ∈ live, b.ptr = (s.files d).children ∧ b.bytes.toNat = 8 * (s.files d).child_capacity.toNat := by
  rcases (h.tables d hd).room with ⟨hzero, -⟩ | hroom
  · rw [hzero] at hpos
    exact absurd hpos (Nat.lt_irrefl 0)
  · exact hroom

theorem DirsOk.slot_mapped (h : DirsOk Own s live free) (hd : d ≠ 0) {i : Nat}
    (hi : i < (s.files d).child_capacity.toNat) : Mapped s.heap.mem (pointerSlot (s.files d).children i) 8 := by
  obtain ⟨b, hb, hptr, hbytes⟩ := h.array hd (by omega)
  have hmapped := mapped_block h.heap hb
  rw [hptr, hbytes] at hmapped
  exact Strings.slot_mapped hi hmapped

theorem DirsOk.listed (h : DirsOk Own s live free) (hd : d ≠ 0) : Listed s d :=
  ⟨fun _ hi => h.slot_mapped hd (lt_of_lt_of_le hi (h.tables d hd).count_le), h.nonnull d hd⟩

theorem DirsOk.listed_below (h : DirsOk Own s live free) (hd : d ≠ 0) {d' : Word} (hbelow : Below s d d') : Listed s d' := by
  refine h.listed ?_
  induction hbelow with
  | refl => exact hd
  | tail _ hmem ih => exact h.nonnull _ ih _ hmem

theorem DirsOk.same (h : DirsOk Own s live free) (hsame : SameTables s s') : DirsOk Own s' live free := by
  refine ⟨hsame.heap ▸ h.heap, fun d hd => ?_, fun d hd d' hd' => ?_, fun d hd => ?_⟩
  · obtain ⟨obj, hobj⟩ := hsame.files d
    rw [hobj]
    exact ⟨(h.tables d hd).count_le, (h.tables d hd).room⟩
  · obtain ⟨obj, hobj⟩ := hsame.files d
    obtain ⟨obj', hobj'⟩ := hsame.files d'
    rw [hobj, hobj']
    exact h.apart d hd d' hd'
  · rw [childrenOf_same hsame]
    exact h.nonnull d hd

/-! ## A store into an array -/

/-- What a file says of its children. -/
def table (f : File) : Word × Word × Word := (f.child_capacity, f.child_count, f.children)

theorem table_eq {f g : File} (h : table f = table g) :
    f.child_capacity = g.child_capacity ∧ f.child_count = g.child_count ∧ f.children = g.children := by
  simpa [table] using h

/-- The state after `children[k] = c` in the directory `d`, where the number of children may change too. -/
structure Written (s s' : FileState σ) (d : Word) (k : Nat) (c : Word) : Prop where
  inside : k < (s.files d).child_capacity.toNat
  heap : s'.heap = { s.heap with mem := stored s.heap.mem 8 (pointerSlot (s.files d).children k) c }
  capacity : (s'.files d).child_capacity = (s.files d).child_capacity
  children : (s'.files d).children = (s.files d).children
  others : ∀ d' ≠ d, table (s'.files d') = table (s.files d')

section Store

variable {k : Nat}

/-- The slots of all arrays but the one that is written keep their values. -/
theorem Written.kept (hw : Written s s' d k c) (h : DirsOk Own s live free) (hd : d ≠ 0) {d' : Word} (hd' : d' ≠ 0) {i : Nat}
    (hi : i < (s.files d').child_capacity.toNat) (hne : d' ≠ d ∨ i ≠ k) :
    wordAt s'.heap.mem 8 (pointerSlot (s.files d').children i) = wordAt s.heap.mem 8 (pointerSlot (s.files d').children i) := by
  have hk := hw.inside
  obtain ⟨b, hb, hptr, hbytes⟩ := h.array hd (by omega)
  have hb64 := bytes_le h.heap hb
  rw [show Heap_Size.toNat = 65536 from rfl] at hb64
  rw [hw.heap]
  refine wordAt_congr (by decide) fun x hx => stored_of_not_covers ?_
  by_cases hsame : d' = d
  · subst hsame
    exact slots_apart hi hk (by omega) (hne.resolve_left (fun h => h rfl)) hx
  · obtain ⟨b', hb', hptr', hbytes'⟩ := h.array hd' (by omega)
    have hb64' := bytes_le h.heap hb'
    rw [show Heap_Size.toNat = 65536 from rfl] at hb64'
    have hapart : b.ptr ≠ b'.ptr := by
      rw [hptr, hptr']
      exact h.apart d hd d' hd' (Ne.symm hsame) (hptr ▸ ptr_ne_zero h.heap hb)
    have hcovers : Covers b'.ptr b'.bytes.toNat x := by
      rw [hptr', hbytes']
      exact slot_covers hi (by omega) hx
    intro hslot
    refine blocks_apart h.heap hb' hb hapart hcovers ?_
    rw [hptr, hbytes]
    exact slot_covers hk (by omega) hslot

theorem Written.value (hw : Written s s' d k c) : wordAt s'.heap.mem 8 (pointerSlot (s.files d).children k) = c := by
  rw [hw.heap]
  exact wordAt_stored ..

theorem Written.childrenOf_others (hw : Written s s' d k c) (h : DirsOk Own s live free) (hd : d ≠ 0) {d' : Word} (hd' : d' ≠ 0)
    (hne : d' ≠ d) : childrenOf s' d' = childrenOf s d' := by
  obtain ⟨-, hcount, hchildren⟩ := table_eq (hw.others d' hne)
  unfold childrenOf
  rw [hcount, hchildren]
  refine List.map_congr_left fun i hi => hw.kept h hd hd' ?_ (.inl hne)
  exact lt_of_lt_of_le (List.mem_range.mp hi) (h.tables d' hd').count_le

/-- The directories are in order again, once the new list of children is. -/
theorem Written.dirsOk (hw : Written s s' d k c) (h : DirsOk Own s live free) (hd : d ≠ 0)
    (hcount : (s'.files d).child_count.toNat ≤ (s.files d).child_capacity.toNat) (hnonnull : ∀ x ∈ childrenOf s' d, x ≠ 0) :
    DirsOk Own s' live free := by
  have hk := hw.inside
  obtain ⟨b, hb, hptr, hbytes⟩ := h.array hd (by omega)
  have hb64 := bytes_le h.heap hb
  rw [show Heap_Size.toNat = 65536 from rfl] at hb64
  have hchildren : ∀ d', (s'.files d').children = (s.files d').children := by
    intro d'
    by_cases hd' : d' = d
    · rw [hd', hw.children]
    · exact (table_eq (hw.others d' hd')).2.2
  refine ⟨?_, fun d' hd' => ?_, fun d₁ hd₁ d₂ hd₂ => ?_, fun d' hd' => ?_⟩
  · rw [hw.heap]
    refine write_block h.heap hb (fun x hx => isSome_stored hx) fun x hx => stored_of_not_covers fun hslot => hx ?_
    rw [hptr, hbytes]
    exact slot_covers hk (by omega) hslot
  · by_cases hsame : d' = d
    · subst hsame
      refine ⟨by rw [hw.capacity]; exact hcount, ?_⟩
      rw [hw.capacity, hw.children]
      exact (h.tables d' hd').room
    · obtain ⟨hcap, hcnt, hch⟩ := table_eq (hw.others d' hsame)
      refine ⟨by rw [hcap, hcnt]; exact (h.tables d' hd').count_le, ?_⟩
      rw [hcap, hch]
      exact (h.tables d' hd').room
  · rw [hchildren, hchildren]
    exact h.apart d₁ hd₁ d₂ hd₂
  · by_cases hsame : d' = d
    · exact hsame ▸ hnonnull
    · rw [hw.childrenOf_others h hd hd' hsame]
      exact h.nonnull d' hd'

end Store

/-! ## `file_attach` -/

theorem wp_storeChild {children child i : Word} {k : Nat} {Q : Unit → FileState σ → Prop} (hi : BitVec.ofNat 64 k = i)
    (hmapped : Mapped s.heap.mem (pointerSlot children k) 8) : wp (storeChild children i child) Q E s ↔
      Q () { s with heap := { s.heap with mem := stored s.heap.mem 8 (pointerSlot children k) child } } := by
  subst hi
  unfold storeChild
  rw [wp_onHeap, wp_onMem, wp_store (by decide)]
  exact guarded_of hmapped

theorem ofNat_toNat (w : Word) : BitVec.ofNat 64 w.toNat = w := by rw [BitVec.ofNat_toNat, BitVec.setWidth_eq]

theorem toNat_succ {w w' : Word} (h : w.toNat < w'.toNat) : (w + 1).toNat = w.toNat + 1 := by
  have hlt := w'.isLt
  rw [BitVec.toNat_add, show (1 : Word).toNat = 1 from rfl]
  omega

/-- The files at the end of `attachChild`, where the child may be the directory itself. -/
theorem attached_files (files : Word → File) (d c : Word) :
    let counted := Function.update files d { files d with child_count := (files d).child_count + 1 }
    let placed := Function.update counted c { counted c with parent := d }
    let files' := Function.update placed d { placed d with obj := (placed d).obj.object_retain }
    table (files' d) = ((files d).child_capacity, (files d).child_count + 1, (files d).children) ∧
      (files' c).parent = d ∧ ∀ d' ≠ d, table (files' d') = table (files d') := by
  intro counted placed files'
  by_cases hcd : c = d
  · subst hcd
    refine ⟨by simp [files', placed, counted, table], by simp [files', placed], fun d' hd' => ?_⟩
    simp [files', placed, counted, hd']
  · refine ⟨by simp [files', placed, counted, table, Ne.symm hcd], by simp [files', placed, hcd], fun d' hd' => ?_⟩
    by_cases hdc : d' = c
    · simp [files', placed, counted, hdc, hcd, table]
    · simp [files', placed, counted, hd', hdc]

theorem attached_written (h : DirsOk Own s live free) (hd : d ≠ 0) (hc : c ≠ 0)
    (hw : Written s s' d (s.files d).child_count.toNat c)
    (hcount : (s'.files d).child_count = (s.files d).child_count + 1) (hparent : (s'.files c).parent = d) :
    DirsOk Own s' live free ∧ Attached s s' d c := by
  have hsucc := toNat_succ hw.inside
  have hadded : childrenOf s' d = childrenOf s d ++ [c] := by
    unfold childrenOf
    rw [hcount, hsucc, hw.children, List.range_succ, List.map_append, List.map_singleton, hw.value]
    congr 1
    refine List.map_congr_left fun i hi => ?_
    have hi := List.mem_range.mp hi
    exact hw.kept h hd hd (lt_trans hi hw.inside) (.inr hi.ne)
  refine ⟨hw.dirsOk h hd (by rw [hcount, hsucc]; exact hw.inside) fun x hx => ?_,
    hadded, hparent, fun d' hd' hne => hw.childrenOf_others h hd hd' hne⟩
  rw [hadded, List.mem_append, List.mem_singleton] at hx
  rcases hx with hx | rfl
  · exact h.nonnull d hd x hx
  · exact hc

theorem wp_attachChild (h : DirsOk Own s live free) (hd : d ≠ 0) (hc : c ≠ 0)
    (hroom : (s.files d).child_count.toNat < (s.files d).child_capacity.toNat) :
    wp (attachChild d c) (fun status s' => status = .Ok ∧ DirsOk Own s' live free ∧ Attached s s' d c) E s := by
  unfold attachChild
  rw [wp_bind, wp_loadFile hd, wp_bind, wp_storeChild (ofNat_toNat _) (h.slot_mapped hd hroom), wp_bind, wp_modifyFile hd,
    wp_bind, wp_modifyFile hc, wp_bind, retainFile, wp_modifyFile hd, wp_pure]
  obtain ⟨htable, hparent, hothers⟩ := attached_files s.files d c
  simp only [table, Prod.mk.injEq] at htable
  exact ⟨rfl, attached_written h hd hc ⟨hroom, rfl, htable.1, htable.2.2, hothers⟩ htable.2.1 hparent⟩

/-! ### A larger array -/

/-- The state after the directory has moved to a larger array. -/
structure Grown (s s' : FileState σ) (d p : Word) : Prop where
  capacity : (s'.files d).child_capacity.toNat = (s.files d).child_capacity.toNat + 10
  count : (s'.files d).child_count = (s.files d).child_count
  children : (s'.files d).children = p
  others : ∀ d' ≠ d, table (s'.files d') = table (s.files d')

section Grow

variable {b : Block} {p size : Word}

theorem Grown.childrenOf_eq (hg : Grown s s' d p) (h : DirsOk Own s live free)
    (hptr : b.ptr = (s.files d).children) (hbytes : b.bytes.toNat = 8 * (s.files d).child_capacity.toNat)
    (hsize : size.toNat = 8 * ((s.files d).child_capacity.toNat + 10))
    (hmoved : Moved Own s.heap s'.heap live b p size) (hd : d ≠ 0) {d' : Word} (hd' : d' ≠ 0) :
    childrenOf s' d' = childrenOf s d' := by
  obtain ⟨free', hheap⟩ := hmoved.heap
  unfold childrenOf
  by_cases hsame : d' = d
  · subst hsame
    rw [hg.count, hg.children]
    refine List.map_congr_left fun i hi => wordAt_moved fun k hk => ?_
    have hi := lt_of_lt_of_le (List.mem_range.mp hi) (h.tables d' hd').count_le
    rw [pointerSlot_eq, pointerSlot_eq, BitVec.add_assoc, BitVec.add_assoc, ← BitVec.ofNat_add, ← hptr]
    exact hmoved.bytes _ (by omega) (by omega)
  · obtain ⟨-, hcount, hchildren⟩ := table_eq (hg.others d' hsame)
    rw [hcount, hchildren]
    refine List.map_congr_left fun i hi => wordAt_congr (by decide) fun x hx => hmoved.outside x ?_
    have hi := lt_of_lt_of_le (List.mem_range.mp hi) (h.tables d' hd').count_le
    obtain ⟨b', hb', hptr', hbytes'⟩ := h.array hd' (by omega)
    have hb64' := bytes_le h.heap hb'
    rw [show Heap_Size.toNat = 65536 from rfl] at hb64'
    have hcovers : Covers b'.ptr b'.bytes.toNat x := by
      rw [hptr', hbytes']
      exact slot_covers hi (by omega) hx
    exact blocks_apart hheap (Multiset.mem_cons_of_mem hb') (Multiset.mem_cons_self _ _) (new_ptr_ne hheap hb').symm hcovers

/-- No directory has the new array already. -/
theorem children_ne_new (h : DirsOk Own s live free) {new : Block} {h' : HeapState σ} {free' : Multiset Region}
    (hheap : HeapInv Own h' (new ::ₘ live) free') {d' : Word} (hd' : d' ≠ 0) : (s.files d').children ≠ new.ptr := by
  rcases (h.tables d' hd').room with ⟨-, hzero⟩ | ⟨b', hb', hptr', -⟩
  · rw [hzero]
    exact (ptr_ne_zero hheap (Multiset.mem_cons_self _ _)).symm
  · rw [← hptr']
    exact new_ptr_ne hheap hb'

theorem Grown.dirsOk (hg : Grown s s' d p) (h : DirsOk Own s live free)
    (hptr : b.ptr = (s.files d).children) (hbytes : b.bytes.toNat = 8 * (s.files d).child_capacity.toNat)
    (hsize : size.toNat = 8 * ((s.files d).child_capacity.toNat + 10))
    (hmoved : Moved Own s.heap s'.heap live b p size) (hd : d ≠ 0) :
    ∃ free', DirsOk Own s' (⟨p, size⟩ ::ₘ live) free' := by
  obtain ⟨free', hheap⟩ := hmoved.heap
  have hnew : ∀ d' ≠ 0, (s.files d').children ≠ p := fun d' hd' => children_ne_new h hheap hd'
  refine ⟨free', hheap, fun d' hd' => ?_, fun d₁ hd₁ d₂ hd₂ hne => ?_, fun d' hd' => ?_⟩
  · by_cases hsame : d' = d
    · subst hsame
      refine ⟨?_, .inr ⟨_, Multiset.mem_cons_self _ _, hg.children.symm, by rw [hg.capacity]; exact hsize⟩⟩
      rw [hg.capacity, hg.count]
      exact (h.tables d' hd').count_le.trans (Nat.le_add_right _ _)
    · obtain ⟨hcap, hcount, hchildren⟩ := table_eq (hg.others d' hsame)
      obtain ⟨hle, hroom⟩ := h.tables d' hd'
      refine ⟨by rw [hcap, hcount]; exact hle, ?_⟩
      rw [hcap, hchildren]
      exact hroom.imp_right fun ⟨b', hb', hb''⟩ => ⟨b', Multiset.mem_cons_of_mem hb', hb''⟩
  · have hother : ∀ d' ≠ d, (s'.files d').children = (s.files d').children :=
      fun d' hd' => (table_eq (hg.others d' hd')).2.2
    by_cases h₁ : d₁ = d
    · subst h₁
      rw [hg.children, hother d₂ hne.symm]
      exact fun _ => (hnew d₂ hd₂).symm
    · by_cases h₂ : d₂ = d
      · subst h₂
        rw [hg.children, hother d₁ h₁]
        exact fun _ => hnew d₁ hd₁
      · rw [hother d₁ h₁, hother d₂ h₂]
        exact h.apart d₁ hd₁ d₂ hd₂ hne
  · rw [hg.childrenOf_eq h hptr hbytes hsize hmoved hd hd']
    exact h.nonnull d' hd'

theorem grown_files (h h' : HeapState σ) (files : Word → File) (freed : List Word) (d p : Word)
    (hcap : ((files d).child_capacity + 10).toNat = (files d).child_capacity.toNat + 10) :
    let raised := Function.update files d { files d with child_capacity := (files d).child_capacity + 10 }
    Grown ⟨h, files, freed⟩ ⟨h', Function.update raised d { raised d with children := p }, freed⟩ d p := by
  intro raised
  refine ⟨by simpa only [raised, Function.update_self] using hcap, by simp [raised], by simp, fun d' hd' => ?_⟩
  simp [raised, hd']

end Grow

section Attach

variable {nodes : NodeStore σ} {slab_alloc_locked : Word → Word → Kernel σ Word}
  {slab_free_locked : Word → Word → Kernel σ Unit}

theorem attached_of_eq {t : FileState σ} (hsame : ∀ d' ≠ 0, childrenOf t d' = childrenOf s d') (hd : d ≠ 0)
    (h : Attached t s' d c) : Attached s s' d c :=
  ⟨by rw [h.added, hsame d hd], h.parent, fun d' hd' hne => by rw [h.others d' hd' hne, hsame d' hd']⟩

theorem wp_file_attach (laws : StoreLaws nodes Own) (hpages : PageLaws slab_alloc_locked slab_free_locked Own F)
    (h : DirsOk Own s live free) (hd : d ≠ 0) (hc : c ≠ 0)
    (hserved : file_name_is_valid (s.files c).name = .Ok → CanAttach nodes slab_alloc_locked s d) :
    wp (file_attach nodes slab_alloc_locked d c)
      (fun status s' => WellFormed Own s' ∧ (status = .Ok → Attached s s' d c) ∧ (status ≠ .Ok → s' = s) ∧
        (file_name_is_valid (s.files c).name = .Ok → status = .Ok)) E s := by
  unfold file_attach
  rw [wp_bind, wp_assert_decide hd, wp_bind, wp_assert_decide hc, wp_bind, wp_loadFile hc]
  by_cases hname : file_name_is_valid (s.files c).name = .Ok
  swap
  · rw [if_pos hname, wp_pure]
    exact ⟨⟨live, free, h⟩, fun hok => absurd hok hname, fun _ => rfl, fun hok => absurd hok hname⟩
  rw [if_neg (not_not.mpr hname), wp_bind, wp_loadFile hd]
  by_cases hfull : (s.files d).child_capacity = (s.files d).child_count
  · rw [if_pos hfull, wp_bind, wp_modifyFile hd, wp_bind, wp_onHeap]
    rcases hserved hname with hroom | ⟨hchildren, hmapped, p, h', hrun, hp⟩
    · rw [hfull] at hroom
      exact absurd hroom (lt_irrefl _)
    rcases (h.tables d hd).room with ⟨-, hzero⟩ | ⟨b, hb, hptr, hbytes⟩
    · exact absurd hzero hchildren
    have hb64 := bytes_le h.heap hb
    rw [show Heap_Size.toNat = 65536 from rfl] at hb64
    have hcap : ((s.files d).child_capacity + 10).toNat = (s.files d).child_capacity.toNat + 10 := by
      rw [BitVec.toNat_add, show (10 : Word).toNat = 10 from rfl]
      omega
    have hsize : (((s.files d).child_capacity + 10) * pointerSize).toNat = 8 * ((s.files d).child_capacity.toNat + 10) := by
      rw [BitVec.toNat_mul, hcap, show pointerSize.toNat = 8 from rfl]
      omega
    have hrealloc := wp_krealloc (E := E) laws hpages h.heap hb (by omega) hrun hp (hptr ▸ hmapped)
    rw [hptr] at hrealloc
    refine wp_imp hrealloc ?_
    rintro q h'' ⟨rfl, hmoved⟩
    rw [if_neg hp, wp_bind, wp_modifyFile hd]
    have hg := grown_files s.heap h'' s.files s.freed d q hcap
    obtain ⟨free', hgrown⟩ := hg.dirsOk h hptr hbytes hsize hmoved hd
    refine wp_imp (wp_attachChild hgrown hd hc ?_) ?_
    · rw [hg.count, hg.capacity, ← hfull]
      exact Nat.lt_add_of_pos_right (by decide)
    · rintro status s' ⟨rfl, hok, hattached⟩
      refine ⟨⟨_, _, hok⟩, fun _ => ?_, fun hne => absurd rfl hne, fun _ => rfl⟩
      exact attached_of_eq (fun d' hd' => hg.childrenOf_eq h hptr hbytes hsize hmoved hd hd') hd hattached
  · rw [if_neg hfull]
    have hle := (h.tables d hd).count_le
    have hne : (s.files d).child_count.toNat ≠ (s.files d).child_capacity.toNat :=
      fun heq => hfull (BitVec.eq_of_toNat_eq heq.symm)
    refine wp_imp (wp_attachChild h hd hc (by omega)) ?_
    rintro status s' ⟨rfl, hok, hattached⟩
    exact ⟨⟨_, _, hok⟩, fun _ => hattached, fun hne => absurd rfl hne, fun _ => rfl⟩

end Attach

/-! ## `file_detach` -/

theorem wp_releaseFile {Q : Unit → FileState σ → Prop} (hd : d ≠ 0) (h : ∀ s', SameTables s s' → Q () s') :
    wp (releaseFile d) Q E s := by
  unfold releaseFile
  rw [wp_bind, wp_loadFile hd, wp_bind, wp_modifyFile hd]
  have hsame := sameTables_update s d (s.files d).obj.object_release.1
  split
  · rw [wp_modify]
    exact h _ ⟨hsame.heap, hsame.files⟩
  · exact (wp_pure ..).mpr (h _ hsame)

theorem map_range_set {α : Type} (f : Nat → α) (n i : Nat) (v : α) :
    ((List.range n).map fun j => if j = i then v else f j) = ((List.range n).map f).set i v := by
  refine List.ext_getElem (by simp) fun j h _ => ?_
  simp only [List.getElem_map, List.getElem_range, List.getElem_set]
  by_cases hj : i = j
  · simp [hj]
  · simp [hj, Ne.symm hj]

/-- The last entry takes the place of the entry number `i`. -/
theorem cons_set_perm {α : Type} {D : List α} {last c : α} {i : Nat} (hc : (D ++ [last])[i]? = some c) :
    (c :: D.set i last).Perm (D ++ [last]) := by
  rcases lt_trichotomy i D.length with hlt | heq | hgt
  · rw [List.getElem?_append_left hlt, List.getElem?_eq_getElem hlt, Option.some_inj] at hc
    calc (c :: D.set i last).Perm (c :: last :: D.eraseIdx i) := (List.set_perm_cons_eraseIdx hlt last).cons c
      _ |>.Perm (last :: c :: D.eraseIdx i) := List.Perm.swap _ _ _
      _ |>.Perm (last :: D) := (hc ▸ List.getElem_cons_eraseIdx_perm hlt).cons last
      _ |>.Perm (D ++ [last]) := (List.perm_append_singleton last D).symm
  · subst heq
    rw [List.getElem?_append_right le_rfl, Nat.sub_self, List.getElem?_cons_zero, Option.some_inj] at hc
    rw [← hc, List.set_eq_of_length_le le_rfl]
    exact (List.perm_append_singleton last D).symm
  · rw [List.getElem?_eq_none (by simp; omega)] at hc
    cases hc

section Detach

/-- The children after the last one has taken the place of number `i`. -/
theorem detached_written {i : Nat} {last : Word} (h : DirsOk Own s live free) (hd : d ≠ 0)
    (hi : i < (s.files d).child_count.toNat) (hvalue : wordAt s.heap.mem 8 (pointerSlot (s.files d).children i) = c)
    (hlast : wordAt s.heap.mem 8 (pointerSlot (s.files d).children ((s.files d).child_count.toNat - 1)) = last)
    (hw : Written s s' d i last) (hcount : (s'.files d).child_count.toNat = (s.files d).child_count.toNat - 1) :
    DirsOk Own s' live free ∧ Detached s s' d c := by
  have hle := (h.tables d hd).count_le
  let f := fun j => wordAt s.heap.mem 8 (pointerSlot (s.files d).children j)
  let D := (List.range ((s.files d).child_count.toNat - 1)).map f
  have hold : childrenOf s d = D ++ [last] := by
    rw [childrenOf, show (s.files d).child_count.toNat = (s.files d).child_count.toNat - 1 + 1 by omega, List.range_succ,
      List.map_append, List.map_singleton, hlast]
  have hnew : childrenOf s' d = D.set i last := by
    rw [← map_range_set, childrenOf, hcount, hw.children]
    refine List.map_congr_left fun j hj => ?_
    have hj := List.mem_range.mp hj
    split
    · rename_i heq
      rw [heq]
      exact hw.value
    · rename_i hne
      exact hw.kept h hd hd (by omega) (.inr hne)
  have hat : (D ++ [last])[i]? = some c := by
    rw [← hold, childrenOf, List.getElem?_map, List.getElem?_range hi, Option.map_some, hvalue]
  obtain ⟨hmem, hperm⟩ := List.cons_perm_iff_perm_erase.mp (cons_set_perm hat)
  refine ⟨hw.dirsOk h hd (by omega) fun x hx => ?_, ?_, ?_, fun d' hd' hne => hw.childrenOf_others h hd hd' hne⟩
  · rw [hnew] at hx
    refine h.nonnull d hd x ?_
    rw [hold]
    exact List.mem_of_mem_erase (hperm.mem_iff.mp hx)
  · rw [hold]
    exact hmem
  · rw [hnew, hold]
    exact hperm

theorem shrunk_written (s : FileState σ) {i : Nat} (last : Word) (hi : i < (s.files d).child_capacity.toNat) :
    Written s ⟨{ s.heap with mem := stored s.heap.mem 8 (pointerSlot (s.files d).children i) last },
      Function.update s.files d { s.files d with child_count := (s.files d).child_count - 1 }, s.freed⟩ d i last :=
  ⟨hi, rfl, by simp, by simp, fun d' hd' => by simp [hd']⟩

theorem detached_same {t : FileState σ} (h : Detached s s' d c) (hsame : SameTables s' t) : Detached s t d c :=
  ⟨h.present, by rw [childrenOf_same hsame]; exact h.removed, fun d' hd' hne => by
    rw [childrenOf_same hsame]; exact h.others d' hd' hne⟩

theorem wp_detachLoop {left i : Nat} (h : DirsOk Own s live free) (hd : d ≠ 0)
    (hi : i + left = (s.files d).child_count.toNat) :
    wp (detachLoop d c left (BitVec.ofNat 64 i))
      (fun status s' => DirsOk Own s' live free ∧ if status = .Ok then Detached s s' d c else s' = s) E s := by
  induction left generalizing i with
  | zero => exact (wp_pure ..).mpr ⟨h, rfl⟩
  | succ left ih =>
    have hle := (h.tables d hd).count_le
    have hlt : i < (s.files d).child_capacity.toNat := by omega
    have hprev : ((s.files d).child_count - 1).toNat = (s.files d).child_count.toNat - 1 :=
      BitVec.toNat_sub_of_le (by rw [BitVec.le_def, show (1 : Word).toNat = 1 from rfl]; omega)
    have hindex : BitVec.ofNat 64 ((s.files d).child_count.toNat - 1) = (s.files d).child_count - 1 := by
      rw [← hprev]
      exact ofNat_toNat _
    rw [detachLoop, wp_bind, wp_loadFile hd, wp_bind, wp_loadChild rfl (h.slot_mapped hd hlt)]
    split
    · rename_i hvalue
      rw [wp_bind, wp_modifyFile hd, wp_bind]
      refine (wp_loadChild hindex ?lastMapped).mpr ?_
      case lastMapped => exact h.slot_mapped hd (by omega)
      rw [wp_bind]
      refine (wp_storeChild rfl ?slotMapped).mpr ?_
      case slotMapped => exact h.slot_mapped hd hlt
      rw [wp_bind]
      refine wp_releaseFile hd fun t hsame => ?_
      rw [wp_pure]
      obtain ⟨hok, hdetached⟩ := detached_written h hd (by omega) hvalue rfl (shrunk_written s _ hlt)
        (by simpa only [Function.update_self] using hprev)
      exact ⟨hok.same hsame, detached_same hdetached hsame⟩
    · rw [ofNat_succ]
      exact ih (by omega)

theorem wp_file_detach (h : DirsOk Own s live free) (hd : d ≠ 0) (hc : c ≠ 0) :
    wp (file_detach d c)
      (fun status s' => DirsOk Own s' live free ∧ if status = .Ok then Detached s s' d c else s' = s) E s := by
  unfold file_detach
  rw [wp_bind, wp_assert_decide hd, wp_bind, wp_assert_decide hc, wp_bind, wp_loadFile hd]
  exact wp_detachLoop (i := 0) h hd (Nat.zero_add _)

end Detach

/-! ## `file_attach_path` -/

section Calls

variable {nodes : NodeStore σ} {slab_alloc_locked : Word → Word → Kernel σ Word}
  {slab_free_locked : Word → Word → Kernel σ Unit} {Root : Word}

theorem attached_same {t : FileState σ} (h : Attached s s' d c) (hsame : SameTables s' t) : Attached s t d c := by
  refine ⟨by rw [childrenOf_same hsame]; exact h.added, ?_, fun d' hd' hne => ?_⟩
  · obtain ⟨obj, hobj⟩ := hsame.files c
    rw [hobj]
    exact h.parent
  · rw [childrenOf_same hsame]
    exact h.others d' hd' hne

theorem canAttach_same (h : CanAttach nodes slab_alloc_locked s d) (hsame : SameTables s s') :
    CanAttach nodes slab_alloc_locked s' d := by
  obtain ⟨obj, hobj⟩ := hsame.files d
  unfold CanAttach
  rw [hsame.heap, hobj]
  exact h

theorem wp_file_attach_path (laws : StoreLaws nodes Own) (hpages : PageLaws slab_alloc_locked slab_free_locked Own F)
    (h : DirsOk Own s live free) (hroot : Root ≠ 0) {path : List Byte} (hc : c ≠ 0)
    (hserved : (FileOp.attach_path path c).Served nodes slab_alloc_locked Root s) :
    wp (file_attach_path nodes slab_alloc_locked Root path c)
      (fun status s' => WellFormed Own s' ∧ (FileOp.attach_path path c).Right status s s') E s := by
  unfold file_attach_path
  rw [wp_bind]
  refine wp_imp (wp_file_from_path hroot fun d hbelow => h.listed_below hroot hbelow) ?_
  rintro parent t ⟨rfl, hsame⟩
  by_cases hnone : pathTarget s Root path = 0
  · rw [if_pos hnone, wp_pure]
    exact ⟨⟨_, _, h.same hsame⟩, hsame⟩
  · rw [if_neg hnone, wp_bind]
    obtain ⟨hname, hroom⟩ := hserved hnone
    rw [← name_same hsame c] at hname
    refine wp_imp (wp_file_attach laws hpages (h.same hsame) hnone hc fun _ => canAttach_same hroom hsame) ?_
    rintro status t' ⟨⟨live', free', hok⟩, hattached, -, hvalid⟩
    rw [wp_bind]
    refine wp_releaseFile hnone fun t'' hsame' => ?_
    rw [wp_pure]
    refine ⟨⟨_, _, hok.same hsame'⟩, pathTarget s Root path, ?_⟩
    have hattached := attached_same (hattached (hvalid hname)) hsame'
    exact attached_of_eq (fun d' _ => childrenOf_same hsame d') hnone hattached

/-! ## Runs -/

/-- One call keeps the directories in order, and does what its status says. -/
theorem wp_call (laws : StoreLaws nodes Own) (hpages : PageLaws slab_alloc_locked slab_free_locked Own F)
    (hroot : Root ≠ 0) {op : FileOp} (h : WellFormed Own s) (hop : op.NonNull)
    (hserved : op.Served nodes slab_alloc_locked Root s) :
    wp (op.call nodes slab_alloc_locked Root) (fun status s' => WellFormed Own s' ∧ op.Right status s s') E s := by
  obtain ⟨live, free, h⟩ := h
  cases op with
  | attach parent child =>
    refine wp_imp (wp_file_attach laws hpages h hop.1 hop.2 hserved) ?_
    rintro status s' ⟨hok, hattached, hsame, -⟩
    refine ⟨hok, ?_⟩
    show if status = .Ok then Attached s s' parent child else s' = s
    split
    · exact hattached (by assumption)
    · exact hsame (by assumption)
  | detach parent child =>
    exact wp_imp (wp_file_detach h hop.1 hop.2) fun status s' hs' => ⟨⟨_, _, hs'.1⟩, hs'.2⟩
  | attach_path path child => exact wp_file_attach_path laws hpages h hroot hop hserved

/-- The states that calls come to. Between two of them the rest of the kernel may use the heap, but not the arrays of the
directories. -/
inductive FileRun (nodes : NodeStore σ) (slab_alloc_locked : Word → Word → Kernel σ Word) (Own : σ → Nodes → Prop)
    (Root : Word) (s₀ : FileState σ) : FileState σ → Prop
  | start : FileRun nodes slab_alloc_locked Own Root s₀ s₀
  | call {s s' : FileState σ} {op : FileOp} {status : Status} (h : FileRun nodes slab_alloc_locked Own Root s₀ s)
    (hop : op.NonNull) (hserved : op.Served nodes slab_alloc_locked Root s)
    (hrun : (op.call nodes slab_alloc_locked Root).run s = .ok (status, s')) : FileRun nodes slab_alloc_locked Own Root s₀ s'
  | other {s : FileState σ} {heap : HeapState σ} (h : FileRun nodes slab_alloc_locked Own Root s₀ s)
    (hheap : WellFormed Own { s with heap := heap })
    (hsame : ∀ d ≠ 0, childrenOf { s with heap := heap } d = childrenOf s d) :
    FileRun nodes slab_alloc_locked Own Root s₀ { s with heap := heap }

theorem run_wellFormed (laws : StoreLaws nodes Own) (hpages : PageLaws slab_alloc_locked slab_free_locked Own F)
    (hroot : Root ≠ 0) {s₀ : FileState σ} (hstart : WellFormed Own s₀)
    (hrun : FileRun nodes slab_alloc_locked Own Root s₀ s) : WellFormed Own s := by
  induction hrun with
  | start => exact hstart
  | call _ hop hserved hrun ih => exact (wp_ok (wp_call (E := fun _ => True) laws hpages hroot ih hop hserved) hrun).1
  | other _ hheap _ _ => exact hheap

/-- From directories in order, and so from empty ones too, every run of calls that are served keeps them in order. -/
theorem directories_well_formed (laws : StoreLaws nodes Own)
    (hpages : PageLaws slab_alloc_locked slab_free_locked Own F) (hroot : Root ≠ 0) {s₀ : FileState σ}
    (hstart : WellFormed Own s₀) (hrun : FileRun nodes slab_alloc_locked Own Root s₀ s) :
    WellFormed Own s ∧ ∀ op : FileOp, op.NonNull → op.Served nodes slab_alloc_locked Root s →
      ∃ status s', (op.call nodes slab_alloc_locked Root).run s = .ok (status, s') ∧ op.Right status s s' := by
  have h := run_wellFormed laws hpages hroot hstart hrun
  refine ⟨h, fun op hop hserved => ?_⟩
  obtain ⟨status, s', hcall, -, hright⟩ := wp_total (wp_call laws hpages hroot h hop hserved)
  exact ⟨status, s', hcall, hright⟩

end Calls

/-! ## A directory with an array, and one without -/

/-- The file at `0x3000` has an array for 10 children, the one at `0x5000` has none, and the one at `0x4000` has a name. -/
def devDirs : FileState PageMemory where
  heap := oneBlockHeap
  files d :=
    if d = 0x3000 then ⟨[], 0, 10, 0, 0x100008, ⟨1, 0⟩⟩
    else if d = 0x4000 then ⟨ascii "dev", 0, 0, 0, 0, ⟨1, 0⟩⟩
    else ⟨[], 0, 0, 0, 0, ⟨1, 0⟩⟩
  freed := []

theorem devDirs_children (d : Word) : (devDirs.files d).child_count = 0 ∧
    (d ≠ 0x3000 → (devDirs.files d).child_capacity = 0 ∧ (devDirs.files d).children = 0) := by
  unfold devDirs
  dsimp only
  split
  · exact ⟨rfl, fun h => absurd (by assumption) h⟩
  · split <;> exact ⟨rfl, fun _ => ⟨rfl, rfl⟩⟩

theorem devDirs_wellFormed : WellFormed PageMemory.Own devDirs := by
  refine ⟨_, _, oneBlockHeap_inv, fun d _ => ?_, fun d _ d' _ hne hchildren => ?_, fun d _ c hc => ?_⟩
  · refine ⟨by rw [(devDirs_children d).1]; exact Nat.zero_le _, ?_⟩
    by_cases hd : d = 0x3000
    · subst hd
      exact .inr ⟨_, Multiset.mem_singleton_self _, rfl, rfl⟩
    · exact .inl ((devDirs_children d).2 hd)
  · by_cases hd : d = 0x3000
    · rw [((devDirs_children d').2 fun hd' => hne (hd.trans hd'.symm)).2]
      exact hchildren
    · exact absurd ((devDirs_children d).2 hd).2 hchildren
  · rw [childrenOf, (devDirs_children d).1] at hc
    exact absurd hc List.not_mem_nil

theorem devDirs_attach : WellFormed PageMemory.Own devDirs ∧
    ∃ status s', (file_attach pageStore takeSpare 0x3000 0x4000).run devDirs = .ok (status, s') ∧
      (FileOp.attach 0x3000 0x4000).Right status devDirs s' := by
  have hrun : FileRun pageStore takeSpare PageMemory.Own 0x3000 devDirs devDirs := .start
  obtain ⟨h, hcalls⟩ := directories_well_formed pageStore_laws spare_laws (by decide) devDirs_wellFormed hrun
  refine ⟨h, hcalls (.attach 0x3000 0x4000) ⟨by decide, by decide⟩ fun _ => .inl ?_⟩
  decide

/-- The first child of an empty directory is refused, and the capacity that is left behind has no array. -/
theorem empty_directory_attach : (devDirs.files 0x5000).child_capacity = 0 ∧ (devDirs.files 0x5000).children = 0 ∧
    wp (file_attach pageStore takeSpare 0x5000 0x4000)
      (fun status s' => status = .Error_No_Memory ∧ (s'.files 0x5000).child_capacity = 10 ∧ (s'.files 0x5000).children = 0)
      (fun _ => False) devDirs :=
  ⟨rfl, rfl, (wp_of_run rfl).mpr ⟨rfl, rfl, rfl⟩⟩

end KernelOfTruth.Directories
