import KernelOfTruth.Rules
import KernelOfTruth.Spec.File
import KernelOfTruth.Strings
import Mathlib.Data.List.GetD

/-! # Names and paths -/

open KernelOfTruth.Lib KernelOfTruth.Code KernelOfTruth.Spec KernelOfTruth.Rules KernelOfTruth.Strings

namespace KernelOfTruth.Files

variable {σ : Type} {E : Halt → Prop} {s s' : FileState σ} {d : Word}

/-! ## Access to files -/

theorem wp_loadFile {Q : File → FileState σ → Prop} (hd : d ≠ 0) : wp (loadFile d) Q E s ↔ Q (s.files d) s := by
  unfold loadFile
  rw [if_neg hd, wp_bind, wp_get, wp_pure]

theorem wp_modifyFile {f : File → File} {Q : Unit → FileState σ → Prop} (hd : d ≠ 0) :
    wp (modifyFile d f) Q E s ↔ Q () { s with files := Function.update s.files d (f (s.files d)) } := by
  unfold modifyFile
  rw [if_neg hd]
  exact wp_modify ..

theorem wp_onHeap {α : Type} {p : Kernel (HeapState σ) α} {Q : α → FileState σ → Prop} :
    wp (onHeap p) Q E s ↔ wp p (fun a h => Q a { s with heap := h }) E s.heap :=
  wp_zoom ..

theorem wp_onMem {α : Type} {h : HeapState σ} {p : Kernel Memory α} {Q : α → HeapState σ → Prop} :
    wp (onMem p) Q E h ↔ wp p (fun a m => Q a { h with mem := m }) E h.mem :=
  wp_zoom ..

theorem wp_loadChild {children i : Word} {k : Nat} {Q : Word → FileState σ → Prop} (hi : BitVec.ofNat 64 k = i)
    (hmapped : Mapped s.heap.mem (pointerSlot children k) 8) :
    wp (loadChild children i) Q E s ↔ Q (wordAt s.heap.mem 8 (pointerSlot children k)) s := by
  subst hi
  unfold loadChild
  rw [wp_onHeap, wp_onMem, wp_load]
  exact guarded_of hmapped

/-! ## Counts of references -/

theorem sameTables_refl (s : FileState σ) : SameTables s s := ⟨rfl, fun d => ⟨(s.files d).obj, rfl⟩⟩

theorem sameTables_trans {s'' : FileState σ} (h : SameTables s s') (h' : SameTables s' s'') : SameTables s s'' := by
  refine ⟨h'.heap.trans h.heap, fun d => ?_⟩
  obtain ⟨obj, hobj⟩ := h.files d
  obtain ⟨obj', hobj'⟩ := h'.files d
  exact ⟨obj', by rw [hobj', hobj]⟩

theorem sameTables_update (s : FileState σ) (d : Word) (obj : Object) :
    SameTables s { s with files := Function.update s.files d { s.files d with obj := obj } } := by
  refine ⟨rfl, fun d' => ?_⟩
  by_cases hd : d' = d
  · subst hd
    exact ⟨obj, Function.update_self ..⟩
  · exact ⟨(s.files d').obj, Function.update_of_ne hd ..⟩

theorem wp_retainFile {Q : Unit → FileState σ → Prop} (hd : d ≠ 0) (h : ∀ s', SameTables s s' → Q () s') :
    wp (retainFile d) Q E s := by
  unfold retainFile
  rw [wp_modifyFile hd]
  exact h _ (sameTables_update ..)

section Same

variable (h : SameTables s s')
include h

theorem name_same (c : Word) : (s'.files c).name = (s.files c).name := by
  obtain ⟨obj, hobj⟩ := h.files c
  rw [hobj]

theorem childrenOf_same (d : Word) : childrenOf s' d = childrenOf s d := by
  obtain ⟨obj, hobj⟩ := h.files d
  unfold childrenOf
  rw [h.heap, hobj]

theorem listed_same (hlisted : Listed s d) : Listed s' d := by
  refine ⟨?_, by rw [childrenOf_same h]; exact hlisted.nonnull⟩
  obtain ⟨obj, hobj⟩ := h.files d
  rw [h.heap, hobj]
  exact hlisted.mapped

theorem childNamed_same (d : Word) (text : List Byte) (n : Nat) : childNamed s' d text n = childNamed s d text n := by
  unfold childNamed
  simp only [childrenOf_same h, name_same h]

end Same

/-! ## The search for a child -/

theorem childrenOf_length (s : FileState σ) (d : Word) : (childrenOf s d).length = (s.files d).child_count.toNat := by
  rw [childrenOf, List.length_map, List.length_range]

theorem childrenOf_drop {i : Nat} (hi : i < (s.files d).child_count.toNat) : (childrenOf s d).drop i =
    wordAt s.heap.mem 8 (pointerSlot (s.files d).children i) :: (childrenOf s d).drop (i + 1) := by
  rw [List.drop_eq_getElem_cons (by rw [childrenOf_length]; exact hi)]
  simp only [childrenOf, List.getElem_map, List.getElem_range]

theorem ofNat_succ (i : Nat) : BitVec.ofNat 64 i + 1 = BitVec.ofNat 64 (i + 1) := (BitVec.ofNat_add i 1).symm

theorem wp_findChildLoop {text : List Byte} {n left i : Nat} (hd : d ≠ 0) (hlisted : Listed s d)
    (hi : i + left = (s.files d).child_count.toNat) :
    wp (findChildLoop d (constant text) n left (BitVec.ofNat 64 i))
      (fun r s' => r = (((childrenOf s d).drop i).find? fun c =>
        SameText (fun k => text.getD k 0) (fun k => (s.files c).name.getD k 0) n).getD 0 ∧ SameTables s s') E s := by
  induction left generalizing i with
  | zero =>
    rw [findChildLoop, wp_pure, List.drop_eq_nil_of_le (by rw [childrenOf_length]; omega)]
    exact ⟨rfl, sameTables_refl s⟩
  | succ left ih =>
    have hlt : i < (s.files d).child_count.toNat := by omega
    have hchild := childrenOf_drop hlt
    have hne : wordAt s.heap.mem 8 (pointerSlot (s.files d).children i) ≠ 0 :=
      hlisted.nonnull _ (List.mem_of_mem_drop (hchild ▸ List.mem_cons_self))
    rw [findChildLoop, wp_bind, wp_loadFile hd, wp_bind, wp_loadChild rfl (hlisted.mapped i hlt), wp_bind, wp_loadFile hne,
      strncmp, strncmpLoop_constant, pure_bind, hchild, List.find?_cons]
    simp only [strncmpValue_zero]
    split
    · rename_i hsame
      rw [decide_eq_true hsame, wp_bind]
      exact wp_retainFile hne fun s' hs' => (wp_pure ..).mpr ⟨rfl, hs'⟩
    · rename_i hdiffers
      rw [decide_eq_false hdiffers, ofNat_succ]
      exact ih (by omega)

theorem wp_file_find_child_named {text : List Byte} {n : Nat} (hd : d ≠ 0) (hlisted : Listed s d) :
    wp (file_find_child_named d (constant text) n) (fun r s' => r = childNamed s d text n ∧ SameTables s s') E s := by
  unfold file_find_child_named
  rw [wp_bind, wp_assert_decide hd, wp_bind, wp_loadFile hd]
  exact wp_findChildLoop (i := 0) hd hlisted (Nat.zero_add _)

theorem childNamed_mem {text : List Byte} {n : Nat} (h : childNamed s d text n ≠ 0) :
    childNamed s d text n ∈ childrenOf s d := by
  unfold childNamed at h ⊢
  cases hfind : (childrenOf s d).find? _ with
  | none => exact absurd (by rw [hfind]; rfl) h
  | some c =>
    rw [Option.getD_some]
    exact List.mem_of_find?_eq_some hfind

/-! ## The walk along a path -/

theorem wp_fromPathLoop {path rest : List Byte} {i start : Nat} {t : FileState σ} (hsame : SameTables s t) (hd : d ≠ 0)
    (hlisted : ∀ d', Below s d d' → Listed s d') :
    wp (fromPathLoop path rest i start d) (fun r s' => r = targetFrom s path rest i start d ∧ SameTables s s') E t := by
  induction rest generalizing i start d t with
  | nil => exact (wp_pure ..).mpr ⟨rfl, hsame⟩
  | cons c rest ih =>
    unfold fromPathLoop targetFrom
    by_cases hnul : c = 0
    · rw [if_pos hnul, if_pos hnul, wp_pure]
      exact ⟨rfl, hsame⟩
    rw [if_neg hnul, if_neg hnul]
    by_cases hslash : c = slash
    · rw [if_pos hslash, if_pos hslash, wp_bind]
      refine wp_imp (wp_file_find_child_named hd (listed_same hsame (hlisted d .refl))) ?_
      rintro child t' ⟨hchild, ht'⟩
      rw [childNamed_same hsame] at hchild
      rw [← hchild]
      by_cases hnone : child = 0
      · rw [if_pos hnone, if_pos hnone, wp_pure]
        exact ⟨rfl, sameTables_trans hsame ht'⟩
      · rw [if_neg hnone, if_neg hnone]
        have hmem : child ∈ childrenOf s d := by
          rw [hchild]
          exact childNamed_mem (hchild ▸ hnone)
        exact ih (sameTables_trans hsame ht') hnone fun d' hd' => hlisted d' (.head hmem hd')
    · rw [if_neg hslash, if_neg hslash]
      exact ih hsame hd hlisted

theorem wp_file_from_path {Root : Word} {path : List Byte} (hroot : Root ≠ 0) (hlisted : ∀ d, Below s Root d → Listed s d) :
    wp (file_from_path Root path) (fun r s' => r = pathTarget s Root path ∧ SameTables s s') E s :=
  wp_fromPathLoop (sameTables_refl s) hroot hlisted

/-! ## Where a path of names leads -/

section Names

variable {Root : Word} {path name rest : List Byte}

/-- No character of the text means anything to the walk. -/
def Plain (text : List Byte) : Prop := ∀ x ∈ text, x ≠ 0 ∧ x ≠ slash

theorem plain_of_valid (hname : ValidName name) : Plain name :=
  fun _ hx => ⟨fun h => hname.no_nul (h ▸ hx), fun h => hname.no_slash (h ▸ hx)⟩

theorem targetFrom_plain {i start : Nat} {c : Word} (hname : Plain name) :
    targetFrom s path (name ++ rest) i start c = targetFrom s path rest (i + name.length) start c := by
  induction name generalizing i with
  | nil => rfl
  | cons x name ih =>
    obtain ⟨hnul, hslash⟩ := hname x List.mem_cons_self
    rw [List.cons_append, targetFrom, if_neg hnul, if_neg hslash, ih fun y hy => hname y (List.mem_cons_of_mem _ hy),
      List.length_cons]
    congr 1
    omega

/-- The comparison of no characters fits every name. -/
theorem childNamed_zero (d : Word) (text : List Byte) : childNamed s d text 0 = (childrenOf s d).head?.getD 0 := by
  have hall : ∀ f g : Nat → Byte, SameText f g 0 := fun f g k hk => absurd hk (Nat.not_lt_zero k)
  unfold childNamed
  cases childrenOf s d with
  | nil => rfl
  | cons c cs => rw [List.find?_cons_of_pos (by simp only [hall, decide_true])]; rfl

/-- A name has no slash, so that none is the same as a text with one. -/
theorem childNamed_slash {n : Nat} (hvalid : ∀ c ∈ childrenOf s d, ValidName (s.files c).name) (hname : ValidName name)
    (hn : name.length < n) : childNamed s d (name ++ slash :: rest) n = 0 := by
  unfold childNamed
  rw [List.find?_eq_none.mpr]
  · rfl
  intro c hc
  simp only [decide_eq_true_eq]
  intro hsame
  have hat := hsame name.length hn fun j hj => by
    show (name ++ slash :: rest).getD j 0 ≠ 0
    rw [List.getD_append _ _ _ _ hj, List.getD_eq_getElem _ _ hj]
    exact fun h => hname.no_nul (h ▸ List.getElem_mem hj)
  change (name ++ slash :: rest).getD name.length 0 = (s.files c).name.getD name.length 0 at hat
  rw [List.getD_append_right _ _ _ _ le_rfl, Nat.sub_self, List.getD_cons_zero] at hat
  by_cases hlt : name.length < (s.files c).name.length
  · rw [List.getD_eq_getElem _ _ hlt] at hat
    exact (hvalid c hc).no_slash (hat ▸ List.getElem_mem hlt)
  · rw [List.getD_eq_default _ _ (by omega)] at hat
    exact absurd hat (by decide)

/-- The length that the second slash gives to the comparison. -/
theorem length_wraps {k : Nat} (hpos : 0 < k) (hlt : k < 2 ^ 63) :
    k < (BitVec.ofNat 64 1 - BitVec.ofNat 64 (1 + k)).toNat := by
  rw [BitVec.toNat_sub, BitVec.toNat_ofNat, BitVec.toNat_ofNat]
  omega

theorem pathTarget_slash (hlisted : Listed s Root) : pathTarget s Root (slash :: rest) =
    (childrenOf s Root).head?.elim 0 fun c => targetFrom s (slash :: rest) rest 1 1 c := by
  rw [pathTarget, targetFrom, if_neg (by decide), if_pos rfl, BitVec.sub_self, show (0#64).toNat = 0 from rfl,
    List.drop_zero, childNamed_zero]
  cases hchildren : childrenOf s Root with
  | nil => rfl
  | cons c cs =>
    rw [List.head?_cons, Option.getD_some, Option.elim_some]
    exact if_neg (hlisted.nonnull c (hchildren ▸ List.mem_cons_self))

/-- The only slash is the first character. -/
theorem pathTarget_one (hlisted : Listed s Root) (hname : Plain name) :
    pathTarget s Root (slash :: name) = (childrenOf s Root).head?.getD 0 := by
  rw [pathTarget_slash hlisted]
  cases (childrenOf s Root).head? with
  | none => rfl
  | some c =>
    have hend : targetFrom s (slash :: name) (name ++ []) 1 1 c = c := targetFrom_plain hname
    rw [List.append_nil] at hend
    exact hend

/-- The second slash ends the search. -/
theorem pathTarget_two (htree : IsTree s Root) (hname : ValidName name) (hlen : name.length < 2 ^ 63) :
    pathTarget s Root (slash :: (name ++ slash :: rest)) = 0 := by
  rw [pathTarget_slash (htree.listed Root .refl)]
  cases hchildren : childrenOf s Root with
  | nil => rfl
  | cons c cs =>
    have hbelow : Below s Root c := .single (hchildren ▸ List.mem_cons_self)
    have hnone : childNamed s c (name ++ slash :: rest) (BitVec.ofNat 64 1 - BitVec.ofNat 64 (1 + name.length)).toNat = 0 :=
      childNamed_slash (htree.valid c hbelow) hname (length_wraps (List.length_pos_iff.mpr hname.nonempty) hlen)
    rw [List.head?_cons, Option.elim_some, targetFrom_plain (plain_of_valid hname), targetFrom, if_neg (by decide),
      if_pos rfl, List.drop_one, List.tail_cons, hnone]
    exact if_pos rfl

theorem pathText_cons (names : List (List Byte)) (trailing : Bool) :
    pathText (name :: names) trailing = slash :: (name ++ pathText names trailing) := by
  simp [pathText]

/-- Behind a name there is nothing, or a slash. -/
theorem pathText_cases (names : List (List Byte)) (trailing : Bool) :
    (names = [] ∧ trailing = false) ∨ ((names ≠ [] ∨ trailing = true) ∧ ∃ rest, pathText names trailing = slash :: rest) := by
  cases names with
  | nil =>
    cases trailing with
    | false => exact .inl ⟨rfl, rfl⟩
    | true => exact .inr ⟨.inr rfl, [], rfl⟩
  | cons name names => exact .inr ⟨.inl (List.cons_ne_nil _ _), _, pathText_cons names trailing⟩

end Names

section Tree

variable {Root : Word} {name : List Byte} {names : List (List Byte)} {trailing : Bool}

theorem resolve_ne_zero (htree : IsTree s Root) {x : Word} (hd : d ≠ 0) (hbelow : Below s Root d)
    (h : resolve s d names = some x) : x ≠ 0 := by
  induction names generalizing d with
  | nil =>
    cases h
    exact hd
  | cons name names ih =>
    obtain ⟨c, hfind, hrest⟩ := Option.bind_eq_some_iff.mp h
    have hmem := List.mem_of_find?_eq_some hfind
    exact ih ((htree.listed d hbelow).nonnull c hmem) (hbelow.tail hmem) hrest

theorem first_child_eq_iff (hlisted : Listed s Root) :
    (childrenOf s Root).head?.getD 0 = (resolve s Root [name]).getD 0 ↔
      ∀ c ∈ (childrenOf s Root).head?, (s.files c).name = name := by
  have hone : resolve s Root [name] = (childrenOf s Root).find? fun c => (s.files c).name = name := by
    exact Option.bind_fun_some _
  rw [hone]
  cases hchildren : childrenOf s Root with
  | nil => simp
  | cons c cs =>
    have hne : c ≠ 0 := hlisted.nonnull c (hchildren ▸ List.mem_cons_self)
    simp only [List.head?_cons, Option.getD_some, Option.mem_def, Option.some_inj, forall_eq']
    constructor
    · intro h
      by_contra hother
      rw [List.find?_cons_of_neg (by simpa using hother)] at h
      cases hfind : cs.find? fun c => (s.files c).name = name with
      | none => exact hne (by rw [h, hfind]; rfl)
      | some c' =>
        rw [hfind, Option.getD_some] at h
        exact hother (by simpa [← h] using List.find?_some hfind)
    · intro hname
      rw [List.find?_cons_of_pos (by simpa using hname), Option.getD_some]

theorem findsRight_cons (h : names ≠ [] ∨ trailing = true) :
    FindsRight s Root (name :: names) trailing ↔ resolve s Root (name :: names) = none := by
  cases names with
  | nil =>
    rw [h.resolve_left (fun h => h rfl)]
    exact Iff.rfl
  | cons _ _ => exact Iff.rfl

/-- The search with the wrong lengths comes to the right file in these cases only. -/
theorem target_eq_iff (htree : IsTree s Root) (hnames : ∀ name ∈ names, ValidName name)
    (hlen : (pathText names trailing).length < 2 ^ 63) :
    pathTarget s Root (pathText names trailing) = (resolve s Root names).getD 0 ↔ FindsRight s Root names trailing := by
  have hlisted := htree.listed Root .refl
  cases names with
  | nil =>
    cases trailing with
    | false => exact iff_of_true rfl rfl
    | true =>
      refine iff_of_false (fun h => ?_) Bool.noConfusion
      change pathTarget s Root (slash :: []) = Root at h
      rw [pathTarget_one hlisted fun x hx => absurd hx List.not_mem_nil] at h
      cases hchildren : childrenOf s Root with
      | nil =>
        rw [hchildren] at h
        exact htree.root h.symm
      | cons c cs =>
        rw [hchildren] at h
        exact htree.root_no_child Root .refl (hchildren ▸ (show c = Root from h) ▸ List.mem_cons_self)
  | cons name names =>
    have hname := hnames name List.mem_cons_self
    rw [pathText_cons] at hlen ⊢
    rcases pathText_cases names trailing with ⟨rfl, rfl⟩ | ⟨hmore, rest, hrest⟩
    · -- one name and one slash
      rw [show pathText [] false = [] from rfl, List.append_nil, pathTarget_one hlisted (plain_of_valid hname)]
      exact first_child_eq_iff hlisted
    · -- two slashes or more
      rw [hrest] at hlen ⊢
      rw [pathTarget_two htree hname (by simp only [List.length_cons, List.length_append] at hlen; omega),
        findsRight_cons hmore]
      cases hresolve : resolve s Root (name :: names) with
      | none => exact iff_of_true rfl rfl
      | some x =>
        refine iff_of_false (fun h => ?_) (Option.some_ne_none x)
        exact resolve_ne_zero htree htree.root .refl hresolve h.symm

/-- A path is a text in memory, so that differences of pointers into it have a sign. -/
theorem file_from_path_right_iff (htree : IsTree s Root) (hnames : ∀ name ∈ names, ValidName name)
    (hlen : (pathText names trailing).length < 2 ^ 63) :
    wp (file_from_path Root (pathText names trailing)) (fun r _ => r = (resolve s Root names).getD 0) (fun _ => False) s ↔
      FindsRight s Root names trailing := by
  rw [← target_eq_iff htree hnames hlen]
  have hfound : wp (file_from_path Root (pathText names trailing))
      (fun r s' => r = pathTarget s Root (pathText names trailing) ∧ SameTables s s') (fun _ => False) s :=
    wp_file_from_path htree.root htree.listed
  constructor
  · intro h
    obtain ⟨r, s', hrun, htarget, -⟩ := wp_total hfound
    have hr := wp_ok h hrun
    exact htarget.symm.trans hr
  · intro h
    exact wp_imp hfound fun r _ hr => hr.1.trans h

end Tree

/-! ## A tree with one directory -/

/-- `Root` at `0x1000` has the child `dev` at `0x2000`. -/
def devTree : FileState Unit where
  heap := ⟨(), imageAt 0x5000 [0, 0x20, 0, 0, 0, 0, 0, 0], 0, 0, 0, 0⟩
  files d :=
    if d = 0x1000 then ⟨[], 0, 1, 1, 0x5000, ⟨1, 0⟩⟩
    else if d = 0x2000 then ⟨ascii "dev", 0x1000, 0, 0, 0, ⟨1, 0⟩⟩
    else ⟨[], 0, 0, 0, 0, ⟨0, 0⟩⟩
  freed := []

theorem devTree_root : childrenOf devTree 0x1000 = [0x2000] := by decide +kernel

theorem devTree_dev : childrenOf devTree 0x2000 = [] := rfl

theorem devTree_below {d : Word} (h : Below devTree 0x1000 d) : d = 0x1000 ∨ d = 0x2000 := by
  induction h with
  | refl => exact .inl rfl
  | tail _ hmem ih =>
    rcases ih with rfl | rfl
    · rw [devTree_root] at hmem
      exact .inr (List.mem_singleton.mp hmem)
    · rw [devTree_dev] at hmem
      exact absurd hmem List.not_mem_nil

theorem dev_valid : ValidName (ascii "dev") := ⟨by decide, by decide, by decide⟩

theorem devTree_isTree : IsTree devTree 0x1000 := by
  refine ⟨by decide, ?_, ?_, ?_, ?_⟩ <;> intro d hbelow <;> rcases devTree_below hbelow with rfl | rfl
  · rw [devTree_root]; decide
  · rw [devTree_dev]; exact List.not_mem_nil
  · refine ⟨?_, ?_⟩
    · show ∀ i < 1, ∀ k < 8, (devTree.heap.mem (pointerSlot 0x5000 i + BitVec.ofNat 64 k)).isSome
      decide +kernel
    · rw [devTree_root]
      intro c hc
      rw [List.mem_singleton.mp hc]
      decide
  · exact ⟨fun i hi => absurd hi (Nat.not_lt_zero i), by rw [devTree_dev]; exact fun c hc => absurd hc List.not_mem_nil⟩
  · rw [devTree_root]
    intro c hc
    rw [List.mem_singleton.mp hc]
    exact dev_valid
  · rw [devTree_dev]
    exact fun c hc => absurd hc List.not_mem_nil
  · rw [devTree_root]; exact List.nodup_singleton _
  · rw [devTree_dev]; exact List.nodup_nil

theorem devTree_finds_dev : wp (file_from_path 0x1000 (pathText [ascii "dev"] false))
    (fun r _ => r = (resolve devTree 0x1000 [ascii "dev"]).getD 0) (fun _ => False) devTree := by
  refine (file_from_path_right_iff devTree_isTree ?_ (by decide)).mpr ?_
  · intro name hname
    rw [List.mem_singleton.mp hname]
    exact dev_valid
  · show ∀ c ∈ (childrenOf devTree 0x1000).head?, (devTree.files c).name = ascii "dev"
    rw [devTree_root]
    intro c hc
    rw [← Option.some_inj.mp hc]
    rfl

/-- `/dev/` is there, and is not found. -/
theorem devTree_misses_dev : IsTree devTree 0x1000 ∧ resolve devTree 0x1000 [ascii "dev"] = some 0x2000 ∧
    (file_from_path 0x1000 (pathText [ascii "dev"] true)).run' devTree = .ok 0 := by
  refine ⟨devTree_isTree, ?_, ?_⟩
  · decide +kernel
  · rfl

end KernelOfTruth.Files
