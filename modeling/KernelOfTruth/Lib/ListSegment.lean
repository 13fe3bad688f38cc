import KernelOfTruth.Lib.Bag
import Mathlib.Algebra.BigOperators.Group.Multiset.Basic
import Mathlib.Algebra.Order.Group.Multiset
import Mathlib.Tactic.Abel

/-!
# Linked lists in a store of nodes

A store is a partial map from addresses to nodes, and `next` gives the address of the node after a node.
`Segment N a as b` says that one gets from `a` to `b` by `next` through exactly the nodes `as`. A list
that ends with `null` is a segment to `null`.
-/

namespace KernelOfTruth.Lib

variable {α β γ : Type} {next : β → α} {null : α}

def Segment (next : β → α) (null : α) (N : α → Option β) : α → List α → α → Prop
  | a, [], b => a = b
  | a, x :: xs, b => a = x ∧ a ≠ null ∧ ∃ v, N a = some v ∧ Segment next null N (next v) xs b

variable {N N' : α → Option β}

theorem segment_append {a c : α} {xs ys : List α} :
    Segment next null N a (xs ++ ys) c ↔ ∃ b, Segment next null N a xs b ∧ Segment next null N b ys c := by
  induction xs generalizing a with
  | nil => simp [Segment]
  | cons x xs ih =>
    simp only [List.cons_append, Segment, ih]
    constructor
    · rintro ⟨hx, hne, v, hv, b, hl, hr⟩
      exact ⟨b, ⟨hx, hne, v, hv, hl⟩, hr⟩
    · rintro ⟨b, ⟨hx, hne, v, hv, hl⟩, hr⟩
      exact ⟨hx, hne, v, hv, b, hl, hr⟩

theorem segment_unique {a : α} {xs ys : List α} (hx : Segment next null N a xs null)
    (hy : Segment next null N a ys null) : xs = ys := by
  induction xs generalizing a ys with
  | nil =>
    obtain rfl : a = null := hx
    cases ys with
    | nil => rfl
    | cons y ys => exact absurd rfl hy.2.1
  | cons x xs ih =>
    obtain ⟨rfl, hne, v, hv, hrest⟩ := hx
    cases ys with
    | nil => exact absurd hy hne
    | cons y ys =>
      obtain ⟨rfl, -, w, hw, hrest'⟩ := hy
      rw [hv] at hw
      cases hw
      rw [ih hrest hrest']

/-- Only the links of the nodes on the way matter. -/
theorem segment_congr {a b : α} {as : List α} (h : Segment next null N a as b)
    (heq : ∀ x ∈ as, ∀ v, N x = some v → ∃ w, N' x = some w ∧ next w = next v) :
    Segment next null N' a as b := by
  induction as generalizing a with
  | nil => exact h
  | cons x as ih =>
    obtain ⟨rfl, hne, v, hv, hrest⟩ := h
    obtain ⟨w, hw, hnext⟩ := heq a (by simp) v hv
    refine ⟨rfl, hne, w, hw, ?_⟩
    rw [hnext]
    exact ih hrest fun y hy => heq y (by simp [hy])

theorem segment_node {a b : α} {as : List α} (h : Segment next null N a as b) {x : α} (hx : x ∈ as) :
    x ≠ null ∧ ∃ v, N x = some v := by
  induction as generalizing a with
  | nil => cases hx
  | cons y as ih =>
    obtain ⟨rfl, hne, v, hv, hrest⟩ := h
    rcases List.mem_cons.mp hx with rfl | hx
    · exact ⟨hne, v, hv⟩
    · exact ih hrest hx

/-- What the nodes of a list hold together. -/
def contents (held : β → Multiset γ) (N : α → Option β) (as : List α) : Multiset γ :=
  (as.map fun a => (N a).elim 0 held).sum

variable {held : β → Multiset γ}

@[simp] theorem contents_nil : contents held N ([] : List α) = 0 := rfl

@[simp] theorem contents_cons (a : α) (as : List α) :
    contents held N (a :: as) = (N a).elim 0 held + contents held N as := by
  simp [contents]

@[simp] theorem contents_append (as bs : List α) :
    contents held N (as ++ bs) = contents held N as + contents held N bs := by
  simp [contents]

theorem contents_congr {as : List α} (h : ∀ a ∈ as, N' a = N a) : contents held N' as = contents held N as := by
  unfold contents
  congr 1
  refine List.map_congr_left fun a ha => ?_
  rw [h a ha]

theorem mem_contents {as : List α} {x : γ} :
    x ∈ contents held N as ↔ ∃ a ∈ as, ∃ v, N a = some v ∧ x ∈ held v := by
  induction as with
  | nil => simp
  | cons a as ih =>
    rw [contents_cons, Multiset.mem_add, ih]
    cases hN : N a with
    | none => simp [hN]
    | some v => simp [hN]

theorem not_mem_of_nodup {x : α} {l r : List α} (h : (l ++ x :: r).Nodup) : x ∉ l ∧ x ∉ r := by
  obtain ⟨-, hx, hne⟩ := List.nodup_append.mp h
  exact ⟨fun hb => hne x hb x (by simp) rfl, (List.nodup_cons.mp hx).1⟩

section Update

variable [DecidableEq α]

theorem update_of_mem {a x : α} {as : List α} (ha : a ∉ as) (hx : x ∈ as) (v : Option β) :
    Function.update N a v x = N x :=
  Function.update_of_ne (fun h => ha (by rw [← h]; exact hx)) _ _

/-- One node is changed, and not its link. -/
theorem segment_update {a b x : α} {as : List α} {v w : β} (h : Segment next null N a as b)
    (hv : N x = some v) (hnext : next w = next v) :
    Segment next null (Function.update N x (some w)) a as b := by
  refine segment_congr h fun y _ u hu => ?_
  by_cases hy : y = x
  · subst hy
    rw [hv] at hu
    cases hu
    exact ⟨w, Function.update_self .., hnext⟩
  · exact ⟨u, by rw [Function.update_of_ne hy, hu], rfl⟩

variable (held) in
/-- What one node gains, with `x` on the other side, the whole list gains. -/
theorem contents_update {x : α} {as : List α} {v w : β} {l r : Multiset γ} (hnodup : as.Nodup) (hx : x ∈ as)
    (hv : N x = some v) (hbal : l + held w = r + held v) :
    l + contents held (Function.update N x (some w)) as = r + contents held N as := by
  obtain ⟨bs, cs, rfl⟩ := List.append_of_mem hx
  obtain ⟨hbs, hcs⟩ := not_mem_of_nodup hnodup
  have hb : contents held (Function.update N x (some w)) bs = contents held N bs :=
    contents_congr fun a ha => update_of_mem hbs ha _
  have hc : contents held (Function.update N x (some w)) cs = contents held N cs :=
    contents_congr fun a ha => update_of_mem hcs ha _
  simp only [contents_append, contents_cons, Function.update_self, hv, Option.elim_some, hb, hc]
  calc l + (contents held N bs + (held w + contents held N cs))
      = l + held w + (contents held N bs + contents held N cs) := by abel
    _ = r + held v + (contents held N bs + contents held N cs) := by rw [hbal]
    _ = r + (contents held N bs + (held v + contents held N cs)) := by abel

/-- A fresh node `q` is linked after the last node `p`. -/
theorem segment_extend {a p q : α} {xs : List α} {u u' w : β}
    (h : Segment next null N a (xs ++ [p]) null) (hnodup : (xs ++ [p]).Nodup) (hp : N p = some u)
    (hq : N q = none) (hne : q ≠ null) (hu : next u' = q) (hw : next w = null) :
    Segment next null (Function.update (Function.update N p (some u')) q (some w)) a (xs ++ [p, q]) null := by
  have hqp : p ≠ q := by
    rintro rfl
    rw [hp] at hq
    cases hq
  obtain ⟨b, hxs, hb⟩ := segment_append.mp h
  obtain ⟨rfl, hb0, -⟩ := hb
  refine segment_append.mpr ⟨b, segment_congr hxs fun x hx v hv => ⟨v, ?_, rfl⟩, rfl, hb0, u', ?_, hu, ?_⟩
  · have hxq : x ≠ q := by
      rintro rfl
      rw [hq] at hv
      cases hv
    rw [Function.update_of_ne hxq, update_of_mem (not_mem_of_nodup hnodup).1 hx, hv]
  · rw [Function.update_of_ne hqp, Function.update_self]
  · rw [hu]
    exact ⟨hne, w, Function.update_self .., hw⟩

/-- The node `c` is taken out of the list, after the node `p`. -/
theorem segment_unlink {a p c b : α} {xs ys : List α} {u' v : β}
    (h : Segment next null N a (xs ++ p :: c :: ys) b) (hnodup : (xs ++ p :: c :: ys).Nodup)
    (hc : N c = some v) (hu : next u' = next v) :
    Segment next null (Function.update (Function.update N p (some u')) c none) a (xs ++ p :: ys) b := by
  obtain ⟨hpx, hpy⟩ := not_mem_of_nodup hnodup
  obtain ⟨hcx, hcy⟩ := not_mem_of_nodup (l := xs ++ [p]) (x := c) (r := ys) (by simpa using hnodup)
  have hpc : p ≠ c := fun hpc => hpy (by simp [hpc])
  obtain ⟨d, hxs, rfl, hp0, u, -, rfl, hc0, v', hv', hys⟩ := segment_append.mp h
  rw [hc] at hv'
  cases hv'
  have hkeep : ∀ x, x ≠ d → x ≠ next u → Function.update (Function.update N d (some u')) (next u) none x = N x := by
    intro x h1 h2
    rw [Function.update_of_ne h2, Function.update_of_ne h1]
  refine segment_append.mpr ⟨d, segment_congr hxs ?_, rfl, hp0, u', ?_, ?_⟩
  · intro x hx w hw
    refine ⟨w, ?_, rfl⟩
    rw [hkeep x (fun e => hpx (e ▸ hx)) (fun e => hcx (by simp [← e, hx])), hw]
  · rw [Function.update_of_ne hpc, Function.update_self]
  · rw [hu]
    refine segment_congr hys fun x hx w hw => ⟨w, ?_, rfl⟩
    rw [hkeep x (fun e => hpy (by simp [← e, hx])) (fun e => hcy (e ▸ hx)), hw]

end Update

end KernelOfTruth.Lib
