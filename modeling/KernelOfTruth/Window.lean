import KernelOfTruth.Code.Paging
import KernelOfTruth.Spec.PageTables
import Mathlib.Tactic.IntervalCases

/-!
# The recursive window

Entry 256 of the root maps the root itself. So a walk that starts with index 256 comes back to the
root, and the addresses `get_pl4` to `get_pl1` reach the tables as if they were data.
-/

open KernelOfTruth.Lib KernelOfTruth.Code KernelOfTruth.Spec

namespace KernelOfTruth.Window

/-! ## Indices -/

theorem pl4_index_eq (a : Word) : pl4_index a = (index4 a).setWidth 64 := by
  unfold pl4_index index4
  ext i hi
  interval_cases i <;> simp

theorem pl3_index_eq (a : Word) : pl3_index a = (index3 a).setWidth 64 := by
  unfold pl3_index index3
  ext i hi
  interval_cases i <;> simp

theorem pl2_index_eq (a : Word) : pl2_index a = (index2 a).setWidth 64 := by
  unfold pl2_index index2
  ext i hi
  interval_cases i <;> simp

theorem pl1_index_eq (a : Word) : pl1_index a = (index1 a).setWidth 64 := by
  unfold pl1_index index1
  ext i hi
  interval_cases i <;> simp

theorem entryAddress_eq (page : Word) (i : Index) (h : page.extractLsb' 0 12 = 0) :
    entryAddress page (i.setWidth 64) = page ||| i.setWidth 64 <<< 3 := by
  have h8 : 8#64 * i.setWidth 64 = i.setWidth 64 <<< 3 := by
    rw [BitVec.shiftLeft_eq_mul_twoPow, BitVec.mul_comm]; rfl
  unfold entryAddress
  rw [show (8 : Word) = 8#64 from rfl, h8, BitVec.add_eq_or_of_and_eq_zero]
  ext k hk
  have hbit := congrArg (fun x : BitVec 12 => x.getLsbD k) h
  simp only [BitVec.getLsbD_extractLsb', Nat.zero_add] at hbit
  by_cases h12 : k < 12
  · simp only [h12, decide_true, Bool.true_and] at hbit
    rw [BitVec.getElem_and, ← BitVec.getLsbD_eq_getElem, hbit]
    simp
  · have : i.getLsbD (k - 3) = false := BitVec.getLsbD_of_ge i (k - 3) (by omega)
    simp [this]

theorem pagePath_entryAddress (page : Word) (i : Index) (h : page.extractLsb' 0 12 = 0) :
    pagePath (entryAddress page (i.setWidth 64)) = pagePath page := by
  rw [entryAddress_eq page i h]
  unfold pagePath index1 index2 index3 index4
  simp only [List.cons.injEq, and_true]
  -- The index of a word sits in bits 3 to 11, below every index of the walk.
  refine ⟨?_, ?_, ?_, ?_⟩ <;>
  · ext k hk
    interval_cases k <;> simp

theorem wordIndex_entryAddress (page : Word) (i : Index) (h : page.extractLsb' 0 12 = 0) :
    wordIndex (entryAddress page (i.setWidth 64)) = i := by
  rw [entryAddress_eq page i h]
  unfold wordIndex
  ext k hk
  have hbit := congrArg (fun x : BitVec 12 => x.getLsbD (3 + k)) h
  simp only [BitVec.getLsbD_extractLsb', Nat.zero_add] at hbit
  simp only [show 3 + k < 12 by omega, decide_true, Bool.true_and] at hbit
  interval_cases k <;> simp_all

/-! ## The four addresses of the window -/

theorem pagePath_pl4 : pagePath get_pl4 = [fractal, fractal, fractal, fractal] := by decide

theorem low_pl4 : get_pl4.extractLsb' 0 12 = 0 := by decide

theorem pagePath_pl3_index (i : Index) :
    pagePath (get_pl3_index (i.setWidth 64)) = [i, fractal, fractal, fractal] := by
  unfold get_pl3_index pagePath index1 index2 index3 index4 fractal Kernel_Fractal_Page_Table_Index
  simp only [List.cons.injEq, and_true]
  refine ⟨?_, ?_, ?_, ?_⟩ <;>
  · ext k hk
    interval_cases k <;> simp

theorem pagePath_pl2_index (i j : Index) :
    pagePath (get_pl2_index (i.setWidth 64) (j.setWidth 64)) = [j, i, fractal, fractal] := by
  unfold get_pl2_index pagePath index1 index2 index3 index4 fractal Kernel_Fractal_Page_Table_Index
  simp only [List.cons.injEq, and_true]
  refine ⟨?_, ?_, ?_, ?_⟩ <;>
  · ext k hk
    interval_cases k <;> simp

theorem pagePath_pl1_index (i j l : Index) :
    pagePath (get_pl1_index (i.setWidth 64) (j.setWidth 64) (l.setWidth 64)) = [l, j, i, fractal] := by
  unfold get_pl1_index pagePath index1 index2 index3 index4 fractal Kernel_Fractal_Page_Table_Index
  simp only [List.cons.injEq, and_true]
  refine ⟨?_, ?_, ?_, ?_⟩ <;>
  · ext k hk
    interval_cases k <;> simp

theorem low_pl3_index (i : Word) : (get_pl3_index i).extractLsb' 0 12 = 0 := by
  unfold get_pl3_index
  ext k hk
  interval_cases k <;> simp

theorem low_pl2_index (i j : Word) : (get_pl2_index i j).extractLsb' 0 12 = 0 := by
  unfold get_pl2_index
  ext k hk
  interval_cases k <;> simp

theorem low_pl1_index (i j l : Word) : (get_pl1_index i j l).extractLsb' 0 12 = 0 := by
  unfold get_pl1_index
  ext k hk
  interval_cases k <;> simp

/-! ## Walks through the window -/

theorem table_append_self {m : Machine} (h : SelfMapped m) (path : List Index) :
    m.table (path ++ [fractal]) = m.table path := by
  induction path with
  | nil => simp [Machine.table, h.1, h.2]
  | cons i path ih => simp only [List.cons_append, Machine.table, ih]

theorem table_pl4 {m : Machine} (h : SelfMapped m) :
    m.table [fractal, fractal, fractal, fractal] = some m.cr3 := by
  have h4 := table_append_self h [fractal, fractal, fractal]
  have h3 := table_append_self h [fractal, fractal]
  have h2 := table_append_self h [fractal]
  have h1 := table_append_self h []
  simp only [List.cons_append, List.nil_append] at h4 h3 h2 h1
  rw [h4, h3, h2, h1]
  rfl

theorem table_pl3 {m : Machine} (h : SelfMapped m) (i : Index) :
    m.table [i, fractal, fractal, fractal] = m.table [i] := by
  have h3 := table_append_self h [i, fractal, fractal]
  have h2 := table_append_self h [i, fractal]
  have h1 := table_append_self h [i]
  simp only [List.cons_append, List.nil_append] at h3 h2 h1
  rw [h3, h2, h1]

theorem table_pl2 {m : Machine} (h : SelfMapped m) (i j : Index) :
    m.table [j, i, fractal, fractal] = m.table [j, i] := by
  have h2 := table_append_self h [j, i, fractal]
  have h1 := table_append_self h [j, i]
  simp only [List.cons_append, List.nil_append] at h2 h1
  rw [h2, h1]

theorem table_pl1 {m : Machine} (h : SelfMapped m) (i j l : Index) :
    m.table [l, j, i, fractal] = m.table [l, j, i] :=
  table_append_self h [l, j, i]

/-! ## Loads and stores -/

section Access

variable {m : Machine} {a f : Word} {E : Halt → Prop}

theorem wp_access {Q : Word → Machine → Prop} (h : m.translate a = some f) :
    wp (access a) Q E m ↔ Q f m := by
  simp [access, h]

theorem wp_load {Q : Word → Machine → Prop} (h : m.translate a = some f) :
    wp (load a) Q E m ↔ Q (m.mem f (wordIndex a)) m := by
  simp [load, wp_access h]

theorem wp_store {Q : Unit → Machine → Prop} {v : Word} (h : m.translate a = some f) :
    wp (store a v) Q E m ↔ Q () { m with mem := setWord m.mem f (wordIndex a) v } := by
  simp [store, wp_access h]

theorem wp_clear_page {Q : Unit → Machine → Prop} (h : m.translate a = some f) :
    wp (clear_page a) Q E m ↔ Q () { m with mem := clearFrame m.mem f } := by
  simp [clear_page, wp_access h]

end Access

/-- A word of the window: `path` leads to the table, and entry `i` of it is read or written. -/
structure Slot (m : Machine) (address : Word) (path : List Index) (i : Index) : Prop where
  translate : m.translate address = m.table path
  word : wordIndex address = i

variable {m : Machine}

section Slots

variable (h : SelfMapped m) (v : Word) (i : Index)

include h

theorem slot_pl4_entry : Slot m (entryAddress get_pl4 (i.setWidth 64)) [] i := by
  refine ⟨?_, wordIndex_entryAddress _ _ low_pl4⟩
  rw [Machine.translate, pagePath_entryAddress _ _ low_pl4, pagePath_pl4, table_pl4 h]
  rfl

theorem slot_pl3_entry : Slot m (entryAddress (get_pl3 v) (i.setWidth 64)) [index4 v] i := by
  rw [get_pl3]
  refine ⟨?_, wordIndex_entryAddress _ _ (low_pl3_index _)⟩
  rw [Machine.translate, pagePath_entryAddress _ _ (low_pl3_index _), pl4_index_eq, pagePath_pl3_index,
    table_pl3 h]

theorem slot_pl2_entry : Slot m (entryAddress (get_pl2 v) (i.setWidth 64)) [index3 v, index4 v] i := by
  rw [get_pl2]
  refine ⟨?_, wordIndex_entryAddress _ _ (low_pl2_index _ _)⟩
  rw [Machine.translate, pagePath_entryAddress _ _ (low_pl2_index _ _), pl4_index_eq, pl3_index_eq,
    pagePath_pl2_index, table_pl2 h]

theorem slot_pl1_entry : Slot m (entryAddress (get_pl1 v) (i.setWidth 64)) [index2 v, index3 v, index4 v] i := by
  rw [get_pl1]
  refine ⟨?_, wordIndex_entryAddress _ _ (low_pl1_index _ _ _)⟩
  rw [Machine.translate, pagePath_entryAddress _ _ (low_pl1_index _ _ _), pl4_index_eq, pl3_index_eq,
    pl2_index_eq, pagePath_pl1_index, table_pl1 h]

theorem slot_pl4 : Slot m (entryAddress get_pl4 (pl4_index v)) [] (index4 v) := by
  rw [pl4_index_eq]
  exact slot_pl4_entry h _

theorem slot_pl3 : Slot m (entryAddress (get_pl3 v) (pl3_index v)) [index4 v] (index3 v) := by
  rw [pl3_index_eq]
  exact slot_pl3_entry h v _

theorem slot_pl2 : Slot m (entryAddress (get_pl2 v) (pl2_index v)) [index3 v, index4 v] (index2 v) := by
  rw [pl2_index_eq]
  exact slot_pl2_entry h v _

theorem slot_pl1 :
    Slot m (entryAddress (get_pl1 v) (pl1_index v)) [index2 v, index3 v, index4 v] (index1 v) := by
  rw [pl1_index_eq]
  exact slot_pl1_entry h v _

end Slots

theorem Slot.wp_load {a : Word} {path : List Index} {i : Index} {f : Word} {E : Halt → Prop}
    {Q : Word → Machine → Prop} (s : Slot m a path i) (h : m.table path = some f) :
    wp (load a) Q E m ↔ Q (m.mem f i) m := by
  rw [Window.wp_load (s.translate.trans h), s.word]

theorem Slot.wp_store {a : Word} {path : List Index} {i : Index} {f v : Word} {E : Halt → Prop}
    {Q : Unit → Machine → Prop} (s : Slot m a path i) (h : m.table path = some f) :
    wp (store a v) Q E m ↔ Q () { m with mem := setWord m.mem f i v } := by
  rw [Window.wp_store (s.translate.trans h), s.word]

/-! ## The four tests -/

section Tests

variable {v f : Word} {E : Halt → Prop} {Q : Bool → Machine → Prop}

theorem wp_is_pl3_present (h : SelfMapped m) :
    wp (is_pl3_present get_pl4 v) Q E m ↔ Q (present (m.mem m.cr3 (index4 v))) m := by
  simp [is_pl3_present, (slot_pl4 h v).wp_load rfl]

theorem wp_is_pl2_present (h : SelfMapped m) (hf : m.table [index4 v] = some f) :
    wp (is_pl2_present (get_pl3 v) v) Q E m ↔ Q (present (m.mem f (index3 v))) m := by
  simp [is_pl2_present, (slot_pl3 h v).wp_load hf]

theorem wp_is_pl1_present (h : SelfMapped m) (hf : m.table [index3 v, index4 v] = some f) :
    wp (is_pl1_present (get_pl2 v) v) Q E m ↔ Q (present (m.mem f (index2 v))) m := by
  simp [is_pl1_present, (slot_pl2 h v).wp_load hf]

theorem wp_is_Memory_Present (h : SelfMapped m) (hf : m.table [index2 v, index3 v, index4 v] = some f) :
    wp (is_Memory_Present (get_pl1 v) v) Q E m ↔ Q (present (m.mem f (index1 v))) m := by
  simp [is_Memory_Present, (slot_pl1 h v).wp_load hf]

end Tests

end KernelOfTruth.Window
