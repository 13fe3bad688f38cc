import KernelOfTruth.Symbols
import KernelOfTruth.Spec.ModuleInit

/-!
# The calls of constructors and destructors

Destructors are run twice after a constructor has failed.
-/

open KernelOfTruth.Lib KernelOfTruth.Code KernelOfTruth.Spec KernelOfTruth.Rules

namespace KernelOfTruth.ModuleCalls

variable {σ : Type} {E : Halt → Prop}

/-! ## What is read of an image -/

theorem readOnly_loadByte (a : Word) : ReadOnly (Memory.loadByte a) := by
  refine readOnly_bind readOnly_get fun m => ?_
  cases m a with
  | some b => exact readOnly_pure b
  | none => exact readOnly_throw _

theorem readOnly_load (n : Nat) (a : Word) : ReadOnly (Memory.load n a) := by
  induction n generalizing a with
  | zero => exact readOnly_pure 0
  | succ n ih => exact readOnly_bind (readOnly_loadByte a) fun _ => readOnly_bind (ih _) fun _ => readOnly_pure _

theorem readOnly_strncmpLoop {s1 s2 : Nat → Kernel σ Byte} (h1 : ∀ i, ReadOnly (s1 i)) (h2 : ∀ i, ReadOnly (s2 i)) (n i : Nat) :
    ReadOnly (strncmpLoop s1 s2 n i) := by
  induction n generalizing i with
  | zero => exact readOnly_pure 0
  | succ n ih =>
    refine readOnly_bind (h1 i) fun a => readOnly_bind (h2 i) fun b => ?_
    exact readOnly_ite (readOnly_pure _) (readOnly_ite (readOnly_pure _) (ih _))

theorem readOnly_strncmp_name (name : List Byte) (p : Word) (n : Nat) :
    ReadOnly (strncmp (constant name) (pointer p) n) :=
  readOnly_strncmpLoop (fun _ => readOnly_pure _) (fun _ => readOnly_loadByte _) n 0

theorem readOnly_sectionLoop (start size : Word) (name : List Byte) (sections strtab : Word) (n : Nat) (i : Word) :
    ReadOnly (sectionLoop start size name sections strtab n i) := by
  induction n generalizing i with
  | zero => exact readOnly_pure _
  | succ n ih =>
    refine readOnly_bind (readOnly_load _ _) fun _ => readOnly_ite (ih _) ?_
    refine readOnly_bind (readOnly_strncmp_name ..) fun _ => readOnly_ite ?_ (ih _)
    refine readOnly_bind (readOnly_load _ _) fun _ => readOnly_ite (readOnly_pure _) ?_
    exact readOnly_bind (readOnly_load _ _) fun _ => readOnly_pure _

theorem readOnly_elf_get_section (header size : Word) (name : List Byte) : ReadOnly (elf_get_section header size name) := by
  refine readOnly_bind (readOnly_load _ _) fun _ => readOnly_bind (readOnly_load _ _) fun _ => ?_
  refine readOnly_ite (readOnly_pure _) (readOnly_bind (readOnly_load _ _) fun _ => ?_)
  exact readOnly_bind (readOnly_load _ _) fun _ => readOnly_ite (readOnly_pure _) (readOnly_sectionLoop ..)

theorem readOnly_baseLoop (sections : Word) (n : Nat) (i base : Word) : ReadOnly (baseLoop sections n i base) := by
  induction n generalizing i base with
  | zero => exact readOnly_pure _
  | succ n ih =>
    refine readOnly_bind (readOnly_load _ _) fun _ => readOnly_ite ?_ (ih _ _)
    exact readOnly_bind (readOnly_load _ _) fun _ => readOnly_ite (ih _ _) (ih _ _)

theorem readOnly_elf_get_base_address (start size : Word) : ReadOnly (elf_get_base_address start size) := by
  refine readOnly_bind (readOnly_load _ _) fun _ => readOnly_bind (readOnly_load _ _) fun _ => ?_
  refine readOnly_bind (readOnly_load _ _) fun _ => readOnly_ite (readOnly_pure _) ?_
  exact readOnly_bind (readOnly_baseLoop ..) fun _ => readOnly_ite (readOnly_pure _) (readOnly_pure _)

theorem readOnly_funcsLoop (dynamic base tag tagSize : Word) (n : Nat) (i funcs : Word) (funcs_size : Option Word) :
    ReadOnly (funcsLoop dynamic base tag tagSize n i funcs funcs_size) := by
  induction n generalizing i funcs funcs_size with
  | zero => exact readOnly_pure _
  | succ n ih =>
    refine readOnly_bind (readOnly_load _ _) fun _ => readOnly_ite ?_ (readOnly_ite ?_ ?_)
    · exact readOnly_bind (readOnly_load _ _) fun _ => readOnly_ite (readOnly_pure _) (ih _ _ _)
    · exact readOnly_bind (readOnly_load _ _) fun _ => readOnly_ite (readOnly_pure _) (ih _ _ _)
    · exact readOnly_ite (readOnly_pure _) (ih _ _ _)

theorem readOnly_findFuncs (start size tag tagSize : Word) : ReadOnly (findFuncs start size tag tagSize) := by
  refine readOnly_bind (readOnly_elf_get_section ..) fun _ => readOnly_ite (readOnly_pure _) ?_
  refine readOnly_bind (readOnly_elf_get_base_address ..) fun _ => readOnly_ite (readOnly_pure _) ?_
  refine readOnly_bind (readOnly_funcsLoop ..) fun r => ?_
  obtain ⟨funcs, funcs_size⟩ := r
  cases funcs_size with
  | none => exact readOnly_pure _
  | some funcs_size => exact readOnly_ite (readOnly_pure _) (readOnly_ite (readOnly_pure _) (readOnly_pure _))

/-! ## One array -/

section Array

variable {answer : List EntryCall → Status} {s s' : ModuleState σ} {status : Status} {array funcs : Word} {n i k : Nat}

/-- The calls of `k` entries from number `i` on. -/
def callsFrom (array : Word) (i k : Nat) : List EntryCall := (List.range' i k).map (EntryCall.mk array)

theorem callsFrom_zero (array : Word) (k : Nat) : callsFrom array 0 k = callsOf array k := by
  rw [callsFrom, callsOf, List.range_eq_range']

theorem callsFrom_succ (array : Word) (i k : Nat) : callsFrom array i (k + 1) = ⟨array, i⟩ :: callsFrom array (i + 1) k := rfl

/-- Of the `n` entries from number `i` on, `k` have been called: all of them, or up to one that failed. -/
structure Called (answer : List EntryCall → Status) (before : List EntryCall) (array : Word) (i n : Nat) (status : Status)
    (k : Nat) : Prop where
  bound : k ≤ n
  ok : ∀ j, j + 1 < k → answer (before ++ callsFrom array i (j + 1)) = .Ok
  last : 0 < k → answer (before ++ callsFrom array i k) = status
  all : status = .Ok → k = n
  started : status ≠ .Ok → 0 < k

theorem wp_inImage {α : Type} {p : Kernel Memory α} {Q : α → ModuleState σ → Prop} (hp : ReadOnly p)
    (hQ : ∀ a, p.run s.symbols.memory = .ok (a, s.symbols.memory) → Q a s) : wp (inImage p) Q (fun _ => True) s := by
  unfold inImage inSymbols inMemory
  rw [wp_zoom, wp_zoom]
  refine wp_partial.mpr fun a m hrun => ?_
  obtain rfl := hp.run hrun
  exact hQ a hrun

theorem called_nil (before : List EntryCall) (array : Word) (i : Nat) : Called answer before array i 0 .Ok 0 :=
  ⟨le_rfl, fun _ hj => absurd hj (Nat.not_lt_zero _), fun h => absurd h (lt_irrefl 0), fun _ => rfl, fun h => absurd rfl h⟩

theorem called_failed {before : List EntryCall} (hfailed : answer (before ++ [⟨array, i⟩]) ≠ .Ok) :
    Called answer before array i (n + 1) (answer (before ++ [⟨array, i⟩])) 1 :=
  ⟨Nat.le_add_left _ _, fun _ hj => by omega, fun _ => rfl, fun h => absurd h hfailed, fun _ => Nat.one_pos⟩

/-- An entry that returns `Ok`, and the calls behind it. -/
theorem Called.cons {before : List EntryCall} (hok : answer (before ++ [⟨array, i⟩]) = .Ok)
    (h : Called answer (before ++ [⟨array, i⟩]) array (i + 1) n status k) : Called answer before array i (n + 1) status (k + 1) := by
  have hshift : ∀ j, before ++ [⟨array, i⟩] ++ callsFrom array (i + 1) j = before ++ callsFrom array i (j + 1) := fun j => by
    rw [callsFrom_succ, List.append_assoc, List.singleton_append]
  refine ⟨Nat.succ_le_succ h.bound, fun j hj => ?_, fun _ => ?_, fun hstatus => by rw [h.all hstatus], fun _ => Nat.succ_pos k⟩
  · cases j with
    | zero => exact hok
    | succ j =>
      rw [← hshift]
      exact h.ok j (by omega)
  · by_cases hk : 0 < k
    · rw [← hshift]
      exact h.last hk
    · have hstatus : status = .Ok := by
        by_contra hne
        exact hk (h.started hne)
      rw [Nat.eq_zero_of_not_pos hk, hstatus]
      exact hok

/-- By induction on the entries that are left. -/
theorem wp_callLoop : wp (callLoop answer array funcs n i) (fun status s' => s'.symbols = s.symbols ∧
      ∃ k, s'.calls = s.calls ++ callsFrom array i k ∧ Called answer s.calls array i n status k) (fun _ => True) s := by
  induction n generalizing i s with
  | zero => exact (wp_pure ..).mpr ⟨rfl, 0, (List.append_nil _).symm, called_nil _ _ _⟩
  | succ n ih =>
    unfold callLoop
    rw [wp_bind]
    refine wp_inImage (readOnly_load _ _) fun _ _ => ?_
    rw [wp_bind, wp_modify, wp_bind, wp_get]
    dsimp only
    split
    · rename_i hfailed
      rw [wp_pure]
      exact ⟨rfl, 1, rfl, called_failed hfailed⟩
    · rename_i hok
      refine wp_imp ih ?_
      rintro status s' ⟨hsymbols, k, hcalls, hcalled⟩
      refine ⟨hsymbols, k + 1, ?_, hcalled.cons (not_not.mp hok)⟩
      rw [hcalls, callsFrom_succ, List.append_assoc, List.singleton_append]

/-- A run of an array with `count` entries, of which `k` have been called. -/
structure ArrayRun (answer : List EntryCall → Status) (before : List EntryCall) (array : Word) (count : Option Nat)
    (status : Status) (k : Nat) : Prop where
  ok : ∀ j, j + 1 < k → answer (before ++ callsOf array (j + 1)) = .Ok
  last : 0 < k → answer (before ++ callsOf array k) = status
  all : status = .Ok → count = some k
  failed : status ≠ .Ok → count = none ∨ 0 < k
  bound : k ≤ count.getD 0
  called : 0 < count.getD 0 → 0 < k

theorem ArrayRun.refused {before : List EntryCall} {count : Option Nat} (hcount : count = if status = .Ok then some 0 else none) :
    ArrayRun answer before array count status 0 := by
  refine ⟨fun j hj => absurd hj (Nat.not_lt_zero _), fun h => absurd h (lt_irrefl 0), fun hok => ?_, fun hfailed => .inl ?_,
    Nat.zero_le _, fun h => ?_⟩
  · rw [hcount, if_pos hok]
  · rw [hcount, if_neg hfailed]
  · rw [hcount] at h
    split at h <;> exact absurd h (lt_irrefl 0)

theorem Called.arrayRun {before : List EntryCall} (h : Called answer before array 0 n status k) :
    ArrayRun answer before array (some n) status k := by
  refine ⟨fun j hj => ?_, fun hk => ?_, fun hok => by rw [h.all hok], fun hfailed => .inr (h.started hfailed), h.bound, fun hn => ?_⟩
  · rw [← callsFrom_zero]
    exact h.ok j hj
  · rw [← callsFrom_zero]
    exact h.last hk
  · by_cases hok : status = .Ok
    · rw [h.all hok]
      exact hn
    · exact h.started hok

theorem wp_helper {start size tagSize : Word} : wp (elf_run_init_fini_helper answer start size array tagSize)
    (fun status s' => s'.symbols = s.symbols ∧ ∃ k, s'.calls = s.calls ++ callsOf array k ∧
      ArrayRun answer s.calls array (entryCount s.symbols.memory start size array tagSize) status k) (fun _ => True) s := by
  unfold elf_run_init_fini_helper
  rw [wp_bind]
  refine wp_inImage (readOnly_findFuncs ..) fun r hr => ?_
  cases r with
  | error status =>
    have hcount : entryCount s.symbols.memory start size array tagSize = if status = .Ok then some 0 else none := by
      unfold entryCount
      rw [hr]
      cases status <;> rfl
    rw [wp_pure]
    exact ⟨rfl, 0, (List.append_nil _).symm, .refused hcount⟩
  | ok found =>
    have hcount : entryCount s.symbols.memory start size array tagSize = some found.2 := by
      unfold entryCount
      rw [hr]
    refine wp_imp wp_callLoop ?_
    rintro status s' ⟨hsymbols, k, hcalls, hcalled⟩
    rw [callsFrom_zero] at hcalls
    rw [hcount]
    exact ⟨hsymbols, k, hcalls, hcalled.arrayRun⟩

end Array

/-! ## The calls for a module -/

section Module

variable {answer : List EntryCall → Status} {s s' : ModuleState σ} {start size : Word} {status : Status} {calls : List EntryCall}

/-- The calls that are made: those of the constructors, and if one of these fails those of the destructors, twice. -/
def ModuleRun (answer : List EntryCall → Status) (before : List EntryCall) (init fini : Option Nat) (status : Status)
    (calls : List EntryCall) : Prop :=
  ∃ k, ArrayRun answer before DT_INIT_ARRAY init status k ∧
    if status = .Ok then calls = callsOf DT_INIT_ARRAY k
    else ∃ first second, calls = callsOf DT_INIT_ARRAY k ++ (callsOf DT_FINI_ARRAY first ++ callsOf DT_FINI_ARRAY second) ∧
      first ≤ fini.getD 0 ∧ second ≤ fini.getD 0 ∧ (0 < fini.getD 0 → 0 < first ∧ 0 < second)

theorem wp_runModule : wp (runModule answer start size) (fun status s' => ∃ calls, s'.calls = s.calls ++ calls ∧
    ModuleRun answer s.calls (initCount s.symbols.memory start size) (finiCount s.symbols.memory start size) status calls)
    (fun _ => True) s := by
  unfold runModule elf_run_init
  rw [wp_bind, wp_bind]
  refine wp_imp wp_helper ?_
  rintro status s₁ ⟨hsymbols₁, k, hcalls₁, hrun⟩
  by_cases hok : status = .Ok
  · rw [if_neg (not_not.mpr hok), wp_pure, if_neg (not_not.mpr hok), wp_pure]
    refine ⟨_, hcalls₁, k, hrun, ?_⟩
    rw [if_pos hok]
  rw [if_pos hok, wp_bind]
  unfold elf_run_fini
  refine wp_imp wp_helper ?_
  rintro status₂ s₂ ⟨hsymbols₂, first, hcalls₂, hfirst⟩
  rw [wp_pure, if_pos hok, wp_bind]
  refine wp_imp wp_helper ?_
  rintro status₃ s₃ ⟨hsymbols₃, second, hcalls₃, hsecond⟩
  rw [wp_pure]
  rw [hsymbols₁] at hfirst
  rw [hsymbols₂, hsymbols₁] at hsecond
  refine ⟨callsOf DT_INIT_ARRAY k ++ (callsOf DT_FINI_ARRAY first ++ callsOf DT_FINI_ARRAY second), ?_, k, hrun, ?_⟩
  · rw [hcalls₃, hcalls₂, hcalls₁, List.append_assoc, List.append_assoc]
  · rw [if_neg hok]
    exact ⟨first, second, rfl, hfirst.bound, hsecond.bound, fun hpos => ⟨hfirst.called hpos, hsecond.called hpos⟩⟩

theorem array_of_mem {array : Word} {k : Nat} {call : EntryCall} (h : call ∈ callsOf array k) : call.array = array := by
  obtain ⟨i, -, rfl⟩ := List.mem_map.mp h
  rfl

theorem first_mem {array : Word} {k : Nat} (hk : 0 < k) : ⟨array, 0⟩ ∈ callsOf array k :=
  List.mem_map.mpr ⟨0, List.mem_range.mpr hk, rfl⟩

theorem filter_callsOf_self (array : Word) (k : Nat) : (callsOf array k).filter (·.array = array) = callsOf array k :=
  List.filter_eq_self.mpr fun _ hc => decide_eq_true (array_of_mem hc)

theorem filter_callsOf_other {array other : Word} (hne : array ≠ other) (k : Nat) :
    (callsOf array k).filter (·.array = other) = [] := by
  refine List.filter_eq_nil_iff.mpr fun c hc => ?_
  rw [array_of_mem hc, decide_eq_true_eq]
  exact hne

/-- The calls up to one of them. -/
theorem callsOf_split {array : Word} {k : Nat} {earlier later : List EntryCall} {call : EntryCall}
    (h : callsOf array k = earlier ++ call :: later) : earlier ++ [call] = callsOf array (earlier.length + 1) ∧
      earlier.length + 1 + later.length = k := by
  have hlength := congrArg List.length h
  simp only [callsOf, List.length_map, List.length_range, List.length_append, List.length_cons] at hlength
  refine ⟨?_, by omega⟩
  have htake := congrArg (List.take (earlier.length + 1)) h
  rw [callsOf, ← List.map_take, List.take_range, Nat.min_eq_left (by omega)] at htake
  rw [callsOf, htake, List.take_append, Nat.add_sub_cancel_left, List.take_of_length_le (Nat.le_succ _)]
  rfl

theorem init_calls_right {k : Nat} (hok : ∀ j, j + 1 < k → answer (callsOf DT_INIT_ARRAY (j + 1)) = .Ok) :
    CallsRight answer (callsOf DT_INIT_ARRAY k) := by
  have hne : DT_INIT_ARRAY ≠ DT_FINI_ARRAY := by decide
  refine ⟨⟨k, filter_callsOf_self _ _⟩, fun earlier call later hsplit _ hfailed c hc => ?_, ?_, fun call hcall harray => ?_⟩
  · obtain ⟨hcalls, hlength⟩ := callsOf_split hsplit
    have hpos := List.length_pos_of_mem hc
    rw [hcalls] at hfailed
    exact absurd (hok _ (by omega)) hfailed
  · rw [filter_callsOf_other hne]
    exact List.nodup_nil
  · exact absurd ((array_of_mem hcall).symm.trans harray) hne

/-- A destructor that is called in both runs. -/
theorem not_calls_right {k first second : Nat} (hfirst : 0 < first) (hsecond : 0 < second) :
    ¬ CallsRight answer (callsOf DT_INIT_ARRAY k ++ (callsOf DT_FINI_ARRAY first ++ callsOf DT_FINI_ARRAY second)) := by
  intro h
  have hnodup := h.fini
  rw [List.filter_append, List.filter_append, filter_callsOf_other (by decide), filter_callsOf_self, filter_callsOf_self,
    List.nil_append] at hnodup
  exact (List.nodup_append.mp hnodup).2.2 _ (first_mem hfirst) _ (first_mem hsecond) rfl

theorem ModuleRun.right_iff {before : List EntryCall} {init fini : Option Nat}
    (h : ModuleRun answer before init fini status calls) : CallsRight (fun t => answer (before ++ t)) calls ↔
      fini = none ∨ fini = some 0 ∨
        ∃ n, init = some n ∧ ∀ k < n, answer (before ++ callsOf DT_INIT_ARRAY (k + 1)) = .Ok := by
  obtain ⟨k, hrun, hcalls⟩ := h
  by_cases hok : status = .Ok
  · rw [if_pos hok] at hcalls
    rw [hcalls]
    refine iff_of_true (init_calls_right hrun.ok) (.inr (.inr ⟨k, hrun.all hok, fun j hj => ?_⟩))
    rcases Nat.lt_or_eq_of_le (Nat.succ_le_of_lt hj) with hlt | heq
    · exact hrun.ok j hlt
    · rw [show j + 1 = k from heq, hrun.last (by omega), hok]
  rw [if_neg hok] at hcalls
  obtain ⟨first, second, rfl, hfirst, hsecond, hboth⟩ := hcalls
  by_cases hfini : 0 < fini.getD 0
  · refine iff_of_false (not_calls_right (hboth hfini).1 (hboth hfini).2) ?_
    rintro (hnone | hzero | ⟨n, hn, hall⟩)
    · rw [hnone] at hfini
      exact absurd hfini (lt_irrefl 0)
    · rw [hzero] at hfini
      exact absurd hfini (lt_irrefl 0)
    · have hbound := hrun.bound
      rw [hn] at hbound
      rcases hrun.failed hok with hnone | hk
      · rw [hn] at hnone
        cases hnone
      · obtain ⟨j, rfl⟩ : ∃ j, k = j + 1 := ⟨k - 1, by omega⟩
        exact hok ((hrun.last hk).symm.trans (hall j hbound))
  · obtain rfl : first = 0 := by omega
    obtain rfl : second = 0 := by omega
    refine iff_of_true ?_ ?_
    · show CallsRight _ (callsOf DT_INIT_ARRAY k ++ [])
      rw [List.append_nil]
      exact init_calls_right hrun.ok
    · cases fini with
      | none => exact .inl rfl
      | some n => exact .inr (.inl (congrArg some (Nat.eq_zero_of_not_pos hfini)))

/-- Constructors and destructors are called as they should exactly if there is no destructor to call or all constructors
return `Ok`. -/
theorem calls_right_iff (hrun : (runModule answer start size).run s = .ok (status, s')) :
    ∃ calls, s'.calls = s.calls ++ calls ∧ (CallsRight (fun t => answer (s.calls ++ t)) calls ↔
      RunsOnce s.symbols.memory start size fun t => answer (s.calls ++ t)) := by
  obtain ⟨calls, hcalls, hmodule⟩ := wp_ok wp_runModule hrun
  exact ⟨calls, hcalls, hmodule.right_iff⟩

end Module

/-! ## A module with a constructor and a destructor -/

/-- An image of 368 bytes at 0x1000: the entries of `.dynamic` name an array of one constructor and one of one destructor. -/
def oneOfEach : Memory :=
  let m := filled (fun _ => none) 0x1000 368 0
  let m := stored (stored (stored (stored m 8 0x1028 64) 2 0x103a 64) 2 0x103c 3) 2 0x103e 2
  let m := Symbols.withSection (Symbols.withSection m 0x1080 1 6 0x120 64) 0x10c0 0 3 0x100 32
  let m := Symbols.withBytes m 0x1101 (ascii ".dynamic")
  let m := stored (stored m 8 0x1120 DT_INIT_ARRAY) 8 0x1128 0x60
  let m := stored (stored m 8 0x1130 DT_INIT_ARRAYSZ) 8 0x1138 8
  let m := stored (stored m 8 0x1140 DT_FINI_ARRAY) 8 0x1148 0x68
  stored (stored m 8 0x1150 DT_FINI_ARRAYSZ) 8 0x1158 8

def oneOfEachState : ModuleState Unit where
  symbols := ⟨oneOfEach, Symbols.twoState.symbol_table, ()⟩
  Module_List := []
  calls := []

theorem constructor_called_once : ∃ status s' calls, (runModule (fun _ => .Ok) 0x1000 368).run oneOfEachState = .ok (status, s') ∧
    s'.calls = oneOfEachState.calls ++ calls ∧ CallsRight (fun _ => .Ok) calls := by
  have hrun : (runModule (fun _ => .Ok) 0x1000 368).run' oneOfEachState = .ok .Ok := by decide +kernel
  obtain ⟨s', hrun⟩ := run_of_run' hrun
  obtain ⟨calls, hcalls, hiff⟩ := calls_right_iff hrun
  exact ⟨_, s', calls, hrun, hcalls, hiff.mpr (.inr (.inr ⟨1, by decide +kernel, fun _ _ => rfl⟩))⟩

/-- The constructor fails. -/
def constructorFails (calls : List EntryCall) : Status :=
  if calls.getLast? = some ⟨DT_INIT_ARRAY, 0⟩ then .Error_Invalid else .Ok

/-- The calls that are made for the module. -/
def failedCalls : List EntryCall := [⟨DT_INIT_ARRAY, 0⟩, ⟨DT_FINI_ARRAY, 0⟩, ⟨DT_FINI_ARRAY, 0⟩]

theorem destructor_called_twice : ∃ s', (runModule constructorFails 0x1000 368).run oneOfEachState = .ok (.Error_Invalid, s') ∧
    s'.calls = failedCalls ∧ ¬ CallsRight constructorFails failedCalls := by
  refine ⟨{ oneOfEachState with calls := failedCalls }, rfl, rfl, fun h => ?_⟩
  exact absurd h.fini (by decide)

end KernelOfTruth.ModuleCalls
