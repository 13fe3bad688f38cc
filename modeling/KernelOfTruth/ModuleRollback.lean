import KernelOfTruth.LookupOrder
import KernelOfTruth.Symbols
import KernelOfTruth.Spec.ModuleRollback

/-!
# Symbols of a module that is not loaded

A load that fails removes all global symbols of the module by their names. The kernel's symbols are as before only if these
are the symbols that were inserted.
-/

open KernelOfTruth.Lib KernelOfTruth.Code KernelOfTruth.Spec KernelOfTruth.Strings KernelOfTruth.Elf KernelOfTruth.Symbols
  KernelOfTruth.LookupOrder
open KernelOfTruth.Hashtables (putAt)

namespace KernelOfTruth.ModuleRollback

variable {σ : Type} {kmalloc : Word → Kernel σ Word} {kfree : Word → Kernel σ Unit} {m : Memory} {start size : Word}
  {hash : Word → Word} {comp : Word → Word → Partial} {E : Halt → Prop} {i n room : Nat} {symbols : List Nat}

/-! ## Lists of symbols -/

theorem exportsIn_cons : exportsIn m start size (i :: symbols) =
    if is_exported (symbolInfo m start size i) then i :: exportsIn m start size symbols else exportsIn m start size symbols :=
  List.filter_cons

theorem insertedIn_unplaced (h : Unplaced m start size i) : insertedIn m start size room (i :: symbols) = [] := by
  unfold insertedIn
  rw [List.takeWhile_cons_of_neg (by simpa using h)]
  rfl

theorem insertedIn_placed (h : ¬ Unplaced m start size i) (hexported : is_exported (symbolInfo m start size i) = true) :
    insertedIn m start size room (i :: symbols) = i :: if room = 0 then [] else insertedIn m start size (room - 1) symbols := by
  unfold insertedIn
  rw [List.takeWhile_cons_of_pos (by simpa using h), exportsIn_cons, if_pos hexported, List.take_succ_cons]
  cases room with
  | zero => rfl
  | succ room => rfl

theorem insertedIn_skip (h : ¬ is_exported (symbolInfo m start size i) = true) :
    insertedIn m start size room (i :: symbols) = insertedIn m start size room symbols := by
  have hplaced : ¬ Unplaced m start size i := fun hun => h hun.1
  unfold insertedIn
  rw [List.takeWhile_cons_of_pos (by simpa using hplaced), exportsIn_cons, if_neg h]

theorem stopsIn_skip (h : ¬ is_exported (symbolInfo m start size i) = true) :
    StopsIn m start size room (i :: symbols) ↔ StopsIn m start size room symbols := by
  have hplaced : ¬ Unplaced m start size i := fun hun => h hun.1
  unfold StopsIn
  rw [exportsIn_cons, if_neg h]
  simp [hplaced]

theorem stopsIn_placed (h : ¬ Unplaced m start size i) (hexported : is_exported (symbolInfo m start size i) = true)
    (hroom : 0 < room) : StopsIn m start size room (i :: symbols) ↔ StopsIn m start size (room - 1) symbols := by
  unfold StopsIn
  rw [exportsIn_cons, if_pos hexported, List.length_cons]
  have hlt : room < (exportsIn m start size symbols).length + 1 ↔ room - 1 < (exportsIn m start size symbols).length := by omega
  simp [h, hlt]

theorem addresses_cons {name : Word} : addresses m start size comp name (i :: symbols) =
    (if comp name (symbolName m start size i) = .Partial_Equal then [publishedAddress m start size i] else []) ++
      addresses m start size comp name symbols := by
  unfold addresses
  rw [List.filter_cons]
  by_cases heq : comp name (symbolName m start size i) = .Partial_Equal <;> simp [heq]

/-! ## The loops -/

section Loops

variable {s : SymbolState σ}

theorem wp_symbol_put_room (fit : Consistent hash comp) (h : HasRoom hash comp s.symbol_table (n + 1))
    (hgrowth : 0 < spare s.symbol_table ∨ GrowthFails kmalloc s.symbol_table s.heap) (symbol location : Word) :
    wp (symbol_put kmalloc kfree symbol location) (fun status s' => s'.memory = s.memory ∧
      PutLast hash comp s.symbol_table s'.symbol_table symbol location n ∧
      (0 < spare s.symbol_table → status = .Ok ∧ s'.heap = s.heap) ∧ (spare s.symbol_table = 0 → status ≠ .Ok)) E s := by
  unfold symbol_put
  simp only [wp_bind, wp_get, wp_inHeap, wp_modify, wp_pure]
  rcases Nat.eq_zero_or_pos (spare s.symbol_table) with hzero | hpos
  · refine wp_imp (wp_hashtable_put_failing fit h hzero (hgrowth.resolve_left (by omega)) symbol location) ?_
    rintro ⟨status, symbol_table⟩ heap ⟨hfail, hput⟩
    refine ⟨trivial, hput, fun hpos => by omega, fun _ hok => ?_⟩
    exact absurd (hok.symm.trans hfail) (by decide)
  · refine wp_imp (wp_hashtable_put_room fit h hpos symbol location) ?_
    rintro ⟨status, symbol_table⟩ heap ⟨rfl, hok, hput⟩
    exact ⟨trivial, hput, fun _ => ⟨hok, rfl⟩, fun hzero => by omega⟩

/-- What has been done when some symbols have been put in the table. -/
structure Inserted (hash : Word → Word) (comp : Word → Word → Partial) (start size : Word) (s s' : SymbolState σ)
    (status : Status) (symbols : List Nat) : Prop where
  memory : s'.memory = s.memory
  table : HasRoom hash comp s'.symbol_table 0
  lookups_eq : ∀ name, lookups s'.symbol_table name = lookups s.symbol_table name ++
    addresses s.memory start size comp name (insertedIn s.memory start size (spare s.symbol_table) symbols)
  failed : status ≠ .Ok ↔ StopsIn s.memory start size (spare s.symbol_table) symbols
  heap : status = .Ok → s'.heap = s.heap

section Cons

variable {s₁ s' : SymbolState σ} {status : Status}

/-- The symbol is put in the table, and others after it. -/
theorem Inserted.cons (hrest : Inserted hash comp start size s₁ s' status symbols) (hmemory : s₁.memory = s.memory)
    (hheap : s₁.heap = s.heap) (hplaced : ¬ Unplaced s.memory start size i)
    (hexported : is_exported (symbolInfo s.memory start size i) = true) (hspare : 0 < spare s.symbol_table)
    (hput : PutLast hash comp s.symbol_table s₁.symbol_table (symbolName s.memory start size i)
      (publishedAddress s.memory start size i) n) : Inserted hash comp start size s s' status (i :: symbols) := by
  obtain ⟨hmemory', htable, hlookups, hfailed, hheap'⟩ := hrest
  rw [hmemory, hput.spare_eq] at hlookups hfailed
  refine ⟨hmemory'.trans hmemory, htable, fun name => ?_, ?_, fun hok => (hheap' hok).trans hheap⟩
  · rw [hlookups, hput.lookups_eq, insertedIn_placed hplaced hexported, if_neg hspare.ne', addresses_cons, List.append_assoc]
  · rw [hfailed, stopsIn_placed hplaced hexported hspare]

/-- The table has no spare entry, so that the put returns an error. -/
theorem inserted_last (hmemory : s₁.memory = s.memory) (hplaced : ¬ Unplaced s.memory start size i)
    (hexported : is_exported (symbolInfo s.memory start size i) = true) (hspare : spare s.symbol_table = 0)
    (hfail : status ≠ .Ok) (hput : PutLast hash comp s.symbol_table s₁.symbol_table (symbolName s.memory start size i)
      (publishedAddress s.memory start size i) n) : Inserted hash comp start size s s₁ status (i :: symbols) := by
  refine ⟨hmemory, hput.room.mono (Nat.zero_le _), fun name => ?_, ?_, fun hok => absurd hok hfail⟩
  · rw [hput.lookups_eq, insertedIn_placed hplaced hexported, if_pos hspare, addresses_cons]
    exact congrArg _ (List.append_nil _).symm
  · refine iff_of_true hfail (.inr ?_)
    rw [hspare, exportsIn_cons, if_pos hexported]
    exact Nat.succ_pos _

end Cons

theorem wp_insertSymbolsLoop_room (fit : Consistent hash comp) (h : ReadableSymbols s.memory start size)
    (hn : i + n = symbolCount s.memory start size)
    (hroom : HasRoom hash comp s.symbol_table (exportsIn s.memory start size (List.range' i n)).length)
    (hgrowth : (exportsIn s.memory start size (List.range' i n)).length ≤ spare s.symbol_table ∨
      GrowthFails kmalloc s.symbol_table s.heap) :
    wp (insertSymbolsLoop kmalloc kfree start size (stringTable s.memory start size) (symbolTable s.memory start size) n
      (BitVec.ofNat 64 i)) (fun status s' => Inserted hash comp start size s s' status (List.range' i n)) E s := by
  induction n generalizing i s with
  | zero =>
    refine (wp_pure ..).mpr ⟨rfl, hroom, fun name => ?_, ?_, fun _ => rfl⟩
    · exact (List.append_nil _).symm
    · simp [StopsIn, exportsIn]
  | succ n ih =>
    have hi : i < symbolCount s.memory start size := by omega
    have hw := h.toWellFormedSymbols
    have hnameAt : stringTable s.memory start size + wordAt s.memory 4 (symbolEntry s.memory start size i) =
      symbolName s.memory start size i := rfl
    have hnext : BitVec.ofNat 64 i + 1 = BitVec.ofNat 64 (i + 1) := (BitVec.ofNat_add ..).symm
    rw [List.range'_succ] at hroom hgrowth ⊢
    rw [exportsIn_cons] at hroom hgrowth
    unfold insertSymbolsLoop
    simp only [wp_bind, wp_inMemory, wp_symbol_info hw hi, hnext]
    by_cases hexported : is_exported (symbolInfo s.memory start size i) = true
    · rw [if_pos hexported] at hroom hgrowth ⊢
      rw [List.length_cons] at hroom hgrowth
      simp only [wp_bind, wp_inMemory, wp_symbol_index hw hi, wp_elf_get_section_index (mapped_header hw.toWellFormedSections)]
      by_cases hzero : sectionIndex s.memory start size (symbolIndex s.memory start size i) = 0
      · have hunplaced : Unplaced s.memory start size i := ⟨hexported, hzero⟩
        rw [if_pos hzero, wp_pure]
        refine ⟨rfl, hroom.mono (Nat.zero_le _), fun name => ?_, ?_, fun _ => rfl⟩
        · rw [insertedIn_unplaced hunplaced]
          exact (List.append_nil _).symm
        · exact ⟨fun _ => .inl ⟨i, List.mem_cons_self, hunplaced⟩, fun _ => by decide⟩
      · have hplaced : ¬ Unplaced s.memory start size i := fun hun => hzero hun.2
        have hmapped := h.headers i (List.mem_filter.mpr ⟨List.mem_range.mpr hi, hexported⟩) hplaced
        rw [if_neg hzero]
        simp only [wp_bind, wp_inMemory, wp_load, sectionIndex_eq hzero, guarded_of hmapped, wp_symbol_value hw hi,
          wp_symbol_name hw hi, hnameAt]
        refine wp_imp (wp_symbol_put_room fit hroom (hgrowth.imp_left fun hle => by omega) _ _) ?_
        rintro status s₁ ⟨hmemory, hput, hpos, hfull⟩
        rcases Nat.eq_zero_or_pos (spare s.symbol_table) with hspare | hspare
        · rw [if_pos (hfull hspare), wp_pure]
          exact inserted_last hmemory hplaced hexported hspare (hfull hspare) hput
        · obtain ⟨hok, hheap⟩ := hpos hspare
          have hgrowth' : (exportsIn s.memory start size (List.range' (i + 1) n)).length ≤ spare s₁.symbol_table ∨
              GrowthFails kmalloc s₁.symbol_table s₁.heap := by
            rw [hput.spare_eq, hheap, GrowthFails, hput.size]
            exact hgrowth.imp_left fun hle => by omega
          have hrest := ih (i := i + 1) (s := s₁)
          rw [hmemory] at hrest
          rw [if_neg (not_not.mpr hok)]
          exact wp_imp (hrest h (by omega) hput.room hgrowth') fun status s' hrest =>
            hrest.cons hmemory hheap hplaced hexported hspare hput
    · rw [if_neg hexported] at hroom hgrowth ⊢
      refine wp_imp (ih h (by omega) hroom hgrowth) fun status s' hrest => ?_
      refine ⟨hrest.memory, hrest.table, fun name => ?_, ?_, hrest.heap⟩
      · rw [insertedIn_skip hexported]
        exact hrest.lookups_eq name
      · rw [stopsIn_skip hexported]
        exact hrest.failed

/-! ### Removals -/

theorem removals_cons {name : Word} : removals m start size comp name (i :: symbols) =
    removals m start size comp name symbols + if ELF64_ST_BIND (symbolInfo m start size i) = STB_GLOBAL ∧
      comp name (symbolName m start size i) = .Partial_Equal then 1 else 0 := by
  unfold removals
  rw [List.countP_cons]
  simp only [decide_eq_true_eq]

theorem wp_symbol_remove_room (fit : Consistent hash comp) (h : HasRoom hash comp s.symbol_table n) {symbol : Word}
    (hpresent : lookups s.symbol_table symbol ≠ []) :
    wp (symbol_remove kmalloc kfree symbol) (fun status s' => status = .Ok ∧ s'.memory = s.memory ∧
      HasRoom hash comp s'.symbol_table n ∧ ∃ v, ∀ name, lookups s.symbol_table name =
        (if comp name symbol = .Partial_Equal then [v] else []) ++ lookups s'.symbol_table name) E s := by
  unfold symbol_remove
  simp only [wp_bind, wp_get, wp_inHeap, wp_modify, wp_pure]
  refine wp_imp (wp_hashtable_remove_room fit h symbol hpresent) ?_
  rintro ⟨status, symbol_table⟩ _ ⟨rfl, hok, hroom, hlookups⟩
  exact ⟨hok, trivial, hroom, hlookups⟩

theorem wp_symbol_remove_absent (fit : Consistent hash comp) (h : HasRoom hash comp s.symbol_table n) {symbol : Word}
    (habsent : lookups s.symbol_table symbol = []) :
    wp (symbol_remove kmalloc kfree symbol) (fun _ _ => False) (fun _ => True) s := by
  unfold symbol_remove
  simp only [wp_bind, wp_get, wp_inHeap, wp_modify, wp_pure]
  exact wp_imp (wp_hashtable_remove_absent fit h symbol habsent) fun _ _ => False.elim

/-- Some symbols have been removed. -/
structure Removed (hash : Word → Word) (comp : Word → Word → Partial) (start size : Word) (s s' : SymbolState σ)
    (symbols : List Nat) : Prop where
  memory : s'.memory = s.memory
  table : HasRoom hash comp s'.symbol_table 0
  enough : ∀ name, removals s.memory start size comp name symbols ≤ (lookups s.symbol_table name).length
  lookups_eq : ∀ name, lookups s'.symbol_table name =
    (lookups s.symbol_table name).drop (removals s.memory start size comp name symbols)

/-- A name is removed more often than the table has it. -/
def RemovesTooMuch (comp : Word → Word → Partial) (start size : Word) (s : SymbolState σ) (symbols : List Nat) : Prop :=
  ∃ name, (lookups s.symbol_table name).length < removals s.memory start size comp name symbols

section Cons

variable {s₁ s' : SymbolState σ} {v : Word} (hmemory : s₁.memory = s.memory)
  (hglobal : ELF64_ST_BIND (symbolInfo s.memory start size i) = STB_GLOBAL)
  (hremoved : ∀ name, lookups s.symbol_table name =
    (if comp name (symbolName s.memory start size i) = .Partial_Equal then [v] else []) ++ lookups s₁.symbol_table name)
include hmemory hglobal hremoved

theorem Removed.cons (hrest : Removed hash comp start size s₁ s' symbols) :
    Removed hash comp start size s s' (i :: symbols) := by
  obtain ⟨hmemory', htable, henough, hlookups⟩ := hrest
  rw [hmemory] at hmemory' henough hlookups
  refine ⟨hmemory', htable, fun name => ?_, fun name => ?_⟩
  · have hle := henough name
    rw [hremoved, removals_cons]
    split
    · rename_i heq
      rw [if_pos heq.2, List.length_append, List.length_singleton]
      omega
    · rw [List.length_append]
      omega
  · rw [hlookups, hremoved, removals_cons]
    by_cases heq : comp name (symbolName s.memory start size i) = .Partial_Equal
    · rw [if_pos heq, if_pos ⟨hglobal, heq⟩]
      rfl
    · rw [if_neg heq, if_neg fun hboth => heq hboth.2]
      rfl

theorem RemovesTooMuch.cons (hrest : RemovesTooMuch comp start size s₁ symbols) :
    RemovesTooMuch comp start size s (i :: symbols) := by
  obtain ⟨name, hlt⟩ := hrest
  rw [hmemory] at hlt
  refine ⟨name, ?_⟩
  rw [hremoved, removals_cons]
  by_cases heq : comp name (symbolName s.memory start size i) = .Partial_Equal
  · rw [if_pos heq, if_pos ⟨hglobal, heq⟩, List.length_append, List.length_singleton]
    omega
  · rw [if_neg heq, if_neg fun hboth => heq hboth.2]
    exact hlt

end Cons

theorem removals_skip {name : Word} (h : ELF64_ST_BIND (symbolInfo m start size i) ≠ STB_GLOBAL) :
    removals m start size comp name (i :: symbols) = removals m start size comp name symbols := by
  rw [removals_cons, if_neg fun hboth => h hboth.1]
  rfl

theorem wp_removeSymbolsLoop (fit : Consistent hash comp) (h : WellFormedSymbols s.memory start size)
    (hn : i + n = symbolCount s.memory start size) (hroom : HasRoom hash comp s.symbol_table 0) :
    wp (removeSymbolsLoop kmalloc kfree (stringTable s.memory start size) (symbolTable s.memory start size) n (BitVec.ofNat 64 i))
      (fun _ s' => Removed hash comp start size s s' (List.range' i n))
      (fun _ => RemovesTooMuch comp start size s (List.range' i n)) s := by
  induction n generalizing i s with
  | zero => exact (wp_pure ..).mpr ⟨rfl, hroom, fun _ => Nat.zero_le _, fun _ => rfl⟩
  | succ n ih =>
    have hi : i < symbolCount s.memory start size := by omega
    have hnameAt : stringTable s.memory start size + wordAt s.memory 4 (symbolEntry s.memory start size i) =
      symbolName s.memory start size i := rfl
    have hnext : BitVec.ofNat 64 i + 1 = BitVec.ofNat 64 (i + 1) := (BitVec.ofNat_add ..).symm
    rw [List.range'_succ]
    unfold removeSymbolsLoop
    simp only [wp_bind, wp_inMemory, wp_symbol_info h hi, hnext]
    by_cases hglobal : ELF64_ST_BIND (symbolInfo s.memory start size i) = STB_GLOBAL
    · rw [if_pos hglobal]
      simp only [wp_bind, wp_inMemory, wp_symbol_name h hi, hnameAt]
      by_cases habsent : lookups s.symbol_table (symbolName s.memory start size i) = []
      · refine wp_mono (wp_symbol_remove_absent fit hroom habsent) (fun _ _ => False.elim) fun _ _ => ?_
        refine ⟨symbolName s.memory start size i, ?_⟩
        rw [habsent, removals_cons, if_pos ⟨hglobal, fit.equal.refl _⟩]
        exact Nat.succ_pos _
      · refine wp_imp (wp_symbol_remove_room fit hroom habsent) ?_
        rintro status s₁ ⟨rfl, hmemory, hroom₁, v, hremoved⟩
        rw [Rules.wp_assert_decide rfl]
        have hrest := ih (i := i + 1) (s := s₁)
        rw [hmemory] at hrest
        exact wp_mono (hrest h (by omega) hroom₁) (fun _ s' hrest => hrest.cons hmemory hglobal hremoved)
          fun _ hrest => hrest.cons hmemory hglobal hremoved
    · rw [if_neg hglobal]
      refine wp_mono (ih h (by omega) hroom) (fun _ s' hrest => ⟨hrest.memory, hrest.table, fun name => ?_, fun name => ?_⟩) ?_
      · rw [removals_skip hglobal]
        exact hrest.enough name
      · rw [removals_skip hglobal]
        exact hrest.lookups_eq name
      · rintro _ ⟨name, hlt⟩
        exact ⟨name, by rw [removals_skip hglobal]; exact hlt⟩

end Loops

/-! ## `module_load` -/

theorem symbolList_eq : symbolList m start size = List.range' 0 (symbolCount m start size) := List.range_eq_range'

section Symbols

variable {s : SymbolState σ}

theorem wp_module_remove_symbols (fit : Consistent hash comp) (h : WellFormedSymbols s.memory start size)
    (hroom : HasRoom hash comp s.symbol_table 0) :
    wp (module_remove_symbols kmalloc kfree start size)
      (fun _ s' => Removed hash comp start size s s' (symbolList s.memory start size))
      (fun _ => RemovesTooMuch comp start size s (symbolList s.memory start size)) s := by
  have hstrings : (sectionOf s.memory start size (ascii ".strtab")).1 ≠ 0 := h.stringTable_ne
  have hsymbols : (sectionOf s.memory start size (ascii ".symtab")).1 ≠ 0 := h.symbolTable_ne
  unfold module_remove_symbols
  simp only [wp_bind, wp_inMemory, wp_get_section h.toWellFormedSections, wp_ite, wp_pure]
  rw [if_neg hstrings, if_neg hsymbols, symbolList_eq]
  exact wp_removeSymbolsLoop fit h (Nat.zero_add _) hroom

theorem wp_module_insert_symbols_missing {Q : Status → SymbolState σ → Prop} (h : WellFormedSections s.memory start size)
    (hmissing : ¬ HasSymbols s.memory start size) :
    wp (module_insert_symbols kmalloc kfree start size) Q E s ↔ Q .Error_Invalid s := by
  unfold module_insert_symbols
  simp only [wp_bind, wp_inMemory, wp_get_section h, wp_ite, wp_pure]
  split
  · rfl
  · rename_i hstrings
    have hsymbols : (sectionOf s.memory start size (ascii ".symtab")).1 = 0 :=
      not_not.mp fun hne => hmissing ⟨hstrings, hne⟩
    rw [if_pos hsymbols]

theorem wp_module_insert_symbols {Q : Status → SymbolState σ → Prop} (h : WellFormedSymbols s.memory start size) :
    wp (module_insert_symbols kmalloc kfree start size) Q E s ↔
      wp (insertSymbolsLoop kmalloc kfree start size (stringTable s.memory start size) (symbolTable s.memory start size)
        (symbolCount s.memory start size) (BitVec.ofNat 64 0)) (fun status s' => if status ≠ .Ok then
          wp (module_remove_symbols kmalloc kfree start size) (fun _ s'' => Q status s'') E s' else Q status s') E s := by
  have hstrings : (sectionOf s.memory start size (ascii ".strtab")).1 ≠ 0 := h.stringTable_ne
  have hsymbols : (sectionOf s.memory start size (ascii ".symtab")).1 ≠ 0 := h.symbolTable_ne
  unfold module_insert_symbols
  simp only [wp_bind, wp_inMemory, wp_get_section h.toWellFormedSections, wp_ite, wp_pure]
  rw [if_neg hstrings, if_neg hsymbols]
  rfl

theorem symbol_get_eq_lookups (fit : Consistent hash comp) (h : HasRoom hash comp s.symbol_table n) (name : Word) :
    (symbol_get name).run' s = .ok ((lookups s.symbol_table name).headD 0) := by
  have hget : wp (symbol_get name) (fun a _ => a = (lookups s.symbol_table name).headD 0) (fun _ => False) s := by
    unfold symbol_get
    rw [wp_bind, wp_get, wp_inHeap, wp_of_run (hashtable_get_eq fit h name s.heap)]
  obtain ⟨a, s', hrun, rfl⟩ := wp_total hget
  exact run'_of_run hrun

end Symbols

section Load

variable {check : Word → Word → Word → Kernel Memory Int} {s s' : ModuleState σ} {s₁ : SymbolState σ} {status relocated : Status}
  {name record : Word} {heap : σ}

theorem wp_inSymbols {α : Type} {p : Kernel (SymbolState σ) α} {Q : α → ModuleState σ → Prop} :
    wp (inSymbols p) Q E s ↔ wp p (fun a symbols => Q a { s with symbols := symbols }) E s.symbols := wp_zoom ..

/-- The load of a module that can be read into a table that does not grow meanwhile. The image is in `s₁` with its relocations,
and the module record is at `record`, or cannot be had. -/
structure Loading (hash : Word → Word) (comp : Word → Word → Partial) (check : Word → Word → Word → Kernel Memory Int)
    (kmalloc : Word → Kernel σ Word) (start size : Word) (s : SymbolState σ) (relocated : Status) (s₁ : SymbolState σ)
    (record : Word) : Prop where
  relocates : ∃ name, (loadRelocated check start size).run s = .ok ((relocated, name), s₁)
  sections : relocated = .Ok → WellFormedSections s₁.memory start size
  symbols : relocated = .Ok → HasSymbols s₁.memory start size → ReadableSymbols s₁.memory start size
  room : HasRoom hash comp s.symbol_table (exportsIn s₁.memory start size (symbolList s₁.memory start size)).length
  growth : (exportsIn s₁.memory start size (symbolList s₁.memory start size)).length ≤ spare s.symbol_table ∨
    GrowthFails kmalloc s.symbol_table s.heap
  allocates : ∃ heap, (kmalloc moduleSize).run s.heap = .ok (record, heap)

/-- Until symbols are inserted, only memory changes. -/
theorem Loading.frame {s : SymbolState σ} (h : Loading hash comp check kmalloc start size s relocated s₁ record) :
    s₁ = { s with memory := s₁.memory } := by
  have hframe : wp (loadRelocated check start size) (fun _ s' => s' = { s with memory := s'.memory }) (fun _ => True) s := by
    unfold loadRelocated
    rw [wp_bind, wp_inMemory]
    refine wp_any (fun result memory => ?_) fun _ => trivial
    rw [wp_ite]
    split
    · exact (wp_pure ..).mpr rfl
    · simp only [wp_bind, wp_get, wp_inMemory, wp_pure]
      exact wp_any (fun _ _ => trivial) fun _ => trivial
  obtain ⟨name, hrun⟩ := h.relocates
  have hresult := wp_ok hframe hrun
  exact hresult

/-- The symbols of the module are inserted, and then not all of them are, or the module record cannot be had. -/
def LoadFails (table : Hashtable) (m : Memory) (start size : Word) (relocated : Status) (record : Word) : Prop :=
  relocated = .Ok → HasSymbols m start size →
    record = 0 ∨ StopsIn m start size (spare table) (symbolList m start size)

/-- The addresses of a name that are left when the load has failed. -/
def remaining (comp : Word → Word → Partial) (table : Hashtable) (m : Memory) (start size : Word) (relocated : Status)
    (name : Word) : List Word :=
  if relocated = .Ok ∧ HasSymbols m start size then
    (addressesWith m start size comp (lookups table name) (spare table) name).drop
      (removals m start size comp name (symbolList m start size))
  else lookups table name

/-- No name is removed too often. -/
def RemovesEnough (comp : Word → Word → Partial) (table : Hashtable) (m : Memory) (start size : Word) : Prop := ∀ name,
  removals m start size comp name (symbolList m start size) ≤
    (addressesWith m start size comp (lookups table name) (spare table) name).length

/-- What a load that has failed leaves. -/
structure Unloaded (hash : Word → Word) (comp : Word → Word → Partial) (s s' : ModuleState σ) (m : Memory) (start size : Word)
    (relocated : Status) : Prop where
  modules : s'.Module_List = s.Module_List
  memory : s'.symbols.memory = m
  table : HasRoom hash comp s'.symbols.symbol_table 0
  lookups_eq : ∀ name, lookups s'.symbols.symbol_table name = remaining comp s.symbols.symbol_table m start size relocated name
  enough : relocated = .Ok → HasSymbols m start size → RemovesEnough comp s.symbols.symbol_table m start size

/-- What `module_load` does. -/
structure LoadResult (hash : Word → Word) (comp : Word → Word → Partial) (s s' : ModuleState σ) (m : Memory) (start size : Word)
    (relocated : Status) (record : Word) (status : Status) : Prop where
  failed : status ≠ .Ok ↔ LoadFails s.symbols.symbol_table m start size relocated record
  unloaded : status ≠ .Ok → Unloaded hash comp s s' m start size relocated
  loaded : status = .Ok → ∃ r, s'.Module_List = r :: s.Module_List

theorem unloaded_of_frame (h : Loading hash comp check kmalloc start size s.symbols relocated s₁ record)
    (hnot : ¬ (relocated = .Ok ∧ HasSymbols s₁.memory start size)) (hstatus : status ≠ .Ok) :
    LoadResult hash comp s { s with symbols := s₁ } s₁.memory start size relocated record status := by
  have htable : s₁.symbol_table = s.symbols.symbol_table := by rw [h.frame]
  refine ⟨iff_of_true hstatus fun hok hboth => absurd ⟨hok, hboth⟩ hnot, fun _ => ⟨rfl, rfl, ?_, fun name => ?_, ?_⟩,
    fun hok => absurd hok hstatus⟩
  · rw [htable]
    exact h.room.mono (Nat.zero_le _)
  · rw [htable, remaining, if_neg hnot]
  · exact fun hok hboth => absurd ⟨hok, hboth⟩ hnot

/-- The symbols of the module are removed once they are inserted. -/
theorem wp_undo {s₂ : SymbolState σ} (fit : Consistent hash comp)
    (h : Loading hash comp check kmalloc start size s.symbols .Ok s₁ record) (hboth : HasSymbols s₁.memory start size)
    (hinserted : Inserted hash comp start size s₁ s₂ status (symbolList s₁.memory start size)) (heap : σ) :
    wp (module_remove_symbols kmalloc kfree start size)
      (fun _ symbols => Unloaded hash comp s { s with symbols := symbols } s₁.memory start size .Ok)
      (fun _ => ¬ RemovesEnough comp s.symbols.symbol_table s₁.memory start size) { s₂ with heap := heap } := by
  have htable : s₁.symbol_table = s.symbols.symbol_table := by rw [h.frame]
  have hmemory : s₂.memory = s₁.memory := hinserted.memory
  have hlookups (name : Word) : lookups s₂.symbol_table name =
      addressesWith s₁.memory start size comp (lookups s.symbols.symbol_table name) (spare s.symbols.symbol_table) name := by
    rw [hinserted.lookups_eq, htable]
    rfl
  have hw : WellFormedSymbols s₂.memory start size := by
    rw [hmemory]
    exact (h.symbols rfl hboth).toWellFormedSymbols
  refine wp_mono (wp_module_remove_symbols (s := { s₂ with heap := heap }) fit hw hinserted.table) ?_ ?_
  · intro _ symbols hremoved
    have henough := hremoved.enough
    have hafter := hremoved.lookups_eq
    simp only [hlookups, hmemory] at henough hafter
    refine ⟨rfl, hremoved.memory.trans hmemory, hremoved.table, fun name => ?_, fun _ _ => henough⟩
    rw [hafter, remaining, if_pos ⟨rfl, hboth⟩]
  · rintro _ ⟨name, hlt⟩ henough
    simp only [hlookups, hmemory] at hlt
    exact absurd (henough name) (Nat.not_le.mpr hlt)

theorem wp_module_load (fit : Consistent hash comp) (h : Loading hash comp check kmalloc start size s.symbols relocated s₁ record) :
    wp (module_load check kmalloc kfree start size)
      (fun status s' => LoadResult hash comp s s' s₁.memory start size relocated record status)
      (fun _ => relocated = .Ok ∧ HasSymbols s₁.memory start size ∧
        LoadFails s.symbols.symbol_table s₁.memory start size relocated record ∧
        ¬ RemovesEnough comp s.symbols.symbol_table s₁.memory start size) s := by
  have htable : s₁.symbol_table = s.symbols.symbol_table := by rw [h.frame]
  have hheap : s₁.heap = s.symbols.heap := by rw [h.frame]
  obtain ⟨name, hrelocates⟩ := h.relocates
  obtain ⟨heap, hmalloc⟩ := h.allocates
  unfold module_load
  rw [wp_bind, wp_inSymbols, wp_of_run hrelocates]
  by_cases hok : relocated = .Ok
  · subst hok
    simp only [ne_eq, not_true_eq_false, if_false]
    rw [wp_bind, wp_inSymbols]
    by_cases hboth : HasSymbols s₁.memory start size
    · have hreadable := h.symbols rfl hboth
      have hroom := h.room
      have hgrowth := h.growth
      rw [← htable, symbolList_eq] at hroom hgrowth
      rw [← hheap] at hgrowth
      have hinsert : wp (insertSymbolsLoop kmalloc kfree _ _ _ _ _ (BitVec.ofNat 64 0)) _ (fun _ => False) s₁ :=
        wp_insertSymbolsLoop_room fit hreadable (Nat.zero_add _) hroom hgrowth
      obtain ⟨status, s₂, hrun, hinserted⟩ := wp_total hinsert
      rw [← symbolList_eq] at hinserted
      have hstops := hinserted.failed
      rw [htable] at hstops
      -- what is to be proved when all is undone
      have hundone : ∀ {failed : Status} {s' : ModuleState σ}, failed ≠ .Ok →
          (record = 0 ∨ StopsIn s₁.memory start size (spare s.symbols.symbol_table) (symbolList s₁.memory start size)) →
          Unloaded hash comp s s' s₁.memory start size .Ok →
          LoadResult hash comp s s' s₁.memory start size .Ok record failed := fun hne hfails hunloaded =>
        ⟨iff_of_true hne fun _ _ => hfails, fun _ => hunloaded, fun hok => absurd hok hne⟩
      rw [wp_module_insert_symbols hreadable.toWellFormedSymbols, wp_of_run hrun]
      by_cases hok : status = .Ok
      · subst hok
        have hnot := mt hstops.mpr (not_not.mpr rfl)
        simp only [ne_eq, not_true_eq_false, if_false]
        rw [wp_bind, wp_inSymbols, wp_inHeap, hinserted.heap rfl, hheap, wp_of_run hmalloc]
        by_cases hrecord : record = 0
        · rw [if_pos hrecord, wp_bind, wp_inSymbols]
          simp only [wp_pure]
          exact wp_mono (wp_undo fit h hboth hinserted heap) (fun _ _ => hundone (by decide) (.inl hrecord))
            fun _ hmuch => ⟨trivial, hboth, fun _ _ => .inl hrecord, hmuch⟩
        · rw [if_neg hrecord, wp_bind, wp_modify, wp_pure]
          refine ⟨iff_of_false (fun hne => hne rfl) fun hfails => ?_, fun hne => absurd rfl hne, fun _ => ⟨_, rfl⟩⟩
          exact (hfails rfl hboth).elim hrecord hnot
      · simp only [ne_eq, hok, not_false_eq_true, if_true, wp_pure]
        exact wp_mono (wp_undo fit h hboth hinserted s₂.heap) (fun _ _ => hundone hok (.inr (hstops.mp hok)))
          fun _ hmuch => ⟨trivial, hboth, fun _ _ => .inr (hstops.mp hok), hmuch⟩
    · rw [wp_module_insert_symbols_missing (h.sections rfl) hboth, if_pos (by decide), wp_pure]
      exact unloaded_of_frame h (fun hand => hboth hand.2) (by decide)
  · simp only [ne_eq, hok, not_false_eq_true, if_true, wp_pure]
    exact unloaded_of_frame h (fun hand => hok hand.1) hok

theorem Unloaded.unchanged_iff (fit : Consistent hash comp) (hbefore : HasRoom hash comp s.symbols.symbol_table n)
    (h : Unloaded hash comp s s' m start size relocated) : Unchanged s s' ↔ ∀ name,
      (remaining comp s.symbols.symbol_table m start size relocated name).headD 0 = (lookups s.symbols.symbol_table name).headD 0 := by
  constructor
  · intro hunchanged name
    have hget := hunchanged.symbols name
    rw [symbol_get_eq_lookups fit hbefore, symbol_get_eq_lookups fit h.table, h.lookups_eq] at hget
    exact Except.ok.inj hget
  · refine fun hall => ⟨fun name => ?_, h.modules⟩
    rw [symbol_get_eq_lookups fit hbefore, symbol_get_eq_lookups fit h.table, h.lookups_eq, hall name]

/-- What must be true of a module for a load that fails to leave the symbols as they were. It is about the image with its
relocations, and the table before the load. -/
def Undoable (comp : Word → Word → Partial) (table : Hashtable) (m : Memory) (start size : Word) : Prop :=
  HasSymbols m start size → RemovesInserted m start size comp (lookups table) (spare table)

end Load

/-! ## A module with one global symbol -/

theorem sameText_equivalence (n : Nat) : Equivalence fun f g : Nat → Byte => SameText f g n := by
  have hall {f g : Nat → Byte} {k : Nat} (h : SameText f g n) (hk : k < n) (hne : ∀ j < k, g j ≠ 0) : ∀ j ≤ k, f j = g j := by
    intro j
    induction j using Nat.strong_induction_on with
    | _ j ih =>
      intro hj
      refine h j (by omega) fun i hi => ?_
      rw [ih i hi (by omega)]
      exact hne i (by omega)
  refine ⟨fun _ _ _ _ => rfl, fun h k hk hne => (hall h hk hne k le_rfl).symm, fun h h' k hk hne => ?_⟩
  rw [h k hk hne]
  refine h' k hk fun j hj => ?_
  rw [← h j (by omega) fun i hi => hne i (by omega)]
  exact hne j hj

/-- A hash function that fits to all comparisons. -/
theorem strFit (m : Memory) : Consistent (fun _ => 0) (strComp m) := by
  have hiff (a b : Word) : strComp m a b = .Partial_Equal ↔ SameText (charAt m a) (charAt m b) Page_Small.toNat := by
    unfold strComp
    split
    · simp [*]
    · simp [*]
  have hequal := sameText_equivalence Page_Small.toNat
  refine ⟨⟨fun a => (hiff a a).mpr (hequal.refl _), fun h => (hiff _ _).mpr (hequal.symm ((hiff _ _).mp h)),
    fun h h' => (hiff _ _).mpr (hequal.trans ((hiff _ _).mp h) ((hiff _ _).mp h'))⟩, fun _ => rfl⟩

/-- An image of 615 bytes at 0x1000 that is signed, with the global symbol `log`. The kernel has this name at 0x5000. -/
def oneGlobal (info index : Word) : Memory :=
  let m := withBytes (filled (fun _ => none) 0x1000 615 0) 0x5000 (ascii "log" ++ [0])
  let m := stored (stored (stored (stored m 8 0x1000 0x2464c457f) 2 0x1010 3) 2 0x1012 62) 4 0x1014 1
  let m := stored (stored (stored (stored m 8 0x1028 64) 2 0x103a 64) 2 0x103c 6) 2 0x103e 5
  let m := withSection (withSection m 0x1080 1 3 0x1c0 1) 0x10c0 9 11 0x208 0
  let m := withSection (withSection m 0x1100 17 4 0x208 0) 0x1140 27 2 0x1f0 24
  let m := withSection m 0x1180 35 3 0x1c0 47
  let m := withBytes m 0x11c0 (["", ".dynstr", ".dynsym", ".rela.dyn", ".symtab", ".strtab", "log"].flatMap (ascii · ++ [0]))
  withBytes (withSymbol m 0x11f0 43 info index 0) 0x1208 (SIGNATURE_MAGIC_STRING ++ [0])

def oneGlobalState (info index : Word) (symbol_table : Hashtable) : ModuleState Unit where
  symbols := ⟨oneGlobal info index, symbol_table, ()⟩
  Module_List := []
  calls := []

/-- The table of the symbols of the kernel, before any is in it. -/
def emptyTable (m : Memory) : Hashtable := ⟨0, 128, fun _ => 0, strComp m, .zeroed 0x9000 (128 * hashdataSize)⟩

/-- The kernel has the symbol `log`. -/
def kernelTable (m : Memory) : Hashtable := putAt (emptyTable m) 0 0x5000 0x77

/-- Nothing can be allocated. -/
def noMemory (_ : Word) : Kernel Unit Word := pure 0

/-- All signatures are good. -/
def anySignature (_ _ _ : Word) : Kernel Memory Int := pure 0

section Function

-- the symbol is a function in the first section
def oneFunction : ModuleState Unit := oneGlobalState 0x12 1 (emptyTable (oneGlobal 0x12 1))

theorem oneFunction_sections : WellFormedSections (oneGlobal 0x12 1) 0x1000 615 := by
  refine wellFormedSections_of
    [[], ascii ".dynstr", ascii ".dynsym", ascii ".rela.dyn", ascii ".symtab", ascii ".strtab"] ?_ (by decide +kernel)
  unfold oneGlobal withSymbol withSection
  repeat first | apply mapped_stored | apply mapped_withBytes
  exact mapped_zeros (by decide)

/-- The only symbol of the module. -/
theorem oneFunction_symbol : symbolList (oneGlobal 0x12 1) 0x1000 615 = [0] ∧
    exportsIn (oneGlobal 0x12 1) 0x1000 615 [0] = [0] ∧ symbolIndex (oneGlobal 0x12 1) 0x1000 615 0 = 1 ∧
    1 < sectionCount (oneGlobal 0x12 1) 0x1000 ∧
    ELF64_ST_BIND (symbolInfo (oneGlobal 0x12 1) 0x1000 615 0) = STB_GLOBAL ∧
    insertedIn (oneGlobal 0x12 1) 0x1000 615 (spare (emptyTable (oneGlobal 0x12 1))) [0] = [0] := by
  decide +kernel

theorem oneFunction_readable : ReadableSymbols (oneGlobal 0x12 1) 0x1000 615 where
  toWellFormedSymbols := wellFormedSymbols_of [ascii "log"] oneFunction_sections (by decide +kernel)
  headers := by
    obtain ⟨hlist, -, hindex, hcount, -⟩ := oneFunction_symbol
    rw [hlist]
    intro i hi _
    obtain rfl : i = 0 := List.mem_singleton.mp (List.mem_of_mem_filter hi)
    rw [hindex]
    exact mapped_field oneFunction_sections hcount (k := 24) (by decide)

theorem emptyTable_table (m : Memory) : IsHashtable (fun _ => 0) (strComp m) (emptyTable m) 0 :=
  Hashtables.zeroed_table rfl rfl (show 0 < (128 : Word).toNat by decide) rfl rfl

theorem emptyTable_lookups (m : Memory) (name : Word) : lookups (emptyTable m) name = [] :=
  lookups_eq_nil (emptyTable_table m) fun _ he => absurd he (Multiset.notMem_zero _)

theorem emptyTable_room (m : Memory) : HasRoom (fun _ => 0) (strComp m) (emptyTable m) 1 where
  table := ⟨0, emptyTable_table m⟩
  covered := Hashtables.zeroed_covered (show (128 : Word).toNat * 24 < 2 ^ 64 by decide) rfl
  big := show 32 ≤ (128 : Word).toNat by decide
  free := by
    have hfree : freeSlots (emptyTable m) = (128 : Word).toNat := freeCells_of_empty fun p hp => by
      have hp : p < (128 * hashdataSize).toNat / hashdataSize.toNat := hp
      simp only [tableCell, emptyTable, HashBuffer.zeroed, if_pos hp, Option.elim_some, hashCell]
    rw [hfree]
    decide

end Function

/-! ## A symbol of the kernel -/

end KernelOfTruth.ModuleRollback
