import KernelOfTruth.Rules
import KernelOfTruth.Spec.Format

/-!
# The output does not depend on the buffer

A state stands for the bytes that have been written and those that wait in the buffer. Each function adds its text to them,
and texts compose.
-/

open KernelOfTruth.Lib KernelOfTruth.Code KernelOfTruth.Code.Format KernelOfTruth.Spec KernelOfTruth.Rules

namespace KernelOfTruth.Format

variable {σ : Type} {E : Halt → Prop} {write : List (List Byte) → Status} {s s' : FormatState} {m n k : Nat}
  {args args' args'' : List Arg} {text text' : List Byte}

/-! ## What a state stands for -/

def sent (s : FormatState) : List Byte := s.blocks.flatten ++ s.buf.toList.take s.top

def AllOk (write : List (List Byte) → Status) (blocks : List (List Byte)) : Prop :=
  ∀ written, written ≠ [] → written <+: blocks → write written = .Ok

/-- No write has failed, and at most `n` bytes wait. -/
structure Ready (write : List (List Byte) → Status) (n : Nat) (s : FormatState) : Prop where
  room : s.top ≤ n
  ok : AllOk write s.blocks

/-- The last write has failed, and what was written is the start of `out`. -/
def Stopped (write : List (List Byte) → Status) (status : Status) (blocks : List (List Byte)) (out : List Byte) : Prop :=
  status ≠ .Ok ∧ write blocks = status ∧ blocks.flatten <+: out ∧ ∃ earlier block, blocks = earlier ++ [block] ∧
    AllOk write earlier

theorem Stopped.append {status : Status} {blocks : List (List Byte)} {out : List Byte}
    (h : Stopped write status blocks out) (more : List Byte) : Stopped write status blocks (out ++ more) :=
  ⟨h.1, h.2.1, h.2.2.1.trans (List.prefix_append out more), h.2.2.2⟩

/-- From a buffer with at most `m` bytes to one with at most `n`, the program adds the text, or a write fails. -/
def Emits (write : List (List Byte) → Status) (m n : Nat) (args args' : List Arg) (text : List Byte)
    (p : Kernel FormatState Status) : Prop :=
  ∀ s, Ready write m s → s.args = args → wp p (fun status s' =>
    (status = .Ok ∧ Ready write n s' ∧ s'.args = args' ∧ sent s' = sent s ++ text) ∨
      Stopped write status s'.blocks (sent s ++ text)) (fun _ => False) s

theorem emits_bubble {p q : Kernel FormatState Status} (hp : Emits write m k args args' text p)
    (hq : Emits write k n args' args'' text' q) : Emits write m n args args'' (text ++ text') (bubble p q) := by
  intro s hready hargs
  unfold bubble
  rw [wp_bind]
  refine wp_imp (hp s hready hargs) ?_
  rintro status s₁ (⟨rfl, hready₁, hargs₁, hsent₁⟩ | hstopped)
  · rw [if_pos rfl]
    refine wp_imp (hq s₁ hready₁ hargs₁) fun status s₂ h => ?_
    rwa [hsent₁, List.append_assoc] at h
  · rw [if_neg hstopped.1, wp_pure, ← List.append_assoc]
    exact .inr (hstopped.append text')

/-! ## The buffer -/

theorem wp_storeBuf {i : Nat} {c : Byte} {Q : Unit → FormatState → Prop} (hi : i < buf_size) :
    wp (storeBuf i c) Q E s ↔ Q () { s with buf := s.buf.set i c hi } := by
  unfold storeBuf
  rw [wp_bind, wp_get, dif_pos hi, wp_set]

theorem take_set_succ {l : List Byte} {i : Nat} {c : Byte} (hi : i < l.length) :
    (l.set i c).take (i + 1) = l.take i ++ [c] := by
  have hi' : i < (l.set i c).length := by rwa [List.length_set]
  rw [List.take_succ_eq_append_getElem hi', List.getElem_set_self, List.take_set_of_le le_rfl]

theorem wp_putChar (c : Byte) (h : Ready write m s) (hm : m < buf_size) :
    wp (putChar c) (fun _ s' => Ready write (m + 1) s' ∧ s'.args = s.args ∧ sent s' = sent s ++ [c]) E s := by
  have htop : s.top < buf_size := Nat.lt_of_le_of_lt h.room hm
  unfold putChar setTop
  rw [wp_bind, wp_get, wp_bind, wp_storeBuf htop, wp_modify]
  refine ⟨⟨Nat.succ_le_succ h.room, h.ok⟩, rfl, ?_⟩
  show s.blocks.flatten ++ (s.buf.set s.top c htop).toList.take (s.top + 1) = sent s ++ [c]
  rw [Vector.toList_set, take_set_succ (by rwa [Vector.length_toList]), ← List.append_assoc]
  rfl

theorem emits_putChar (c : Byte) (hm : m < buf_size) : Emits write m (m + 1) args args [c] (do putChar c; pure .Ok) := by
  rintro s hready rfl
  rw [wp_bind]
  refine wp_imp (wp_putChar c hready hm) ?_
  rintro _ s' ⟨hready', hargs', hsent'⟩
  exact (wp_pure ..).mpr (.inl ⟨rfl, hready', hargs', hsent'⟩)

/-- One more write. -/
theorem allOk_append {blocks : List (List Byte)} {block : List Byte} (h : AllOk write blocks)
    (hok : write (blocks ++ [block]) = .Ok) : AllOk write (blocks ++ [block]) := by
  intro written hne hprefix
  rcases List.prefix_concat_iff.mp hprefix with rfl | hprefix
  · exact hok
  · exact h written hne hprefix

theorem wp_writeBuf (h : Ready write buf_size s) :
    wp (writeBuf write s.top) (fun status s' => s'.args = s.args ∧ s'.blocks.flatten = sent s ∧
      ((status = .Ok ∧ AllOk write s'.blocks) ∨ Stopped write status s'.blocks (sent s))) E s := by
  unfold writeBuf
  rw [if_pos h.room, wp_bind, wp_modify, wp_bind, wp_get, wp_pure]
  have hflat : (s.blocks ++ [s.buf.toList.take s.top]).flatten = sent s := by
    rw [List.flatten_append, List.flatten_singleton, sent]
  refine ⟨rfl, hflat, ?_⟩
  by_cases hok : write (s.blocks ++ [s.buf.toList.take s.top]) = .Ok
  · exact .inl ⟨hok, allOk_append h.ok hok⟩
  · exact .inr ⟨hok, rfl, hflat ▸ List.prefix_rfl, s.blocks, _, rfl, h.ok⟩

theorem emits_flushFull : Emits write buf_size (buf_size - 1) args args [] (flushFull write) := by
  rintro s hready rfl
  rw [List.append_nil]
  unfold flushFull
  rw [wp_bind, wp_get]
  split
  · rename_i hfull
    unfold bubble
    rw [wp_bind, ← hfull]
    refine wp_imp (wp_writeBuf hready) ?_
    rintro status s' ⟨hargs, hflat, ⟨rfl, hok⟩ | hstopped⟩
    · rw [if_pos rfl, wp_bind, setTop, wp_modify, wp_pure]
      refine .inl ⟨rfl, ⟨Nat.zero_le _, hok⟩, hargs, ?_⟩
      rw [sent, List.take_zero, List.append_nil]
      exact hflat
    · rw [if_neg hstopped.1, wp_pure]
      exact .inr hstopped
  · rename_i hroom
    have hle := hready.room
    exact (wp_pure ..).mpr (.inl ⟨rfl, ⟨by omega, hready.ok⟩, rfl, rfl⟩)

/-! ## Strings -/

/-- The characters from number `i` on. -/
structure Rest (string : CString) (i : Nat) (rest : List Byte) : Prop where
  bound : i ≤ string.chars.length
  chars : string.chars.drop i = rest

theorem Rest.start (string : CString) : Rest string 0 string.chars := ⟨Nat.zero_le _, List.drop_zero⟩

theorem Rest.next {string : CString} {i : Nat} {c : Byte} {rest : List Byte} (h : Rest string i (c :: rest)) :
    Rest string (i + 1) rest := by
  have hlt : i < string.chars.length := by
    by_contra hge
    have hnil := List.drop_eq_nil_of_le (Nat.le_of_not_lt hge)
    rw [h.chars] at hnil
    cases hnil
  refine ⟨hlt, ?_⟩
  rw [← List.drop_drop, h.chars]
  rfl

theorem Rest.ne_zero {string : CString} {i : Nat} {c : Byte} {rest : List Byte} (h : Rest string i (c :: rest)) :
    c ≠ 0 := by
  rintro rfl
  refine string.no_nul (List.mem_of_mem_drop (i := i) ?_)
  rw [h.chars]
  exact List.mem_cons_self

theorem Rest.length {string : CString} {i : Nat} {rest : List Byte} (h : Rest string i rest) :
    i + rest.length = string.chars.length := by
  have hbound := h.bound
  rw [← h.chars, List.length_drop]
  omega

theorem wp_at {string : CString} {i : Nat} {rest : List Byte} {st : σ} {Q : Byte → σ → Prop} (h : Rest string i rest) :
    wp (string.at i) Q E st ↔ Q (rest.headD 0) st := by
  have hget : (string.chars ++ [0])[i]? = some (rest.headD 0) := by
    rw [← h.chars]
    rcases Nat.lt_or_eq_of_le h.bound with hlt | rfl
    · rw [List.getElem?_append_left hlt, List.drop_eq_getElem_cons hlt, List.headD_cons, List.getElem?_eq_getElem hlt]
    · rw [List.getElem?_append_right le_rfl, List.drop_length, Nat.sub_self]
      rfl
  unfold CString.at
  rw [hget, wp_pure]

theorem emits_stringLoop {string : CString} {fuel i : Nat} {rest : List Byte} (h : Rest string i rest)
    (hfuel : rest.length < fuel) :
    Emits write (buf_size - 1) (buf_size - 1) args args rest (stringLoop write string fuel i) := by
  induction fuel generalizing i rest with
  | zero => omega
  | succ fuel ih =>
    rintro s hready rfl
    unfold stringLoop
    rw [wp_bind, wp_at h]
    cases rest with
    | nil =>
      rw [List.headD_nil, if_pos rfl, wp_pure]
      exact .inl ⟨rfl, hready, rfl, (List.append_nil _).symm⟩
    | cons c rest =>
      rw [List.headD_cons, if_neg h.ne_zero, wp_bind]
      refine wp_imp (wp_putChar c hready (by decide)) ?_
      rintro _ s₁ ⟨hready₁, hargs₁, hsent₁⟩
      have hloop := emits_bubble emits_flushFull (ih h.next (by simpa using hfuel))
      refine wp_imp (hloop s₁ hready₁ hargs₁) fun status s' hs' => ?_
      rwa [hsent₁, List.nil_append, List.append_assoc] at hs'

theorem emits_print_string (string : CString) :
    Emits write (buf_size - 1) (buf_size - 1) args args string.chars (print_string write string) :=
  emits_stringLoop (Rest.start string) (Nat.lt_succ_self _)

/-! ## Numbers -/

theorem digitsText_length (base count : Nat) (number : Word) : (digitsText base count number).length = count := by
  induction count generalizing number with
  | zero => rfl
  | succ count ih => rw [digitsText, List.length_append, ih, List.length_singleton]

/-- The digits are stored from the last one on, below the slot `i`. -/
theorem wp_numberLoop {base i : Nat} {number : Word} (hi : i ≤ buf_size) :
    wp (numberLoop base i number) (fun _ s' => s'.top = s.top ∧ s'.args = s.args ∧ s'.blocks = s.blocks ∧
      s'.buf.toList = digitsText base i number ++ s.buf.toList.drop i) E s := by
  induction i generalizing s number with
  | zero =>
    unfold numberLoop
    rw [wp_pure]
    exact ⟨rfl, rfl, rfl, rfl⟩
  | succ i ih =>
    unfold numberLoop
    rw [wp_bind, wp_storeBuf hi]
    refine wp_imp (ih (Nat.le_of_succ_le hi)) ?_
    rintro _ s' ⟨htop, hargs, hblocks, hbuf⟩
    refine ⟨htop, hargs, hblocks, ?_⟩
    have hlen : i < (s.buf.toList.set i (digits (number % BitVec.ofNat 64 base).toNat)).length := by
      rw [List.length_set, Vector.length_toList]
      exact hi
    rw [hbuf, Vector.toList_set, List.drop_eq_getElem_cons hlen, List.getElem_set_self,
      List.drop_set_of_lt (Nat.lt_succ_self i), digitsText, List.append_assoc, List.singleton_append]

theorem digitCount_le {base size count : Nat} (h : digitCount base size = some count) (hsize : size ≤ 8) : count ≤ 64 := by
  unfold digitCount at h
  split at h <;> simp only [Option.some.injEq, reduceCtorEq] at h <;> omega

/-- The waiting bytes are written, and the digits take their place. -/
theorem emits_putDigits {base size count : Nat} (number : Word) (hcount : digitCount base size = some count)
    (hsize : size ≤ 8) : Emits write buf_size (buf_size - 1) args args (digitsText base count number)
      (putDigits write base size number) := by
  rintro s h rfl
  have hle := digitCount_le hcount hsize
  have hbuf : buf_size = 256 := rfl
  unfold putDigits bubble
  rw [wp_bind, wp_get, wp_bind, hcount]
  refine wp_imp (wp_writeBuf h) ?_
  rintro status s₁ ⟨hargs, hflat, ⟨rfl, hok⟩ | hstopped⟩
  swap
  · rw [if_neg hstopped.1, wp_pure]
    exact .inr (hstopped.append _)
  rw [if_pos rfl]
  dsimp only
  rw [wp_bind, setTop, wp_modify, wp_bind, wp_assert_decide (by omega), wp_bind]
  refine wp_imp (wp_numberLoop (by omega)) ?_
  rintro _ s₂ ⟨htop, hargs₂, hblocks, hbytes⟩
  rw [wp_pure]
  refine .inl ⟨rfl, ⟨?_, ?_⟩, hargs₂.trans hargs, ?_⟩
  · rw [htop]
    show count ≤ buf_size - 1
    omega
  · rw [hblocks]
    exact hok
  · rw [sent, hblocks, htop, hbytes]
    show s₁.blocks.flatten ++ List.take count _ = _
    rw [hflat, List.take_left' (digitsText_length base count number)]

theorem emits_print_number {is_signed : Bool} {base size : Nat} {number : Word}
    (htext : numberText is_signed base size number = some text) (hsize : size ≤ 8) :
    Emits write (buf_size - 1) (buf_size - 1) args args text (print_number write is_signed base size number) := by
  rintro s hready rfl
  unfold numberText at htext
  obtain ⟨count, hcount, htext⟩ := Option.bind_eq_some_iff.mp htext
  unfold print_number putSign
  rw [wp_bind]
  by_cases hnegative : (is_signed && number.slt 0) = true
  · rw [if_pos hnegative] at htext ⊢
    obtain rfl := Option.some_inj.mp htext
    rw [wp_bind]
    refine wp_imp (wp_putChar (chr '-') hready (by decide)) ?_
    rintro _ s₁ ⟨hready₁, hargs₁, hsent₁⟩
    rw [wp_pure]
    refine wp_imp (emits_putDigits _ hcount hsize s₁ hready₁ hargs₁) fun status s' h => ?_
    rwa [hsent₁, List.append_assoc, List.singleton_append] at h
  · rw [if_neg hnegative] at htext ⊢
    obtain rfl := Option.some_inj.mp htext
    rw [wp_pure]
    exact emits_putDigits _ hcount hsize s ⟨Nat.le_succ_of_le hready.room, hready.ok⟩ rfl

/-! ## Directives -/

theorem emits_mono {p : Kernel FormatState Status} (h : Emits write m k args args' text p) (hle : k ≤ n) :
    Emits write m n args args' text p := by
  intro s hready hargs
  refine wp_imp (h s hready hargs) fun status s' hs' => hs'.imp_left ?_
  rintro ⟨hok, hready', hrest⟩
  exact ⟨hok, ⟨hready'.room.trans hle, hready'.ok⟩, hrest⟩

theorem wp_va_arg {α : Type} {type : Arg → Option α} {arg : Arg} {value : α} {Q : α → FormatState → Prop}
    (hargs : s.args = arg :: args') (hvalue : type arg = some value) :
    wp (va_arg type) Q E s ↔ Q value { s with args := args' } := by
  unfold va_arg
  rw [wp_bind, wp_get, hargs]
  dsimp only
  rw [hvalue]
  dsimp only
  rw [wp_bind, wp_set, wp_pure]

theorem emits_va_arg {α : Type} {type : Arg → Option α} {arg : Arg} {value : α} {f : α → Kernel FormatState Status}
    (hvalue : type arg = some value) (h : Emits write m n args' args'' text (f value)) :
    Emits write m n (arg :: args') args'' text (va_arg type >>= f) := by
  intro s hready hargs
  rw [wp_bind, wp_va_arg hargs hvalue]
  exact h { s with args := args' } ⟨hready.room, hready.ok⟩ rfl

theorem emits_va_number {size size' : Nat} {number : Word} {f : Nat × Word → Kernel FormatState Status}
    (htake : takeNumber size args = some (size', number, args')) (h : Emits write m n args' args'' text (f (size', number))) :
    Emits write m n args args'' text (va_number size >>= f) := by
  unfold takeNumber at htake
  split at htake
  case h_5 => cases htake
  all_goals
    simp only [Option.some.injEq, Prod.mk.injEq] at htake
    obtain ⟨rfl, rfl, rfl⟩ := htake
    simp only [va_number, bind_assoc, pure_bind]
    exact emits_va_arg rfl h

theorem takeNumber_size {size size' : Nat} {number : Word} (htake : takeNumber size args = some (size', number, args')) :
    size' ≤ 8 := by
  unfold takeNumber at htake
  split at htake <;> simp only [Option.some.injEq, Prod.mk.injEq, reduceCtorEq] at htake <;> omega

/-- The number that is next is printed. -/
theorem emits_number {is_signed : Bool} {base size size' : Nat} {number : Word}
    (htake : takeNumber size args = some (size', number, args')) (htext : numberText is_signed base size' number = some text) :
    Emits write (buf_size - 1) (buf_size - 1) args args' text (do
      let (size, number) ← va_number size
      print_number write is_signed base size number) :=
  emits_va_number htake (emits_print_number htext (takeNumber_size htake))

theorem emits_convert {conv : Conversion} {size : Nat} (h : convertText conv size args = some (text, args')) :
    Emits write (buf_size - 1) buf_size args args' text (convert write conv size) := by
  unfold convertText at h
  cases conv with
  | number is_signed base =>
    obtain ⟨⟨size', number, rest⟩, htake, h⟩ := Option.bind_eq_some_iff.mp h
    obtain ⟨text', htext, h⟩ := Option.bind_eq_some_iff.mp h
    obtain ⟨rfl, rfl⟩ := Prod.mk.inj (Option.some_inj.mp h)
    exact emits_mono (emits_number htake htext) (by decide)
  | pointer =>
    obtain ⟨⟨size', number, rest⟩, htake, h⟩ := Option.bind_eq_some_iff.mp h
    obtain ⟨text', htext, h⟩ := Option.bind_eq_some_iff.mp h
    obtain ⟨rfl, rfl⟩ := Prod.mk.inj (Option.some_inj.mp h)
    exact emits_mono (emits_number htake htext) (by decide)
  | character =>
    dsimp only at h
    split at h
    · obtain ⟨rfl, rfl⟩ := Prod.mk.inj (Option.some_inj.mp h)
      exact emits_va_arg rfl (emits_putChar _ (by decide))
    · cases h
  | string =>
    dsimp only at h
    split at h
    · obtain ⟨rfl, rfl⟩ := Prod.mk.inj (Option.some_inj.mp h)
      exact emits_va_arg rfl (emits_mono (emits_print_string _) (by decide))
    · cases h
  | percent =>
    obtain ⟨rfl, rfl⟩ := Prod.mk.inj (Option.some_inj.mp h)
    exact emits_putChar _ (by decide)

/-! ## The format -/

/-- A modifier at `format[i + 1]` that may stand twice. -/
theorem wp_doubled {format : CString} {i one two : Nat} {c : Byte} {rest : List Byte} {st : σ} {Q : Nat × Nat → σ → Prop}
    (h : Rest format (i + 1) (c :: rest)) (hQ : ∀ i', Rest format i' ((doubled c one two rest).2.1 :: (doubled c one two rest).2.2) →
      Q ((doubled c one two rest).1, i') st) :
    wp (do if (← format.at (i + 2)) = c then pure (two, i + 2) else pure (one, i + 1)) Q E st := by
  have h' : Rest format (i + 2) rest := h.next
  rw [wp_bind, wp_at h']
  cases rest with
  | nil =>
    rw [List.headD_nil, if_neg h.ne_zero.symm, wp_pure]
    exact hQ _ h
  | cons d rest =>
    simp only [doubled] at hQ
    rw [List.headD_cons]
    split at hQ
    · rename_i hd
      rw [if_pos hd, wp_pure]
      exact hQ _ (hd ▸ h')
    · rename_i hd
      rw [if_neg hd, wp_pure]
      exact hQ _ h

/-- The modifiers behind the `%` at `format[i]`: the character at the new `i` is the last one of the directive so far. -/
theorem wp_modifiers {format : CString} {i : Nat} {rest : List Byte} {st : σ} {Q : Nat × Nat → σ → Prop}
    (h : Rest format i (chr '%' :: rest)) (hQ : ∀ i', Rest format i' ((modifierOf rest).2.1 :: (modifierOf rest).2.2) →
      Q ((modifierOf rest).1, i') st) : wp (modifiers format i) Q E st := by
  have h' : Rest format (i + 1) rest := h.next
  unfold modifiers
  rw [wp_bind, wp_at h']
  cases rest with
  | nil =>
    rw [List.headD_nil, if_neg (by decide), if_neg (by decide), if_neg (by decide), wp_pure]
    exact hQ i h
  | cons c rest =>
    simp only [modifierOf] at hQ
    rw [List.headD_cons]
    split_ifs at hQ ⊢ with hl hh hz
    · rw [← hl]
      exact wp_doubled h' hQ
    · rw [← hh]
      exact wp_doubled h' hQ
    · exact (wp_pure ..).mpr (hQ _ h')
    · exact (wp_pure ..).mpr (hQ _ h)

theorem formatText_literal {c : Byte} {rest : List Byte} (h : ¬ (c = chr '%' ∧ rest ≠ [])) :
    formatText (c :: rest) args = (formatText rest args).bind fun text => some (c :: text) := by
  rw [formatText, if_neg h]
  rfl

theorem formatText_directive {rest : List Byte} (h : rest ≠ []) : formatText (chr '%' :: rest) args =
    match (modifierOf rest).2.2 with
    | [] => some [(modifierOf rest).2.1]
    | d :: rest' =>
      match conversion d with
      | none => (formatText (d :: rest') args).bind fun text => some ((modifierOf rest).2.1 :: text)
      | some conv => (convertText conv (modifierOf rest).1 args).bind fun (text, args) =>
        (formatText rest' args).bind fun texts => some (text ++ texts) := by
  rw [formatText, if_pos ⟨rfl, h⟩]
  split
  · rename_i hmodifier
    simp only [hmodifier]
  · rename_i hmodifier
    simp only [hmodifier]
    rfl

/-- The start of the text has been added, and the rest of the format has the rest of it. -/
structure Shown (write : List (List Byte) → Status) (format : CString) (i : Nat) (text : List Byte) (s s' : FormatState)
    (rest shown more : List Byte) : Prop where
  ready : Ready write buf_size s'
  place : Rest format (i + 1) rest
  added : sent s' = sent s ++ shown
  left : formatText rest s'.args = some more
  whole : text = shown ++ more

/-- What a round does. There are at most `bound` characters behind it. -/
def RoundRight (write : List (List Byte) → Status) (format : CString) (bound : Nat) (text : List Byte) (s : FormatState)
    (r : Status × Nat) (s' : FormatState) : Prop :=
  (r.1 = .Ok ∧ ∃ rest shown more, Shown write format r.2 text s s' rest shown more ∧ rest.length ≤ bound) ∨
    Stopped write r.1 s'.blocks (sent s ++ text)

/-- A character that stands for itself. -/
theorem wp_literal {format : CString} {i bound : Nat} {c : Byte} {rest more : List Byte} (hplace : Rest format i (c :: rest))
    (hready : Ready write (buf_size - 1) s) (hmore : formatText rest s.args = some more) (hbound : rest.length ≤ bound) :
    wp (do putChar c; pure (.Ok, i)) (RoundRight write format bound (c :: more) s) E s := by
  rw [wp_bind]
  refine wp_imp (wp_putChar c hready (by decide)) ?_
  rintro _ s' ⟨hready', hargs, hsent⟩
  rw [wp_pure]
  rw [← hargs] at hmore
  exact .inl ⟨rfl, rest, [c], more, ⟨hready', hplace.next, hsent, hmore, rfl⟩, hbound⟩

theorem wp_directive {format : CString} {i : Nat} {rest : List Byte} (hrest : Rest format i (chr '%' :: rest))
    (hne : rest ≠ []) (htext : formatText (chr '%' :: rest) s.args = some text) (hready : Ready write (buf_size - 1) s) :
    wp (directive write format i) (RoundRight write format rest.length text s) (fun _ => False) s := by
  have hle := modifierOf_length rest
  rw [formatText_directive hne] at htext
  unfold directive
  rw [wp_bind]
  refine wp_modifiers hrest fun i' hi' => ?_
  generalize modifierOf rest = modifier at *
  obtain ⟨size, last, behind⟩ := modifier
  dsimp only at *
  rw [wp_bind, wp_at hi'.next]
  cases behind with
  | nil =>
    obtain rfl := Option.some_inj.mp htext
    rw [List.headD_nil, show conversion 0 = none by decide]
    dsimp only
    rw [wp_bind, wp_at hi']
    exact wp_literal hi' hready (by rw [formatText]) hle
  | cons d rest' =>
    rw [List.headD_cons]
    cases hconv : conversion d with
    | none =>
      simp only [hconv] at htext
      obtain ⟨more, hmore, htext⟩ := Option.bind_eq_some_iff.mp htext
      obtain rfl := Option.some_inj.mp htext
      dsimp only
      rw [wp_bind, wp_at hi']
      exact wp_literal hi' hready hmore hle
    | some conv =>
      simp only [hconv] at htext
      obtain ⟨⟨shown, args'⟩, hshown, htext⟩ := Option.bind_eq_some_iff.mp htext
      obtain ⟨more, hmore, htext⟩ := Option.bind_eq_some_iff.mp htext
      obtain rfl := Option.some_inj.mp htext
      dsimp only
      rw [wp_bind]
      refine wp_imp (emits_convert hshown s hready rfl) ?_
      rintro status s' (⟨rfl, hready', rfl, hsent⟩ | hstopped)
      · rw [wp_pure]
        exact .inl ⟨rfl, rest', shown, more, ⟨hready', hi'.next.next, hsent, hmore, rfl⟩, Nat.le_of_succ_le hle⟩
      · rw [wp_pure]
        refine .inr ?_
        rw [← List.append_assoc]
        exact hstopped.append more

theorem wp_formatStep {format : CString} {i : Nat} {c : Byte} {rest : List Byte} (hrest : Rest format i (c :: rest))
    (htext : formatText (c :: rest) s.args = some text) (hready : Ready write (buf_size - 1) s) :
    wp (formatStep write format i c) (RoundRight write format rest.length text s) (fun _ => False) s := by
  have hliteral : ¬ (c = chr '%' ∧ rest ≠ []) →
      wp (do putChar c; pure (.Ok, i)) (RoundRight write format rest.length text s) (fun _ => False) s := by
    intro h
    rw [formatText_literal h] at htext
    obtain ⟨more, hmore, htext⟩ := Option.bind_eq_some_iff.mp htext
    obtain rfl := Option.some_inj.mp htext
    exact wp_literal hrest hready hmore le_rfl
  unfold formatStep isDirective
  rw [wp_bind]
  by_cases hpercent : c = chr '%'
  · subst hpercent
    rw [if_pos rfl, wp_bind, wp_at hrest.next, wp_pure]
    cases rest with
    | nil =>
      rw [List.headD_nil, if_neg (by decide)]
      exact hliteral fun h => h.2 rfl
    | cons d rest' =>
      rw [List.headD_cons, if_pos (decide_eq_true hrest.next.ne_zero)]
      exact wp_directive hrest (List.cons_ne_nil _ _) htext hready
  · rw [if_neg hpercent, wp_pure, if_neg Bool.false_ne_true]
    exact hliteral fun h => hpercent h.1

/-- Everything has been written, or a write has failed. -/
def Finished (write : List (List Byte) → Status) (status : Status) (blocks : List (List Byte)) (out : List Byte) : Prop :=
  (status = .Ok ∧ AllOk write blocks ∧ blocks.flatten = out) ∨ Stopped write status blocks out

theorem wp_formatLoop {format : CString} {fuel i : Nat} {rest : List Byte} (hrest : Rest format i rest)
    (hfuel : rest.length < fuel) (htext : formatText rest s.args = some text) (hready : Ready write (buf_size - 1) s) :
    wp (formatLoop write format fuel i) (fun status s' => Finished write status s'.blocks (sent s ++ text))
      (fun _ => False) s := by
  induction fuel generalizing i rest s text with
  | zero => omega
  | succ fuel ih =>
    unfold formatLoop
    rw [wp_bind, wp_at hrest]
    cases rest with
    | nil =>
      rw [formatText] at htext
      obtain rfl := Option.some_inj.mp htext
      rw [List.headD_nil, if_pos rfl, wp_bind, wp_get, List.append_nil]
      refine wp_imp (wp_writeBuf ⟨Nat.le_succ_of_le hready.room, hready.ok⟩) ?_
      rintro status s' ⟨-, hflat, ⟨hok, hall⟩ | hstopped⟩
      · exact .inl ⟨hok, hall, hflat⟩
      · exact .inr hstopped
    | cons c rest =>
      rw [List.headD_cons, if_neg hrest.ne_zero, wp_bind]
      refine wp_imp (wp_formatStep hrest htext hready) ?_
      rintro ⟨status, i'⟩ s₁ (⟨hok, rest', shown, more, hshown, hle⟩ | hstopped)
      swap
      · dsimp only
        rw [if_pos hstopped.1, wp_pure]
        exact .inr hstopped
      dsimp only at hok ⊢
      unfold bubble
      rw [if_neg (not_not.mpr hok), wp_bind]
      refine wp_imp (emits_flushFull s₁ hshown.ready rfl) ?_
      rintro status' s₂ (⟨rfl, hready₂, hargs₂, hsent₂⟩ | hstopped)
      · rw [if_pos rfl]
        have hmore : formatText rest' s₂.args = some more := hargs₂ ▸ hshown.left
        rw [List.length_cons] at hfuel
        refine wp_imp (ih hshown.place (by omega) hmore hready₂) fun status s' h => ?_
        rwa [hsent₂, List.append_nil, hshown.added, List.append_assoc, ← hshown.whole] at h
      · rw [if_neg hstopped.1, wp_pure]
        refine .inr ?_
        rw [hshown.whole, ← List.append_assoc, ← hshown.added]
        rw [List.append_nil] at hstopped
        exact hstopped.append more

/-! ## `vfprintf` -/

theorem Finished.right {status : Status} {blocks : List (List Byte)} (h : Finished write status blocks text) :
    OutputRight write text status blocks := by
  refine ⟨fun hall => ?_, fun earlier block hprefix hfailed => ?_⟩
  · rcases h with ⟨hok, -, hflat⟩ | ⟨hne, rfl, -, e, b, rfl, -⟩
    · exact ⟨hflat, hok⟩
    · exact absurd (hall _ (by simp) List.prefix_rfl) hne
  · rcases h with ⟨-, hall, -⟩ | ⟨-, rfl, hstart, e, b, rfl, hall⟩
    · exact absurd (hall _ (by simp) hprefix) hfailed
    · rcases List.prefix_concat_iff.mp hprefix with heq | hprefix
      · rw [← heq] at hstart ⊢
        refine ⟨rfl, List.IsPrefix.trans ?_ hstart⟩
        rw [List.flatten_append]
        exact List.prefix_append _ _
      · exact absurd (hall _ (by simp) hprefix) hfailed

theorem wp_vfprintf {format : CString} (hblocks : s.blocks = []) (htext : formatText format.chars s.args = some text) :
    wp (vfprintf (some write) format) (fun status s' => Finished write status s'.blocks text) (fun _ => False) s := by
  have hready : Ready write (buf_size - 1) { s with top := 0 } := by
    refine ⟨Nat.zero_le _, fun written hne hprefix => absurd ?_ hne⟩
    rw [hblocks] at hprefix
    exact List.prefix_nil.mp hprefix
  have hempty : sent { s with top := 0 } = [] := by rw [sent, hblocks, List.take_zero]; rfl
  unfold vfprintf
  rw [wp_bind, setTop, wp_modify]
  refine wp_imp (wp_formatLoop (Rest.start format) (Nat.lt_succ_self _) htext hready) fun status s' h => ?_
  rwa [hempty, List.nil_append] at h

/-- For every file that has a `write`, what it gets is the text of the formatter without a buffer, or the start of that
text up to a write that fails. The call returns, so that no slot of the buffer from 256 on and no character behind the NUL
has been used. A file without a `write` gets nothing. -/
theorem output_unbuffered (write : List (List Byte) → Status) (format : CString) (s : FormatState)
    (hblocks : s.blocks = []) (htext : formatText format.chars s.args = some text) :
    (∃ status s', (vfprintf (some write) format).run s = .ok (status, s') ∧ OutputRight write text status s'.blocks) ∧
    ∃ s', (vfprintf none format).run s = .ok (.Error_Permissions, s') ∧ s'.blocks = [] := by
  refine ⟨?_, _, rfl, hblocks⟩
  have hwp : wp (vfprintf (some write) format) _ _ s := wp_vfprintf hblocks htext
  obtain ⟨status, s', hrun, hfinished⟩ := wp_total hwp
  exact ⟨status, s', hrun, hfinished.right⟩

/-- The arguments of `vfprintf(file, "%s!", "ok")`. -/
def greeting : FormatState := ⟨Vector.replicate 256 0, 0, [.string (some ⟨ascii "ok", by decide⟩)], []⟩

theorem greeting_unbuffered : formatText (ascii "%s!") greeting.args = some (ascii "ok!") ∧
    ∃ status s', (vfprintf (some fun _ => .Ok) ⟨ascii "%s!", by decide⟩).run greeting = .ok (status, s') ∧
      OutputRight (fun _ => .Ok) (ascii "ok!") status s'.blocks := by
  have htext : formatText (ascii "%s!") greeting.args = some (ascii "ok!") := by
    have hrest : formatText [chr '!'] [] = some [chr '!'] := by
      rw [formatText_literal (by decide), formatText]
      rfl
    show formatText (chr '%' :: [chr 's', chr '!']) greeting.args = _
    rw [formatText_directive (List.cons_ne_nil _ _)]
    show (formatText [chr '!'] []).bind (fun texts => some (ascii "ok" ++ texts)) = _
    rw [hrest]
    rfl
  exact ⟨htext, (output_unbuffered _ ⟨ascii "%s!", by decide⟩ greeting rfl htext).1⟩

end KernelOfTruth.Format
