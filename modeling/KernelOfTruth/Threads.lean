import KernelOfTruth.Strings
import KernelOfTruth.Spec.Threads
import Mathlib.Data.List.GetD

/-!
# A thread does not see that it was switched

A thread that waits has on its stack a frame of words: the flags, the registers and the address to return to.
-/

open KernelOfTruth.Lib KernelOfTruth.Code KernelOfTruth.Spec KernelOfTruth.Strings

namespace KernelOfTruth.Threads

variable {E : Halt → Prop} {c : Cpu}

/-! ## Instructions -/

theorem wp_onMemory {α : Type} {p : Kernel Memory α} {Q : α → Cpu → Prop} :
    wp (onMemory p) Q E c ↔ wp p (fun a m => Q a { c with mem := m }) E c.mem := wp_zoom ..

theorem wp_pushWord {w : Word} {Q : Unit → Cpu → Prop} : wp (pushWord w) Q E c ↔ Guarded (Mapped c.mem (c.rsp - 8) 8)
    (Q () { c with rsp := c.rsp - 8, mem := stored c.mem 8 (c.rsp - 8) w }) (E .page_fault) := by
  unfold pushWord
  simp only [wp_bind, wp_get, wp_onMemory, wp_store (show 8 < 2 ^ 64 by decide), wp_modify]

theorem wp_popWord {Q : Word → Cpu → Prop} : wp popWord Q E c ↔
    Guarded (Mapped c.mem c.rsp 8) (Q (wordAt c.mem 8 c.rsp) { c with rsp := c.rsp + 8 }) (E .page_fault) := by
  unfold popWord
  simp only [wp_bind, wp_get, wp_onMemory, wp_load, wp_modify, wp_pure]

theorem wp_execAll_append {is js : List Instr} {Q : Unit → Cpu → Prop} :
    wp (execAll (is ++ js)) Q E c ↔ wp (execAll is) (fun _ c' => wp (execAll js) Q E c') E c := by
  induction is generalizing c with
  | nil =>
    rw [List.nil_append, execAll, wp_pure]
  | cons i is ih =>
    rw [List.cons_append, execAll, execAll, wp_bind, wp_bind]
    simp only [ih]

theorem wp_execAll_cons {i : Instr} {is : List Instr} {Q : Unit → Cpu → Prop} :
    wp (execAll (i :: is)) Q E c ↔ wp i.exec (fun _ c' => wp (execAll is) Q E c') E c := by
  rw [execAll, wp_bind]

/-! ## Frames -/

/-- The words are in memory from `sp` on. -/
def Frame (m : Memory) (sp : Word) (ws : List Word) : Prop :=
  ∀ i (h : i < ws.length), Mapped m (sp + BitVec.ofNat 64 (8 * i)) 8 ∧ wordAt m 8 (sp + BitVec.ofNat 64 (8 * i)) = ws[i]

variable {m : Memory} {sp : Word} {ws : List Word}

theorem add_words (a : Word) (n : Nat) : a + 8 + BitVec.ofNat 64 (8 * n) = a + BitVec.ofNat 64 (8 * (n + 1)) := by
  rw [Nat.mul_add, Nat.add_comm, BitVec.ofNat_add, BitVec.add_assoc]
  rfl

theorem sub_words (a : Word) (n : Nat) : a - 8 - BitVec.ofNat 64 (8 * n) = a - BitVec.ofNat 64 (8 * (n + 1)) := by
  rw [Nat.mul_add, Nat.add_comm, BitVec.ofNat_add, BitVec.sub_sub]
  rfl

theorem sub_words_add (a : Word) (n : Nat) : a - BitVec.ofNat 64 (8 * (n + 1)) + BitVec.ofNat 64 (8 * n) = a - 8 := by
  rw [← sub_words, BitVec.sub_add_cancel]

theorem frame_cons {w : Word} :
    Frame m sp (w :: ws) ↔ (Mapped m sp 8 ∧ wordAt m 8 sp = w) ∧ Frame m (sp + 8) ws := by
  have hnext := add_words sp
  unfold Frame
  constructor
  · intro h
    refine ⟨by simpa only [Nat.mul_zero, BitVec.add_zero, List.getElem_cons_zero] using h 0 (Nat.succ_pos _), fun i hi => ?_⟩
    rw [hnext]
    exact h (i + 1) (by simpa using hi)
  · rintro ⟨hfirst, hrest⟩ i hi
    cases i with
    | zero => simpa using hfirst
    | succ i =>
      rw [← hnext]
      exact hrest i (by simpa using hi)

theorem Frame.congr {m' : Memory} (hlen : 8 * ws.length ≤ 2 ^ 64) (h : Frame m sp ws)
    (hsame : ∀ x, Covers sp (8 * ws.length) x → m' x = m x) : Frame m' sp ws := by
  intro i hi
  have hsame' : ∀ x, Covers (sp + BitVec.ofNat 64 (8 * i)) 8 x → m' x = m x :=
    fun x hx => hsame x (covers_part (by omega) hlen hx)
  rw [mapped_congr (by decide) hsame', wordAt_congr (by decide) hsame']
  exact h i hi

/-- Two words of a stack are the same or apart. -/
theorem words_apart {i k : Nat} {x : Word} (hi : 8 * i < 2 ^ 64 - 8) (hk : 8 * k < 2 ^ 64 - 8) (hne : i ≠ k)
    (h : Covers (sp + BitVec.ofNat 64 (8 * i)) 8 x) : ¬ Covers (sp + BitVec.ofNat 64 (8 * k)) 8 x := by
  unfold Covers at *
  bv_omega

theorem Frame.set {k : Nat} (v : Word) (hlen : 8 * ws.length < 2 ^ 64 - 8) (hk : k < ws.length) (h : Frame m sp ws) :
    Frame (stored m 8 (sp + BitVec.ofNat 64 (8 * k)) v) sp (ws.set k v) := by
  intro i hi
  rw [List.length_set] at hi
  obtain ⟨hmapped, hword⟩ := h i hi
  refine ⟨mapped_stored hmapped, ?_⟩
  by_cases hik : i = k
  · subst hik
    rw [wordAt_stored, List.getElem_set_self]
  · rw [List.getElem_set_ne (Ne.symm hik), ← hword]
    refine wordAt_congr (by decide) fun x hx => stored_of_not_covers ?_
    exact words_apart (by omega) (by omega) hik hx

theorem Frame.push (w : Word) (hlen : 8 * ws.length < 2 ^ 64 - 8) (hmapped : Mapped m (sp - 8) 8) (h : Frame m sp ws) :
    Frame (stored m 8 (sp - 8) w) (sp - 8) (w :: ws) := by
  rw [frame_cons, BitVec.sub_add_cancel]
  refine ⟨⟨mapped_stored hmapped, wordAt_stored ..⟩, h.congr (by omega) fun x hx => stored_of_not_covers ?_⟩
  unfold Covers at *
  bv_omega

/-! ## Registers on the stack -/

-- the words below are of the registers that were pushed before
theorem wp_pushAll (rs : List Reg) (hlen : 8 * (ws.length + rs.length) < 2 ^ 64 - 8) (hframe : Frame c.mem c.rsp ws) :
    wp (execAll (rs.map .push)) (fun _ c' => ∃ m', c' = { c with rsp := c.rsp - BitVec.ofNat 64 (8 * rs.length), mem := m' } ∧
      Frame m' (c.rsp - BitVec.ofNat 64 (8 * rs.length)) (rs.reverse.map c.reg ++ ws) ∧
      ∀ x, ¬ Covers (c.rsp - BitVec.ofNat 64 (8 * rs.length)) (8 * rs.length) x → m' x = c.mem x) (fun _ => True) c := by
  induction rs generalizing c ws with
  | nil => exact (wp_pure ..).mpr ⟨c.mem, by simp, by simpa using hframe, fun _ _ => rfl⟩
  | cons r rs ih =>
    rw [List.length_cons] at hlen
    rw [List.map_cons, wp_execAll_cons, Instr.exec, wp_bind, wp_get, wp_pushWord]
    refine ⟨fun hmapped => ?_, fun _ => trivial⟩
    have hrsp := sub_words c.rsp rs.length
    have hrest := ih (c := { c with rsp := c.rsp - 8, mem := stored c.mem 8 (c.rsp - 8) (c.reg r) })
      (by rw [List.length_cons]; omega) (hframe.push (c.reg r) (by omega) hmapped)
    simp only [hrsp] at hrest
    refine wp_imp hrest ?_
    rintro _ _ ⟨m', rfl, hframe', hsame⟩
    refine ⟨m', rfl, ?_, fun x hx => ?_⟩
    · rw [List.reverse_cons, List.map_append, List.append_assoc]
      exact hframe'
    · rw [List.length_cons] at hx
      have hrest' : ¬ Covers (c.rsp - BitVec.ofNat 64 (8 * (rs.length + 1))) (8 * rs.length) x :=
        fun h => hx (covers_mono h (by omega))
      have hfirst : ¬ Covers (c.rsp - 8) 8 x := by
        rw [← sub_words_add _ rs.length]
        exact fun h => hx (covers_part (by omega) (by omega) h)
      rw [hsame x hrest', stored_of_not_covers hfirst]

theorem wp_popAll {rs : List Reg} {g : Reg → Word} {Q : Unit → Cpu → Prop} (hframe : Frame c.mem c.rsp (rs.map g ++ ws)) :
    wp (execAll (rs.map .pop)) Q E c ↔ Q () { c with
      rsp := c.rsp + BitVec.ofNat 64 (8 * rs.length), reg := fun r => if r ∈ rs then g r else c.reg r } := by
  induction rs generalizing c with
  | nil =>
    rw [List.map_nil, execAll, wp_pure]
    simp
  | cons r rs ih =>
    rw [List.map_cons, List.cons_append, frame_cons] at hframe
    obtain ⟨⟨hmapped, hword⟩, hframe⟩ := hframe
    rw [List.map_cons, wp_execAll_cons, Instr.exec, wp_bind, wp_popWord, guarded_of hmapped, wp_modify, hword, ih hframe]
    have hrsp := add_words c.rsp rs.length
    have hreg : (fun r' => if r' ∈ rs then g r' else Function.update c.reg r (g r) r') =
        fun r' => if r' ∈ r :: rs then g r' else c.reg r' := by
      funext r'
      by_cases hr : r' = r
      · subst hr
        simp
      · simp [hr]
    simp only [hrsp, hreg, List.length_cons]

/-! ## `_thread_switch` -/

/-- In the order in which they are pushed. -/
def savedRegs : List Reg := [.rax, .rbx, .rcx, .rdx, .rbp, .rsi, .rdi, .r8, .r9, .r10, .r11, .r12, .r13, .r14, .r15]

theorem mem_savedRegs (r : Reg) : r ∈ savedRegs.reverse := by
  cases r <;> decide

theorem thread_switch_eq : _thread_switch =
    (savedRegs.map .push ++ [.pushf, .save_rsp .rsi, .load_cr3 .rdx, .load_rsp .rdi]) ++
      ([.popf] ++ (savedRegs.reverse.map .pop ++ [.sti, .ret])) := rfl

def frameWords (ctx : Context) : List Word := ctx.rflags :: (savedRegs.reverse.map ctx.reg ++ [ctx.rip])

theorem frameWords_length (ctx : Context) : (frameWords ctx).length = 17 := rfl

theorem frame_nil : Frame m sp [] := fun _ h => absurd h (Nat.not_lt_zero _)

/-- The first half, on the stack of the old thread, which has the return address on top. -/
theorem wp_save {rip : Word} (hframe : Frame c.mem c.rsp [rip]) :
    wp (execAll (savedRegs.map .push ++ [.pushf, .save_rsp .rsi, .load_cr3 .rdx, .load_rsp .rdi]))
      (fun _ c' => ∃ m', c' = { c with
          rsp := c.reg .rdi, cr3 := c.reg .rdx, mem := stored m' 8 (c.reg .rsi) (c.rsp - 128) } ∧
        Frame m' (c.rsp - 128) (c.rflags :: (savedRegs.reverse.map c.reg ++ [rip])) ∧
        ∀ x, ¬ Covers (c.rsp - 128) 128 x → m' x = c.mem x) (fun _ => True) c := by
  rw [wp_execAll_append]
  refine wp_imp (wp_pushAll savedRegs (by simp [savedRegs]) hframe) ?_
  have hlen : savedRegs.length = 15 := rfl
  have hrsp : c.rsp - BitVec.ofNat 64 (8 * 15) - 8 = c.rsp - 128 := by bv_omega
  rintro _ _ ⟨m₁, rfl, hframe₁, hsame⟩
  rw [hlen] at hframe₁ hsame
  simp only [hlen, wp_execAll_cons, Instr.exec, wp_bind, wp_get, wp_pushWord]
  refine ⟨fun hmapped => ?_, fun _ => trivial⟩
  simp only [wp_onMemory, wp_store (show 8 < 2 ^ 64 by decide)]
  refine ⟨fun _ => ?_, fun _ => trivial⟩
  rw [wp_modify, wp_modify, execAll, wp_pure]
  have hframe₂ := hframe₁.push c.rflags (by simp [savedRegs]) hmapped
  rw [hrsp] at hframe₂
  refine ⟨stored m₁ 8 (c.rsp - 128) c.rflags, by simp only [hrsp], hframe₂, fun x hx => ?_⟩
  have hfirst : ¬ Covers (c.rsp - 128) 8 x := fun h => hx (covers_mono h (by decide))
  have hrest : ¬ Covers (c.rsp - BitVec.ofNat 64 (8 * 15)) (8 * 15) x := by
    rw [show c.rsp - BitVec.ofNat 64 (8 * 15) = c.rsp - 128 + BitVec.ofNat 64 8 by bv_omega]
    exact fun h => hx (covers_part (by decide) (by decide) h)
  rw [stored_of_not_covers hfirst, hsame x hrest]

/-- The second half, on the stack of the new thread. -/
theorem wp_restore {ctx : Context} {Q : Unit → Cpu → Prop} (hframe : Frame c.mem c.rsp (frameWords ctx)) :
    wp (execAll ([.popf] ++ (savedRegs.reverse.map .pop ++ [.sti, .ret]))) Q E c ↔ Q () { c with
      reg := ctx.reg, rsp := c.rsp + 136, rip := ctx.rip, rflags := ctx.rflags ||| CPU_Flag_Interrupts } := by
  obtain ⟨⟨hmapped, hword⟩, hregs⟩ := frame_cons.mp hframe
  rw [List.singleton_append, wp_execAll_cons, Instr.exec, wp_bind, wp_popWord, guarded_of hmapped, wp_modify, hword,
    wp_execAll_append, wp_popAll hregs]
  have hlast : Mapped c.mem (c.rsp + 8 + BitVec.ofNat 64 (8 * 15)) 8 ∧
      wordAt c.mem 8 (c.rsp + 8 + BitVec.ofNat 64 (8 * 15)) = ctx.rip := hregs 15 (show 15 < 16 by decide)
  have hlen : savedRegs.reverse.length = 15 := rfl
  have hrsp : c.rsp + 8 + BitVec.ofNat 64 (8 * 15) + 8 = c.rsp + 136 := by bv_omega
  simp only [mem_savedRegs, if_true, hlen]
  rw [wp_execAll_cons, Instr.exec, wp_modify, wp_execAll_cons, Instr.exec, wp_bind, wp_popWord, guarded_of hlast.1,
    wp_modify, execAll, wp_pure, hlast.2]
  simp only [hrsp]

/-! ## A thread that waits -/

section Wait

variable {T : Type} {threads : T → Thread} {privilege_level_switch : Word} {t : T} {r : Resume}

/-- The thread has a frame on its stack, and to go on with the words of the frame is to go on as it should. -/
def Waits (threads : T → Thread) (privilege_level_switch : Word) (m : Memory) (t : T) (r : Resume) : Prop :=
  ∃ sp ctx, wordAt m 8 (threads t).current_stack_pointer = sp ∧ Frame m sp (frameWords ctx) ∧
    (∀ x, Covers sp 136 x → OnStack threads t x) ∧
    ∀ cpu : Cpu, cpu.reg = ctx.reg → cpu.rsp = sp + 136 → cpu.rip = ctx.rip →
      cpu.rflags = ctx.rflags ||| CPU_Flag_Interrupts → Resumed privilege_level_switch r cpu

theorem Waits.congr {m' : Memory} (h : Waits threads privilege_level_switch m t r)
    (hstack : ∀ x, OnStack threads t x → m' x = m x) (hfield : ∀ x, InField threads t x → m' x = m x) :
    Waits threads privilege_level_switch m' t r := by
  obtain ⟨sp, ctx, hsp, hframe, hon, hresumed⟩ := h
  refine ⟨sp, ctx, ?_, ?_, hon, hresumed⟩
  · rw [wordAt_congr (by decide) hfield, hsp]
  · exact hframe.congr (by rw [frameWords_length]; decide) fun x hx => hstack x (hon x hx)

theorem onStack_of_room {rsp x : Word} (h : HasRoom threads t rsp) (hx : Covers (rsp - 136) 136 x) : OnStack threads t x := by
  obtain ⟨hlow, hhigh⟩ := h
  unfold OnStack
  generalize (threads t).kernel_stack = stack at *
  generalize (threads t).kernel_stack_size = size at *
  unfold Covers at *
  bv_omega

theorem wp_thread_switch [DecidableEq T] {old new : T} {return_address : Word} (hapart : Apart threads) (hne : new ≠ old)
    (hroom : HasRoom threads old c.rsp) (hwaits : Waits threads privilege_level_switch c.mem new r) :
    wp (thread_switch threads old new return_address) (fun _ c' => Resumed privilege_level_switch r c' ∧
      Waits threads privilege_level_switch c'.mem old (.call (contextAt threads c old new return_address)) ∧
      ∀ x, ¬ OnStack threads old x → ¬ InField threads old x → c'.mem x = c.mem x) (fun _ => True) c := by
  obtain ⟨sp, ctx, hsp, hframe, hon, hresumed⟩ := hwaits
  unfold thread_switch
  simp only [wp_bind, Code.assert, wp_check, hne, ne_eq, not_false_eq_true, decide_true, if_true, wp_modify, wp_onMemory,
    wp_load]
  refine ⟨fun hfield => ?_, fun _ => trivial⟩
  rw [wp_pushWord]
  refine ⟨fun hpush => ?_, fun _ => trivial⟩
  -- the frame of the new thread is still there when the old one has been saved
  have hcall : Frame (stored c.mem 8 (c.rsp - 8) return_address) (c.rsp - 8) [return_address] :=
    frame_nil.push return_address (by decide) hpush
  have hrsp : c.rsp - 8 - 128 = c.rsp - 136 := by bv_omega
  rw [thread_switch_eq, wp_execAll_append]
  refine wp_imp (wp_save hcall) ?_
  rintro _ _ ⟨m₁, rfl, hframe₁, hsame⟩
  simp only [hrsp, switchArguments] at hframe₁ hsame ⊢
  have hkeep : ∀ x, ¬ OnStack threads old x → m₁ x = c.mem x := by
    intro x hx
    have hout : ¬ Covers (c.rsp - 136) 136 x := fun h => hx (onStack_of_room hroom h)
    have hfirst : ¬ Covers (c.rsp - 8) 8 x := by
      rw [show c.rsp - 8 = c.rsp - 136 + BitVec.ofNat 64 128 by bv_omega]
      exact fun h => hout (covers_part (by decide) (by decide) h)
    rw [hsame x fun h => hout (covers_mono h (by decide)), stored_of_not_covers hfirst]
  have hkeep' : ∀ x, ¬ OnStack threads old x → ¬ InField threads old x →
      stored m₁ 8 (threads old).current_stack_pointer (c.rsp - 136) x = c.mem x := by
    intro x hx hx'
    rw [stored_of_not_covers hx', hkeep x hx]
  have hnew : ∀ x, Covers sp 136 x → stored m₁ 8 (threads old).current_stack_pointer (c.rsp - 136) x = c.mem x :=
    fun x hx => hkeep' x (hapart.stack_stack hne (hon x hx)) fun h => hapart.field_stack h (hon x hx)
  rw [hsp]
  have hrestored := hframe.congr (by rw [frameWords_length]; decide) hnew
  refine (wp_restore hrestored).mpr ?_
  refine ⟨hresumed _ rfl rfl rfl rfl, ?_, hkeep'⟩
  refine ⟨c.rsp - 136, contextAt threads c old new return_address, wordAt_stored .., ?_, fun x hx => onStack_of_room hroom hx, ?_⟩
  · have hsaved : Frame m₁ (c.rsp - 136) (frameWords (contextAt threads c old new return_address)) := hframe₁
    refine hsaved.congr (by rw [frameWords_length]; decide) fun x hx => ?_
    exact stored_of_not_covers fun h => hapart.field_stack h (onStack_of_room hroom hx)
  · rintro cpu hreg hrsp' hrip hflags
    exact ⟨hreg, by rw [hrsp', BitVec.sub_add_cancel]; rfl, hrip, hflags⟩

/-! ## A thread that has not run -/

theorem frame_zero {n : Nat} (hn : 8 * n ≤ 2 ^ 64) (h : ∀ x, Covers sp (8 * n) x → m x = some 0) :
    Frame m sp (List.replicate n 0) := by
  intro i hi
  rw [List.length_replicate] at hi
  have hword : ∀ x, Covers (sp + BitVec.ofNat 64 (8 * i)) 8 x → m x = some 0 :=
    fun x hx => h x (covers_part (by omega) hn hx)
  refine ⟨fun j hj => ?_, by rw [wordAt_zero (by decide) hword, List.getElem_replicate]⟩
  rw [hword _ ((covers_iff (by decide)).mpr ⟨j, hj, rfl⟩)]
  rfl

/-- The registers of a thread that starts. -/
def startContext (privilege_level_switch entry_point code_segment data_segment user_stack_top : Word) : Context where
  reg
    | .rdi => entry_point
    | .rsi => code_segment
    | .rdx => user_stack_top
    | .rcx => data_segment
    | _ => 0
  rsp := 0
  rip := privilege_level_switch
  rflags := 0

theorem startContext_words (rip entry_point code_segment data_segment top : Word) :
    (((((List.replicate 17 0).set 9 entry_point).set 10 code_segment).set 12 top).set 13 data_segment).set 16 rip =
      frameWords (startContext rip entry_point code_segment data_segment top) := rfl

/-- Where `struct interrupt_cpu_state` starts. -/
def stateAt (thread : Thread) : Word := thread.kernel_stack + thread.kernel_stack_size - interruptCpuStateSize - 8

/-- Memory after the stores of `thread_user_stack_init`. -/
def startMemory (m : Memory) (thread : Thread) (user_stack privilege_level_switch entry_point : Word) : Memory :=
  let m₁ := stored m 8 thread.current_stack_pointer (stateAt thread)
  let m₂ := filled m₁ thread.kernel_stack thread.kernel_stack_size.toNat 0
  let m₃ := filled m₂ user_stack Thread_Default_User_Stack_Size.toNat 0xdd
  let m₄ := stored m₃ 8 (stateAt thread + 9 * 8) entry_point
  let m₅ := stored m₄ 8 (stateAt thread + 10 * 8) (codeSegment thread)
  let m₆ := stored m₅ 8 (stateAt thread + 12 * 8) (user_stack + Thread_Default_User_Stack_Size)
  let m₇ := stored m₆ 8 (stateAt thread + 13 * 8) (dataSegment thread)
  stored m₇ 8 (thread.kernel_stack + thread.kernel_stack_size - 8 * 8) privilege_level_switch

theorem rip_address (thread : Thread) :
    thread.kernel_stack + thread.kernel_stack_size - 8 * 8 = stateAt thread + BitVec.ofNat 64 (8 * 16) := by
  unfold stateAt interruptCpuStateSize
  bv_omega

/-- The same, with the numbers of the words in the frame. -/
theorem startMemory_eq (m : Memory) (thread : Thread) (user_stack privilege_level_switch entry_point : Word) :
    startMemory m thread user_stack privilege_level_switch entry_point =
      stored (stored (stored (stored (stored (filled (filled (stored m 8 thread.current_stack_pointer (stateAt thread))
        thread.kernel_stack thread.kernel_stack_size.toNat 0) user_stack Thread_Default_User_Stack_Size.toNat 0xdd)
        8 (stateAt thread + BitVec.ofNat 64 (8 * 9)) entry_point)
        8 (stateAt thread + BitVec.ofNat 64 (8 * 10)) (codeSegment thread))
        8 (stateAt thread + BitVec.ofNat 64 (8 * 12)) (user_stack + Thread_Default_User_Stack_Size))
        8 (stateAt thread + BitVec.ofNat 64 (8 * 13)) (dataSegment thread))
        8 (stateAt thread + BitVec.ofNat 64 (8 * 16)) privilege_level_switch := by
  have h9 : (9 * 8 : Word) = BitVec.ofNat 64 (8 * 9) := rfl
  have h10 : (10 * 8 : Word) = BitVec.ofNat 64 (8 * 10) := rfl
  have h12 : (12 * 8 : Word) = BitVec.ofNat 64 (8 * 12) := rfl
  have h13 : (13 * 8 : Word) = BitVec.ofNat 64 (8 * 13) := rfl
  unfold startMemory
  rw [rip_address, h9, h10, h12, h13]

theorem stateAt_onStack {x : Word} (hroom : 192 ≤ (threads t).kernel_stack_size.toNat)
    (h : Covers (stateAt (threads t)) (8 * 17) x) : OnStack threads t x := by
  have hstate : stateAt (threads t) =
      (threads t).kernel_stack + BitVec.ofNat 64 ((threads t).kernel_stack_size.toNat - 192) := by
    unfold stateAt interruptCpuStateSize
    bv_omega
  rw [hstate] at h
  exact covers_part (by omega) (threads t).kernel_stack_size.isLt.le h

/-- The stores after the first are to the two stacks of the thread. -/
theorem startMemory_outside {user_stack entry_point x : Word} (hroom : 192 ≤ (threads t).kernel_stack_size.toNat)
    (hstack : ¬ OnStack threads t x) (huser : ¬ Covers user_stack Thread_Default_User_Stack_Size.toNat x) :
    startMemory m (threads t) user_stack privilege_level_switch entry_point x =
      stored m 8 (threads t).current_stack_pointer (stateAt (threads t)) x := by
  have hword : ∀ k, k < 17 → ¬ Covers (stateAt (threads t) + BitVec.ofNat 64 (8 * k)) 8 x :=
    fun k hk h => hstack (stateAt_onStack hroom (covers_part (by omega) (by decide) h))
  rw [startMemory_eq]
  rw [stored_of_not_covers (hword 16 (by decide)), stored_of_not_covers (hword 13 (by decide)),
    stored_of_not_covers (hword 12 (by decide)), stored_of_not_covers (hword 10 (by decide)),
    stored_of_not_covers (hword 9 (by decide)), filled_of_not_covers huser, filled_of_not_covers hstack]

theorem startMemory_frame {user_stack entry_point : Word} (hroom : 192 ≤ (threads t).kernel_stack_size.toNat)
    (huser : ∀ x, OnStack threads t x → ¬ Covers user_stack Thread_Default_User_Stack_Size.toNat x) :
    Frame (startMemory m (threads t) user_stack privilege_level_switch entry_point) (stateAt (threads t))
      (frameWords (startContext privilege_level_switch entry_point (codeSegment (threads t)) (dataSegment (threads t))
        (user_stack + Thread_Default_User_Stack_Size))) := by
  rw [startMemory_eq, ← startContext_words]
  have hzero : ∀ m₁ : Memory, Frame (filled (filled m₁ (threads t).kernel_stack (threads t).kernel_stack_size.toNat 0)
      user_stack Thread_Default_User_Stack_Size.toNat 0xdd) (stateAt (threads t)) (List.replicate 17 0) := by
    intro m₁
    refine frame_zero (by decide) fun x hx => ?_
    have hon := stateAt_onStack hroom hx
    rw [filled_of_not_covers (huser x hon)]
    exact if_pos hon
  have hrdi := (hzero (stored m 8 (threads t).current_stack_pointer (stateAt (threads t)))).set (k := 9) entry_point
    (by simp) (by simp)
  have hrsi := hrdi.set (k := 10) (codeSegment (threads t)) (by simp) (by simp)
  have hrdx := hrsi.set (k := 12) (user_stack + Thread_Default_User_Stack_Size) (by simp) (by simp)
  have hrcx := hrdx.set (k := 13) (dataSegment (threads t)) (by simp) (by simp)
  exact hrcx.set (k := 16) privilege_level_switch (by simp) (by simp)

theorem wp_thread_user_stack_init {slab_alloc_helper : Word → Kernel Cpu Word} {proc : Process} {entry_point : Word}
    (hapart : Apart threads) (halloc : AllocatesUserStack threads slab_alloc_helper)
    (hroom : 192 ≤ (threads t).kernel_stack_size.toNat) :
    wp (thread_user_stack_init slab_alloc_helper privilege_level_switch (threads t) proc entry_point)
      (fun result c' => result.1 = .Ok →
        Waits threads privilege_level_switch c'.mem t (.start entry_point (codeSegment (threads t)) (dataSegment (threads t))
          (result.2 + Thread_Default_User_Stack_Size)) ∧
        ∀ u ≠ t, ∀ x, OnStack threads u x ∨ InField threads u x → c'.mem x = c.mem x) (fun _ => True) c := by
  unfold thread_user_stack_init
  simp only [wp_bind, Code.assert, wp_check, wp_get, wp_modify]
  split
  case isFalse => trivial
  split
  case isFalse => trivial
  refine wp_intro (fun user_stack c₁ hslab => ?_) fun _ _ => trivial
  have hkept := halloc _ _ _ hslab
  simp only at hkept
  split
  case isTrue => simp
  rename_i huser
  simp only [wp_bind, wp_onMemory, wp_store (show 8 < 2 ^ 64 by decide), wp_memset (threads t).kernel_stack_size.isLt,
    wp_memset Thread_Default_User_Stack_Size.isLt, wp_modify, wp_pure]
  iterate 8 refine ⟨fun _ => ?_, fun _ => trivial⟩
  intro _
  have hlow : ∀ u x, OnStack threads u x ∨ InField threads u x →
      ¬ Covers user_stack Thread_Default_User_Stack_Size.toNat x := fun u x hx => (hkept u x hx).2 huser
  -- the thread is apart from the user stack, and from the stack and the field of every other thread
  have hfield : ∀ x, InField threads t x → startMemory c₁.mem (threads t) user_stack privilege_level_switch entry_point x =
      stored c₁.mem 8 (threads t).current_stack_pointer (stateAt (threads t)) x :=
    fun x hx => startMemory_outside hroom (hapart.field_stack hx) (hlow t x (.inr hx))
  refine ⟨⟨stateAt (threads t), _, ?_, startMemory_frame hroom fun x hx => hlow t x (.inl hx),
    fun x hx => stateAt_onStack hroom hx, ?_⟩, ?_⟩
  · exact (wordAt_congr (by decide) hfield).trans (wordAt_stored ..)
  · rintro cpu hreg - hrip -
    exact ⟨hrip, by rw [hreg]; rfl, by rw [hreg]; rfl, by rw [hreg]; rfl, by rw [hreg]; rfl⟩
  · intro u hu x hx
    have hstack : ¬ OnStack threads t x := by
      rcases hx with hx | hx
      · exact hapart.stack_stack hu hx
      · exact hapart.field_stack hx
    have hother : ¬ InField threads t x := by
      rcases hx with hx | hx
      · exact fun h => hapart.field_stack h hx
      · exact hapart.field_field hu hx
    refine (startMemory_outside hroom hstack (hlow u x hx)).trans ?_
    rw [stored_of_not_covers hother]
    exact (hkept u x hx).1

end Wait

/-! ## Runs -/

section Run

variable {T : Type} [DecidableEq T] {threads : T → Thread} {privilege_level_switch : Word}
  {slab_alloc_helper : Word → Kernel Cpu Word} {s s' : Multitasking T}

def Inv (threads : T → Thread) (privilege_level_switch : Word) (s : Multitasking T) : Prop :=
  ∀ t r, s.resume t = some r → t ≠ s.current ∧ Waits threads privilege_level_switch s.cpu.mem t r

theorem step_inv (hapart : Apart threads) (halloc : AllocatesUserStack threads slab_alloc_helper)
    (hinv : Inv threads privilege_level_switch s)
    (hstep : Multitasking.Step threads privilege_level_switch slab_alloc_helper s s') :
    Inv threads privilege_level_switch s' := by
  cases hstep with
  | work cpu hstacks hfields =>
    intro t r hr
    obtain ⟨hne, hwaits⟩ := hinv t r hr
    exact ⟨hne, hwaits.congr (hstacks t hne) (hfields t)⟩
  | @switch new r cpu return_address hroom hnew hrun =>
    obtain ⟨hne, hwaits⟩ := hinv new r hnew
    obtain ⟨-, hold, hsame⟩ := wp_ok (wp_thread_switch hapart hne hroom hwaits) hrun
    intro t r' hr'
    simp only at hr' ⊢
    have htnew : t ≠ new := by
      rintro rfl
      simp at hr'
    rw [Function.update_of_ne htnew] at hr'
    refine ⟨htnew, ?_⟩
    by_cases ht : t = s.current
    · subst ht
      rw [Function.update_self] at hr'
      obtain rfl := Option.some.inj hr'
      exact hold
    · rw [Function.update_of_ne ht] at hr'
      refine (hinv t r' hr').2.congr (fun x hx => ?_) fun x hx => ?_
      · exact hsame x (hapart.stack_stack ht hx) fun h => hapart.field_stack h hx
      · exact hsame x (hapart.field_stack hx) (hapart.field_field ht hx)
  | @prepare t proc entry_point user_stack cpu ht hroom hrun =>
    obtain ⟨hwaits, hsame⟩ := wp_ok (wp_thread_user_stack_init hapart halloc hroom) hrun rfl
    intro u r hr
    simp only at hr ⊢
    by_cases hu : u = t
    · subst hu
      rw [Function.update_self] at hr
      obtain rfl := Option.some.inj hr
      exact ⟨ht, hwaits⟩
    · rw [Function.update_of_ne hu] at hr
      obtain ⟨hne, hother⟩ := hinv u r hr
      exact ⟨hne, hother.congr (fun x hx => hsame u hu x (.inl hx)) fun x hx => hsame u hu x (.inr hx)⟩

theorem run_inv (hapart : Apart threads) (halloc : AllocatesUserStack threads slab_alloc_helper)
    (hrun : Multitasking.Run threads privilege_level_switch slab_alloc_helper s) : Inv threads privilege_level_switch s := by
  induction hrun with
  | start cpu current => exact fun _ _ h => absurd h (by simp)
  | step _ hstep ih => exact step_inv hapart halloc ih hstep

/-- After any run, a switch to a thread continues it as it should: a thread that had called `thread_switch` with the
registers of the call, and a thread that was prepared at its entry. -/
theorem switch_resumes (hapart : Apart threads) (halloc : AllocatesUserStack threads slab_alloc_helper)
    (hrun : Multitasking.Run threads privilege_level_switch slab_alloc_helper s) {new : T} {r : Resume}
    {return_address : Word} {cpu : Cpu} (hnew : s.resume new = some r) (hroom : HasRoom threads s.current s.cpu.rsp)
    (hswitch : (thread_switch threads s.current new return_address).run s.cpu = .ok ((), cpu)) :
    Resumed privilege_level_switch r cpu := by
  obtain ⟨hne, hwaits⟩ := run_inv hapart halloc hrun new r hnew
  exact (wp_ok (wp_thread_switch hapart hne hroom hwaits) hswitch).1

end Run

/-! ## Two threads -/

def AllMapped (m : Memory) : Prop := ∀ x, (m x).isSome

theorem AllMapped.mapped {m : Memory} (h : AllMapped m) (a : Word) (n : Nat) : Mapped m a n := fun _ _ => h _

theorem AllMapped.stored {m : Memory} (h : AllMapped m) (n : Nat) (a v : Word) : AllMapped (Spec.stored m n a v) :=
  fun x => isSome_stored (h x)

theorem wp_exec_mapped {i : Instr} (h : AllMapped c.mem) :
    wp i.exec (fun _ c' => AllMapped c'.mem) (fun _ => False) c := by
  cases i with
  | push r => simpa [Instr.exec, wp_pushWord, guarded_of (h.mapped _ _)] using h.stored _ _ _
  | pop r => simpa [Instr.exec, wp_popWord, guarded_of (h.mapped _ _)] using h
  | pushf => simpa [Instr.exec, wp_pushWord, guarded_of (h.mapped _ _)] using h.stored _ _ _
  | popf => simpa [Instr.exec, wp_popWord, guarded_of (h.mapped _ _)] using h
  | save_rsp r =>
    simpa [Instr.exec, wp_onMemory, wp_store (show 8 < 2 ^ 64 by decide), guarded_of (h.mapped _ _)] using h.stored _ _ _
  | load_rsp r => simpa [Instr.exec] using h
  | load_cr3 r => simpa [Instr.exec] using h
  | sti => simpa [Instr.exec] using h
  | ret => simpa [Instr.exec, wp_popWord, guarded_of (h.mapped _ _)] using h

theorem wp_execAll_mapped {is : List Instr} (h : AllMapped c.mem) :
    wp (execAll is) (fun _ c' => AllMapped c'.mem) (fun _ => False) c := by
  induction is generalizing c with
  | nil => exact (wp_pure ..).mpr h
  | cons i is ih =>
    rw [wp_execAll_cons]
    exact wp_imp (wp_exec_mapped h) fun _ _ h' => ih h'

theorem wp_thread_switch_mapped {T : Type} [DecidableEq T] (threads : T → Thread) {old new : T} (return_address : Word)
    (hne : new ≠ old) (h : AllMapped c.mem) :
    wp (thread_switch threads old new return_address) (fun _ c' => AllMapped c'.mem) (fun _ => False) c := by
  unfold thread_switch
  simp only [wp_bind, Code.assert, wp_check, hne, ne_eq, not_false_eq_true, decide_true, if_true, wp_modify, wp_onMemory,
    wp_load, wp_pushWord, guarded_of (h.mapped _ _)]
  exact wp_execAll_mapped (h.stored _ _ _)

def twoThreads : Bool → Thread
  | false => ⟨0x100, 0x1000, 0x200, false, 0⟩
  | true => ⟨0x108, 0x2000, 0x200, true, 0⟩

theorem twoThreads_stack {t : Bool} {x : Word} (h : OnStack twoThreads t x) :
    (t = false ∧ 0x1000 ≤ x.toNat ∧ x.toNat < 0x1200) ∨ (t = true ∧ 0x2000 ≤ x.toNat ∧ x.toNat < 0x2200) := by
  cases t with
  | false =>
    simp only [OnStack, Covers, twoThreads] at h
    exact .inl ⟨rfl, by bv_omega⟩
  | true =>
    simp only [OnStack, Covers, twoThreads] at h
    exact .inr ⟨rfl, by bv_omega⟩

theorem twoThreads_field {t : Bool} {x : Word} (h : InField twoThreads t x) :
    (t = false ∧ 0x100 ≤ x.toNat ∧ x.toNat < 0x108) ∨ (t = true ∧ 0x108 ≤ x.toNat ∧ x.toNat < 0x110) := by
  cases t with
  | false =>
    simp only [InField, Covers, twoThreads] at h
    exact .inl ⟨rfl, by bv_omega⟩
  | true =>
    simp only [InField, Covers, twoThreads] at h
    exact .inr ⟨rfl, by bv_omega⟩

theorem twoThreads_apart : Apart twoThreads where
  stack_stack hne _ h h' := by
    rcases twoThreads_stack h with ⟨rfl, ht⟩ | ⟨rfl, ht⟩ <;> rcases twoThreads_stack h' with ⟨rfl, hu⟩ | ⟨rfl, hu⟩ <;>
      first | exact hne rfl | omega
  field_field hne _ h h' := by
    rcases twoThreads_field h with ⟨rfl, ht⟩ | ⟨rfl, ht⟩ <;> rcases twoThreads_field h' with ⟨rfl, hu⟩ | ⟨rfl, hu⟩ <;>
      first | exact hne rfl | omega
  field_stack h h' := by
    have ht := twoThreads_field h
    have hu := twoThreads_stack h'
    omega

def userStackAlloc (_ : Word) : Kernel Cpu Word := pure 0x9000

theorem userStackAlloc_allocates : AllocatesUserStack twoThreads userStackAlloc := by
  rintro cpu user_stack cpu' hrun t x hx
  cases hrun
  refine ⟨rfl, fun _ => ?_⟩
  have hlow : x.toNat < 0x2200 := by
    rcases hx with hx | hx
    · have hstack := twoThreads_stack hx
      omega
    · have hfield := twoThreads_field hx
      omega
  unfold Covers Thread_Default_User_Stack_Size
  bv_omega

def zeroCpu : Cpu := ⟨fun _ => 0, 0x1100, 0, 0, 0, 0, fun _ => some 0⟩

def anyProcess : Process := ⟨1, 1, 0⟩

theorem AllMapped.filled {m : Memory} (h : AllMapped m) (a : Word) (n : Nat) (b : Byte) : AllMapped (Spec.filled m a n b) := by
  intro x
  unfold Spec.filled
  split
  · rfl
  · exact h x

theorem wp_prepare_mapped (h : AllMapped c.mem) :
    wp (thread_user_stack_init userStackAlloc 0x5000 (twoThreads true) anyProcess 0x400000)
      (fun result c' => result = (.Ok, 0x9000) ∧ AllMapped c'.mem ∧ c'.rsp = c.rsp) (fun _ => False) c := by
  have hspace : anyProcess.address_space ≠ 0 := by decide
  have htable : anyProcess.page_table ≠ 0 := by decide
  have hstack : ¬ (0x9000 : Word) = 0 := by decide
  have h₁ := h.stored 8 (twoThreads true).current_stack_pointer (stateAt (twoThreads true))
  have h₃ := (h₁.filled (twoThreads true).kernel_stack (twoThreads true).kernel_stack_size.toNat 0).filled 0x9000
    Thread_Default_User_Stack_Size.toNat 0xdd
  have h₄ := h₃.stored 8 (stateAt (twoThreads true) + 9 * 8) 0x400000
  have h₅ := h₄.stored 8 (stateAt (twoThreads true) + 10 * 8) (codeSegment (twoThreads true))
  have h₆ := h₅.stored 8 (stateAt (twoThreads true) + 12 * 8) (0x9000 + Thread_Default_User_Stack_Size)
  have h₇ := h₆.stored 8 (stateAt (twoThreads true) + 13 * 8) (dataSegment (twoThreads true))
  unfold thread_user_stack_init userStackAlloc
  simp only [wp_bind, Code.assert, wp_check, wp_get, wp_modify, wp_pure, hspace, htable, hstack, ne_eq, not_false_eq_true,
    decide_true, if_true, if_false, wp_onMemory, wp_store (show 8 < 2 ^ 64 by decide),
    wp_memset (twoThreads true).kernel_stack_size.isLt, wp_memset Thread_Default_User_Stack_Size.isLt]
  refine (guarded_of (h.mapped _ _)).mpr ?_
  refine (guarded_of (h₁.mapped _ _)).mpr ?_
  refine (guarded_of ((h₁.filled _ _ _).mapped _ _)).mpr ?_
  refine (guarded_of (h₃.mapped _ _)).mpr ?_
  refine (guarded_of (h₄.mapped _ _)).mpr ?_
  refine (guarded_of (h₅.mapped _ _)).mpr ?_
  refine (guarded_of (h₆.mapped _ _)).mpr ?_
  refine (guarded_of (h₇.mapped _ _)).mpr ?_
  exact ⟨trivial, h₇.stored _ _ _, trivial⟩

/-- The first thread prepares the second and switches to it, which comes back to the first. -/
theorem twoThreads_resumed : ∃ s cpu r cpu',
    Multitasking.Run twoThreads 0x5000 userStackAlloc s ∧
    (thread_switch twoThreads false true 0x7000).run s.cpu = .ok ((), cpu) ∧
    Resumed 0x5000 (.start 0x400000 0x1b 0x23 0xd000) cpu ∧
    (thread_switch twoThreads true false 0x7777).run { cpu with rsp := 0x2100 } = .ok ((), cpu') ∧
    r = .call (contextAt twoThreads s.cpu false true 0x7000) ∧ Resumed 0x5000 r cpu' := by
  obtain ⟨_, c₁, hprepare, rfl, hmapped₁, hrsp⟩ := wp_total (wp_prepare_mapped (c := zeroCpu) fun _ => rfl)
  have hstart : Multitasking.Run twoThreads 0x5000 userStackAlloc ⟨zeroCpu, false, fun _ => none⟩ := .start _ _
  have hprepared := hstart.step (.prepare (by decide) (by decide) hprepare)
  have hroom₁ : HasRoom twoThreads false c₁.rsp := by
    rw [hrsp]
    exact ⟨by decide, by decide⟩
  obtain ⟨_, c₂, hswitch₁, hmapped₂⟩ :=
    wp_total (wp_thread_switch_mapped twoThreads 0x7000 Bool.false_ne_true.symm hmapped₁)
  have hswitched := hprepared.step (.switch 0x7000 hroom₁ (Function.update_self ..) hswitch₁)
  have hworked := hswitched.step (.work { c₂ with rsp := 0x2100 } (fun _ _ _ _ => rfl) fun _ _ _ => rfl)
  have hroom₂ : HasRoom twoThreads true 0x2100 := ⟨by decide, by decide⟩
  obtain ⟨_, c₃, hswitch₂, -⟩ := wp_total (wp_thread_switch_mapped (c := { c₂ with rsp := 0x2100 }) twoThreads
    0x7777 Bool.false_ne_true hmapped₂)
  refine ⟨_, c₂, _, c₃, hprepared, hswitch₁, ?_, hswitch₂, rfl, ?_⟩
  · exact switch_resumes twoThreads_apart userStackAlloc_allocates hprepared (Function.update_self ..) hroom₁ hswitch₁
  · exact switch_resumes twoThreads_apart userStackAlloc_allocates hworked rfl hroom₂ hswitch₂

end KernelOfTruth.Threads
