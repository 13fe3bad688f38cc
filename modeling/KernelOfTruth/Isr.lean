import KernelOfTruth.Spec.Isr
import KernelOfTruth.Threads

/-!
# A program does not see that it was interrupted

All words of the handler are on one stack. They are pushed one by one below its top, stay there during the calls, and are
popped in reverse.
-/

open KernelOfTruth.Lib KernelOfTruth.Code KernelOfTruth.Spec KernelOfTruth.Strings KernelOfTruth.Threads

namespace KernelOfTruth.Isr

variable {E : Halt → Prop} {kept : Word → Prop} {m₀ : Memory} {top : Word} {ws : List Word} {c : Cpu} {m : Processor}

/-! ## The stack -/

/-- The words have been pushed below `top`, and nothing else has changed outside of the area for them. -/
structure Pushed (kept : Word → Prop) (m₀ : Memory) (top : Word) (ws : List Word) (c : Cpu) : Prop where
  rsp : c.rsp = top - BitVec.ofNat 64 (8 * ws.length)
  frame : Frame c.mem c.rsp ws
  mapped : Mapped c.mem (top - BitVec.ofNat 64 interruptArea) interruptArea
  same : ∀ x, kept x → ¬ Covers (top - BitVec.ofNat 64 interruptArea) interruptArea x → c.mem x = m₀ x

/-- Where the next word goes. -/
theorem Pushed.next (hlen : ws.length < 24) (h : Pushed kept m₀ top ws c) :
    c.rsp - 8 = top - BitVec.ofNat 64 interruptArea + BitVec.ofNat 64 (interruptArea - 8 * (ws.length + 1)) := by
  rw [h.rsp]
  unfold interruptArea
  bv_omega

theorem Pushed.push (w : Word) (hlen : ws.length < 24) (h : Pushed kept m₀ top ws c) :
    wp (pushWord w) (fun _ c' => ∃ rsp mem, c' = { c with rsp := rsp, mem := mem } ∧ Pushed kept m₀ top (w :: ws) c') E c := by
  have hfit : interruptArea - 8 * (ws.length + 1) + 8 ≤ interruptArea := by unfold interruptArea; omega
  have hmapped : Mapped c.mem (c.rsp - 8) 8 := by
    rw [h.next hlen]
    exact mapped_part h.mapped hfit
  rw [wp_pushWord, guarded_of hmapped]
  refine ⟨_, _, rfl, ?_, h.frame.push w (by omega) hmapped, mapped_stored h.mapped, fun x hx hout => ?_⟩
  · dsimp only
    rw [h.rsp, List.length_cons]
    bv_omega
  · refine (stored_of_not_covers fun hx => hout ?_).trans (h.same x hx hout)
    rw [h.next hlen] at hx
    exact covers_part hfit (by decide) hx

theorem Pushed.pushAll (rs : List Reg) (hlen : ws.length + rs.length ≤ 24) (h : Pushed kept m₀ top ws c) :
    wp (execAll (rs.map .push)) (fun _ c' => ∃ rsp mem, c' = { c with rsp := rsp, mem := mem } ∧
      Pushed kept m₀ top (rs.reverse.map c.reg ++ ws) c') E c := by
  induction rs generalizing c ws with
  | nil => exact (wp_pure ..).mpr ⟨c.rsp, c.mem, rfl, h⟩
  | cons r rs ih =>
    rw [List.length_cons] at hlen
    rw [List.map_cons, wp_execAll_cons, Instr.exec, wp_bind, wp_get]
    refine wp_imp (h.push (c.reg r) (by omega)) ?_
    rintro _ _ ⟨rsp, mem, rfl, hpushed⟩
    refine wp_imp (ih (by rw [List.length_cons]; omega) hpushed) ?_
    rintro _ _ ⟨rsp', mem', rfl, hall⟩
    refine ⟨rsp', mem', rfl, ?_⟩
    rw [List.reverse_cons, List.map_append, List.append_assoc]
    exact hall

/-! ## Instructions -/

section Instructions

variable {reg : Reg → Word} {seg : Seg → BitVec 16} {alu : Word → Word} {tsc return_address : Word} {f : Kernel Processor Unit}

/-- The registers, the data segments and the words on the stack of a handler. -/
structure At (kept : Word → Prop) (m₀ : Memory) (top : Word) (ws : List Word) (reg : Reg → Word) (seg : Seg → BitVec 16)
    (m : Processor) : Prop where
  reg : m.cpu.reg = reg
  seg : m.seg = seg
  pushed : Pushed kept m₀ top ws m.cpu

theorem wp_onCpu {α : Type} {p : Kernel Cpu α} {Q : α → Processor → Prop} :
    wp (onCpu p) Q E m ↔ wp p (fun a c => Q a { m with cpu := c }) E m.cpu := wp_zoom ..

theorem At.push (w : Word) (hlen : ws.length < 24) (h : At kept m₀ top ws reg seg m) :
    wp (onCpu (pushWord w)) (fun _ => At kept m₀ top (w :: ws) reg seg) E m := by
  rw [wp_onCpu]
  refine wp_imp (h.pushed.push w hlen) ?_
  rintro _ _ ⟨rsp, mem, rfl, hpushed⟩
  exact ⟨h.reg, h.seg, hpushed⟩

theorem At.pushAll (rs : List Reg) (hlen : ws.length + rs.length ≤ 24) (h : At kept m₀ top ws reg seg m) :
    wp (onCpu (execAll (rs.map .push))) (fun _ => At kept m₀ top (rs.reverse.map reg ++ ws) reg seg) E m := by
  rw [wp_onCpu]
  refine wp_imp (h.pushed.pushAll rs hlen) ?_
  rintro _ _ ⟨rsp, mem, rfl, hpushed⟩
  refine ⟨h.reg, h.seg, ?_⟩
  rw [← h.reg]
  exact hpushed

theorem At.pushReg (r : Reg) (hlen : ws.length < 24) (h : At kept m₀ top ws reg seg m) :
    wp (onCpu (Instr.push r).exec) (fun _ => At kept m₀ top (reg r :: ws) reg seg) E m := by
  have hpush := h.push (E := E) (reg r) hlen
  rw [wp_onCpu] at hpush ⊢
  rw [Instr.exec, wp_bind, wp_get, h.reg]
  exact hpush

theorem At.setReg (r : Reg) (w : Word) (h : At kept m₀ top ws reg seg m) :
    wp (setReg r w) (fun _ => At kept m₀ top ws (Function.update reg r w) seg) E m :=
  (wp_modify ..).mpr ⟨congrArg (Function.update · r w) h.reg, h.seg, h.pushed.rsp, h.pushed.frame, h.pushed.mapped, h.pushed.same⟩

theorem At.setAx (v : BitVec 16) (h : At kept m₀ top ws reg seg m) :
    wp (setAx v) (fun _ => At kept m₀ top ws (Function.update reg .rax (reg .rax &&& ~~~0xffff ||| v.setWidth 64)) seg) E m := by
  unfold Code.setAx
  rw [wp_bind, wp_get, h.reg]
  exact h.setReg ..

theorem At.changeFlags (h : At kept m₀ top ws reg seg m) : wp (changeFlags alu) (fun _ => At kept m₀ top ws reg seg) E m :=
  (wp_modify ..).mpr ⟨h.reg, h.seg, h.pushed.rsp, h.pushed.frame, h.pushed.mapped, h.pushed.same⟩

theorem At.cli (h : At kept m₀ top ws reg seg m) : wp cli (fun _ => At kept m₀ top ws reg seg) E m :=
  (wp_modify ..).mpr ⟨h.reg, h.seg, h.pushed.rsp, h.pushed.frame, h.pushed.mapped, h.pushed.same⟩

theorem At.loadSegments (h : At kept m₀ top ws reg seg m) :
    wp loadSegments (fun _ => At kept m₀ top ws reg fun _ => (reg .rax).setWidth 16) E m :=
  (wp_modify ..).mpr ⟨h.reg, by rw [h.reg], h.pushed.rsp, h.pushed.frame, h.pushed.mapped, h.pushed.same⟩

theorem At.rdtsc (h : At kept m₀ top ws reg seg m) : wp (rdtsc tsc) (fun _ => At kept m₀ top ws
    (Function.update (Function.update reg .rax (tsc &&& 0xffffffff)) .rdx (tsc >>> 32)) seg) E m := by
  unfold Code.rdtsc
  rw [wp_bind]
  exact wp_imp (h.setReg ..) fun _ _ h => h.setReg ..

/-- A function that is called finds the words on the stack, and so does the handler when it goes on. -/
theorem At.call (return_address : Word) (hlen : ws.length = 23) (h : At kept m₀ top ws reg seg m)
    (hf : ∀ m₁, At kept m₀ top (return_address :: ws) reg seg m₁ → ReturnsFrom kept E f m₁) :
    wp (call return_address f) (fun _ m' => ∃ reg' seg', At kept m₀ top ws reg' seg' m') E m := by
  unfold Code.call
  rw [wp_bind]
  refine wp_imp (h.push return_address (by omega)) fun _ m₁ h₁ => ?_
  have hrsp : m₁.cpu.rsp = top - BitVec.ofNat 64 interruptArea := by rw [h₁.pushed.rsp, List.length_cons, hlen]; rfl
  have hnext : m₁.cpu.rsp + 8 = m.cpu.rsp := by
    rw [hrsp, h.pushed.rsp, hlen]
    unfold interruptArea
    bv_omega
  refine wp_imp (hf m₁ h₁ (by rw [hrsp]; exact h₁.pushed.mapped)) ?_
  rintro _ m₂ ⟨hrsp₂, hmapped, hsame⟩
  rw [hnext] at hrsp₂ hsame
  have hframe₁ : Frame m₁.cpu.mem m.cpu.rsp ws := by
    rw [← hnext]
    exact (frame_cons.mp h₁.pushed.frame).2
  refine ⟨_, _, rfl, rfl, hrsp₂.trans h.pushed.rsp, ?_, by rwa [← hrsp], fun x hx hout => ?_⟩
  · rw [hrsp₂]
    exact hframe₁.congr (by omega) fun x hx => hsame x (.inr (by rwa [hlen] at hx))
  · rw [hsame x (.inl hx), h₁.pushed.same x hx hout]

theorem At.load (hlen : 16 < ws.length) (h : At kept m₀ top ws reg seg m) {Q : Word → Processor → Prop} :
    wp (onCpu (onMemory (Memory.load 8 (m.cpu.rsp + 16 * 8)))) Q E m ↔ Q ws[16] m := by
  have hword : Mapped m.cpu.mem (m.cpu.rsp + 16 * 8) 8 ∧ wordAt m.cpu.mem 8 (m.cpu.rsp + 16 * 8) = ws[16] :=
    h.pushed.frame 16 hlen
  rw [wp_onCpu, wp_onMemory, wp_load, guarded_of hword.1, hword.2]

/-- The stack after the word on its top. -/
theorem Pushed.drop {w : Word} (h : Pushed kept m₀ top (w :: ws) c) : Pushed kept m₀ top ws { c with rsp := c.rsp + 8 } := by
  refine ⟨?_, (frame_cons.mp h.frame).2, h.mapped, h.same⟩
  dsimp only
  rw [h.rsp, List.length_cons]
  bv_omega

theorem Pushed.dropAll (vs : List Word) (h : Pushed kept m₀ top (vs ++ ws) c) :
    Pushed kept m₀ top ws { c with rsp := c.rsp + BitVec.ofNat 64 (8 * vs.length) } := by
  induction vs generalizing c with
  | nil =>
    rw [List.length_nil, Nat.mul_zero, BitVec.add_zero]
    exact h
  | cons v vs ih =>
    rw [List.length_cons, ← add_words]
    exact ih h.drop

theorem At.pop {w : Word} {Q : Word → Processor → Prop} (h : At kept m₀ top (w :: ws) reg seg m)
    (hQ : ∀ m', At kept m₀ top ws reg seg m' → Q w m') : wp (onCpu popWord) Q E m := by
  obtain ⟨⟨hmapped, hword⟩, -⟩ := frame_cons.mp h.pushed.frame
  rw [wp_onCpu, wp_popWord, guarded_of hmapped, hword]
  exact hQ _ ⟨h.reg, h.seg, h.pushed.drop⟩

theorem At.popReg {r : Reg} {w : Word} (h : At kept m₀ top (w :: ws) reg seg m) :
    wp (onCpu (Instr.pop r).exec) (fun _ => At kept m₀ top ws (Function.update reg r w) seg) E m := by
  obtain ⟨⟨hmapped, hword⟩, -⟩ := frame_cons.mp h.pushed.frame
  rw [wp_onCpu, Instr.exec, wp_bind, wp_popWord, guarded_of hmapped, wp_modify, hword]
  have hdrop := h.pushed.drop
  exact ⟨congrArg (Function.update · r w) h.reg, h.seg, hdrop.rsp, hdrop.frame, hdrop.mapped, hdrop.same⟩

theorem At.popAll (rs : List Reg) {g : Reg → Word} (h : At kept m₀ top (rs.map g ++ ws) reg seg m) :
    wp (onCpu (execAll (rs.map .pop))) (fun _ => At kept m₀ top ws (fun r => if r ∈ rs then g r else reg r) seg) E m := by
  rw [wp_onCpu, wp_popAll h.pushed.frame]
  have hdrop := h.pushed.dropAll (rs.map g)
  rw [List.length_map] at hdrop
  exact ⟨by rw [h.reg], h.seg, hdrop.rsp, hdrop.frame, hdrop.mapped, hdrop.same⟩

end Instructions

/-! ## The handler -/

section Service

variable {alu : Word → Word} {tsc return_address : Word} {entropy_pool_seed : Kernel Processor Unit}
  {interrupts_dispatcher : InterruptCpuState → Kernel Processor Unit} {reg : Reg → Word} {seg : Seg → BitVec 16}

theorem At.argument {return_address : Word} {i : Nat} (hi : i < ws.length) (h : At kept m₀ top (return_address :: ws) reg seg m)
    {Q : Word → Processor → Prop} : wp (argument i) Q E m ↔ Q ws[i] m := by
  have hword := h.pushed.frame (i + 1) (Nat.succ_lt_succ hi)
  unfold Code.argument
  rw [wp_bind, wp_get, wp_onCpu, wp_onMemory, wp_load, guarded_of hword.1, hword.2, List.getElem_cons_succ]

theorem At.registerArguments {return_address : Word} (rs : List Reg) (vs : List Word) {g : Reg → Word}
    {Q : (Reg → Word) → Processor → Prop} (h : At kept m₀ top (return_address :: (vs ++ (rs.map g ++ ws))) reg seg m) :
    wp (registerArguments rs vs.length) Q E m ↔ Q (fun r => if r ∈ rs then g r else 0) m := by
  induction rs generalizing vs Q with
  | nil => simp [Code.registerArguments]
  | cons r rs ih =>
    have hlt : vs.length < (vs ++ ((r :: rs).map g ++ ws)).length := by simp
    have hword : (vs ++ ((r :: rs).map g ++ ws))[vs.length] = g r := by simp
    have hrest := ih (vs ++ [g r]) (Q := fun rest m => Q (Function.update rest r (g r)) m) (by simpa using h)
    have hreg : Function.update (fun r' => if r' ∈ rs then g r' else 0) r (g r) = fun r' => if r' ∈ r :: rs then g r' else 0 := by
      funext r'
      by_cases hr : r' = r
      · subst hr
        simp
      · simp [hr]
    rw [List.length_append, List.length_singleton, hreg] at hrest
    unfold Code.registerArguments
    rw [wp_bind, h.argument hlt, hword, wp_bind]
    simp only [wp_pure]
    exact hrest

/-- The words on the stack are the fields of the argument. -/
theorem At.stateArgument {return_address ds number error_code rip cs rflags rsp ss : Word} {g : Reg → Word}
    {Q : InterruptCpuState → Processor → Prop} (h : At kept m₀ top (return_address :: ds :: (savedRegs.reverse.map g ++
      [number, error_code, rip, cs, rflags, rsp, ss])) reg seg m) :
    wp stateArgument Q E m ↔ Q ⟨ds, g, number, error_code, rip, cs, rflags, rsp, ss⟩ m := by
  have hregs (Q : (Reg → Word) → Processor → Prop) : wp (Code.registerArguments savedRegs.reverse 1) Q E m ↔ Q g m := by
    have hreg : (fun r => if r ∈ savedRegs.reverse then g r else 0) = g := funext fun r => if_pos (mem_savedRegs r)
    exact (At.registerArguments savedRegs.reverse [ds] h).trans (by rw [hreg])
  unfold Code.stateArgument
  rw [wp_bind, h.argument (i := 0) (by simp), wp_bind]
  refine (hregs _).trans ?_
  rw [wp_bind, h.argument (i := 16) (by simp [savedRegs]), wp_bind, h.argument (i := 17) (by simp [savedRegs]), wp_bind,
    h.argument (i := 18) (by simp [savedRegs]), wp_bind, h.argument (i := 19) (by simp [savedRegs]), wp_bind,
    h.argument (i := 20) (by simp [savedRegs]), wp_bind, h.argument (i := 21) (by simp [savedRegs]), wp_bind,
    h.argument (i := 22) (by simp [savedRegs]), wp_pure]
  rfl

/-- What `iretq` has loaded, and memory as it was but for the stack. -/
structure Restored (kept : Word → Prop) (m₀ : Memory) (top : Word) (reg : Reg → Word) (seg : Seg → BitVec 16)
    (rip cs rflags rsp ss : Word) (m : Processor) : Prop where
  reg : m.cpu.reg = reg
  seg : m.seg = seg
  rip : m.cpu.rip = rip
  cs : m.cs = cs.setWidth 16
  rflags : m.cpu.rflags = rflags
  rsp : m.cpu.rsp = rsp
  ss : m.ss = ss.setWidth 16
  mem : ∀ x, kept x → ¬ Covers (top - BitVec.ofNat 64 interruptArea) interruptArea x → m.cpu.mem x = m₀ x

variable {number error_code rip cs rflags rsp ss : Word}

theorem wp_iretq (h : At kept m₀ top [rip, cs, rflags, rsp, ss] reg seg m) :
    wp iretq (fun _ => Restored kept m₀ top reg seg rip cs rflags rsp ss) E m := by
  unfold iretq
  rw [wp_bind]
  refine h.pop fun m₁ h₁ => ?_
  rw [wp_bind]
  refine h₁.pop fun m₂ h₂ => ?_
  rw [wp_bind]
  refine h₂.pop fun m₃ h₃ => ?_
  rw [wp_bind]
  refine h₃.pop fun m₄ h₄ => ?_
  rw [wp_bind]
  refine h₄.pop fun m₅ h₅ => ?_
  rw [wp_modify]
  exact ⟨h₅.reg, h₅.seg, rfl, rfl, rfl, rfl, rfl, h₅.pushed.same⟩

theorem wp_dispatch {ds : BitVec 16} {reg' : Reg → Word}
    (hdispatch : Returns kept E (interrupts_dispatcher ⟨ds.setWidth 64, reg, number, error_code, rip, cs, rflags, rsp, ss⟩))
    (h : At kept m₀ top (ds.setWidth 64 :: (savedRegs.reverse.map reg ++ [number, error_code, rip, cs, rflags, rsp, ss])) reg' seg m) :
    wp (dispatch alu return_address interrupts_dispatcher)
      (fun _ => Restored kept m₀ top reg (fun _ => ds) rip cs rflags rsp ss) E m := by
  unfold dispatch
  rw [wp_bind]
  have hcall := h.call (E := E) return_address (f := Code.stateArgument >>= interrupts_dispatcher)
    (by simp [savedRegs]) fun m₁ h₁ hmapped => by
      rw [wp_bind, h₁.stateArgument]
      exact hdispatch m₁ hmapped
  refine wp_imp hcall ?_
  rintro _ m₁ ⟨reg₁, seg₁, h₁⟩
  rw [wp_bind]
  refine wp_imp h₁.popReg fun _ m₂ h₂ => ?_
  rw [wp_bind]
  refine wp_imp h₂.loadSegments fun _ m₃ h₃ => ?_
  rw [wp_bind]
  refine wp_imp (At.popAll savedRegs.reverse h₃) fun _ m₄ h₄ => ?_
  have hreg : (fun r => if r ∈ savedRegs.reverse then reg r else Function.update reg₁ .rax (ds.setWidth 64) r) = reg :=
    funext fun r => if_pos (mem_savedRegs r)
  have hds : (Function.update reg₁ .rax (ds.setWidth 64) .rax).setWidth 16 = ds := by simp
  rw [hreg, hds] at h₄
  rw [wp_bind, wp_modify, wp_bind]
  have hdrop := h₄.pushed.dropAll [number, error_code]
  have h₅ : At kept m₀ top [rip, cs, rflags, rsp, ss] reg (fun _ => ds) { m₄ with cpu.rsp := m₄.cpu.rsp + 16 } :=
    ⟨h₄.reg, h₄.seg, hdrop⟩
  exact wp_imp h₅.changeFlags fun _ _ h₆ => wp_iretq h₆

theorem wp_service_interrupt (hseed : Returns kept E entropy_pool_seed)
    (hdispatch : Returns kept E
      (interrupts_dispatcher ⟨(seg .ds).setWidth 64, reg, number, error_code, rip, cs, rflags, rsp, ss⟩))
    (h : At kept m₀ top [number, error_code, rip, cs, rflags, rsp, ss] reg seg m) :
    wp (_service_interrupt alu tsc return_address entropy_pool_seed interrupts_dispatcher)
      (fun _ => Restored kept m₀ top reg (fun _ => seg .ds) rip cs rflags rsp ss) E m := by
  unfold _service_interrupt
  rw [wp_bind]
  refine wp_imp (h.pushAll savedRegs (by simp [savedRegs])) fun _ m₁ h₁ => ?_
  rw [wp_bind]
  refine wp_imp (h₁.setReg ..) fun _ m₂ h₂ => ?_
  rw [wp_bind]
  refine wp_imp h₂.changeFlags fun _ m₃ h₃ => ?_
  rw [wp_bind, wp_get, h₃.seg, wp_bind]
  refine wp_imp (h₃.setAx ..) fun _ m₄ h₄ => ?_
  rw [wp_bind]
  refine wp_imp (h₄.pushReg .rax (by simp [savedRegs])) fun _ m₅ h₅ => ?_
  -- rax was cleared, so that the word is the segment alone
  have hds : Function.update (Function.update reg .rax 0) .rax
      (Function.update reg .rax 0 .rax &&& ~~~0xffff ||| (seg .ds).setWidth 64) .rax = (seg .ds).setWidth 64 := by simp
  rw [hds] at h₅
  rw [wp_bind]
  refine wp_imp (h₅.setAx ..) fun _ m₆ h₆ => ?_
  rw [wp_bind]
  refine wp_imp h₆.loadSegments fun _ m₇ h₇ => ?_
  rw [wp_bind, wp_get, wp_bind, h₇.load (by simp [savedRegs]), wp_bind]
  refine wp_imp h₇.changeFlags fun _ m₈ h₈ => ?_
  rw [wp_bind]
  split_ifs
  · rw [wp_bind]
    refine wp_imp h₈.rdtsc fun _ m₉ h₉ => ?_
    rw [wp_bind, wp_get, wp_bind]
    refine wp_imp (h₉.setAx ..) fun _ m₁₀ h₁₀ => ?_
    refine wp_imp (h₁₀.call _ (by simp [savedRegs]) fun m _ => hseed m) ?_
    rintro _ m₁₁ ⟨reg₁₁, seg₁₁, h₁₁⟩
    exact wp_dispatch hdispatch h₁₁
  · rw [wp_pure]
    exact wp_dispatch hdispatch h₈

theorem wp_isr {n : Nat} {error_code : Option Word} (hseed : Returns kept E entropy_pool_seed)
    (hdispatch : Returns kept E (interrupts_dispatcher
      ⟨(seg .ds).setWidth 64, reg, BitVec.ofNat 64 n, error_code.getD 0, rip, cs, rflags, rsp, ss⟩))
    (herror : error_code.isSome = decide (n ∈ withErrorCode))
    (h : At kept m₀ top (error_code.toList ++ [rip, cs, rflags, rsp, ss]) reg seg m) :
    wp (isr alu tsc return_address entropy_pool_seed interrupts_dispatcher n)
      (fun _ => Restored kept m₀ top reg (fun _ => seg .ds) rip cs rflags rsp ss) E m := by
  unfold isr
  rw [wp_bind]
  refine wp_imp h.cli fun _ m₁ h₁ => ?_
  rw [wp_bind]
  -- one word is above the frame of `iretq` in both cases
  cases error_code with
  | some error_code =>
    rw [if_pos (decide_eq_true_iff.mp herror.symm), wp_pure, wp_bind]
    refine wp_imp (h₁.push _ (by simp)) fun _ m₂ h₂ => ?_
    exact wp_service_interrupt hseed hdispatch h₂
  | none =>
    rw [if_neg (decide_eq_false_iff_not.mp herror.symm)]
    refine wp_imp (h₁.push _ (by simp)) fun _ m₂ h₂ => ?_
    rw [wp_bind]
    refine wp_imp (h₂.push _ (by simp)) fun _ m₃ h₃ => ?_
    exact wp_service_interrupt hseed hdispatch h₃

theorem wp_takeInterrupt (kept : Word → Prop) {error_code : Option Word}
    (hmapped : Mapped m.cpu.mem (m.interruptStack - BitVec.ofNat 64 interruptArea) interruptArea) :
    wp (takeInterrupt error_code) (fun _ => At kept m.cpu.mem m.interruptStack
      (error_code.toList ++ [m.cpu.rip, m.cs.setWidth 64, m.cpu.rflags, m.cpu.rsp, m.ss.setWidth 64]) m.cpu.reg m.seg) E m := by
  have h₀ : At kept m.cpu.mem m.interruptStack [] m.cpu.reg m.seg { m with cpu.rsp := m.interruptStack } :=
    ⟨rfl, rfl, by simp, frame_nil, hmapped, fun _ _ _ => rfl⟩
  unfold takeInterrupt
  rw [wp_bind, wp_get, wp_bind, wp_modify, wp_bind]
  refine wp_imp (h₀.push _ (by simp)) fun _ m₁ h₁ => ?_
  rw [wp_bind]
  refine wp_imp (h₁.push _ (by simp)) fun _ m₂ h₂ => ?_
  rw [wp_bind]
  refine wp_imp (h₂.push _ (by simp)) fun _ m₃ h₃ => ?_
  rw [wp_bind]
  refine wp_imp (h₃.push _ (by simp)) fun _ m₄ h₄ => ?_
  rw [wp_bind]
  refine wp_imp (h₄.push _ (by simp)) fun _ m₅ h₅ => ?_
  rw [wp_bind]
  cases error_code with
  | some error_code =>
    refine wp_imp (h₅.push _ (by simp)) fun _ m₆ h₆ => ?_
    exact (wp_modify ..).mpr ⟨h₆.reg, h₆.seg, h₆.pushed.rsp, h₆.pushed.frame, h₆.pushed.mapped, h₆.pushed.same⟩
  | none =>
    rw [wp_pure]
    exact (wp_modify ..).mpr ⟨h₅.reg, h₅.seg, h₅.pushed.rsp, h₅.pushed.frame, h₅.pushed.mapped, h₅.pushed.same⟩

/-- A machine with all memory mapped, in user mode. -/
def userProcessor : Processor := ⟨⟨fun _ => 0, 0x1100, 0, 0, 0x8000, 0, fun _ => some 0⟩, 0x1b, 0x23, fun _ => 0x23⟩

theorem returns_pop (kept : Word → Prop) : Returns kept (fun _ => False) (do let _ ← onCpu popWord) := by
  intro m hmapped
  have hword : Mapped m.cpu.mem m.cpu.rsp 8 := fun i hi => hmapped i (hi.trans (by decide))
  rw [wp_bind, wp_onCpu, wp_popWord, guarded_of hword, wp_pure]
  exact ⟨rfl, hmapped, fun _ _ => rfl⟩

end Service

end KernelOfTruth.Isr
