import KernelOfTruth.Rules
import KernelOfTruth.Spec.Interrupts

/-! # The handlers of the interrupts -/

open KernelOfTruth.Lib KernelOfTruth.Code KernelOfTruth.Spec KernelOfTruth.Rules

namespace KernelOfTruth.Interrupts

variable {H σ : Type} {E : Halt → Prop}

section Places

variable [DecidableEq H]

theorem replace_of_mem {places : Places H} {number : Nat} {old new : Option H} (h : old ∈ places number) :
    places.replace number old new = Function.update places number (new ::ₘ (places number).erase old) :=
  if_pos h

theorem replace_of_notMem {places : Places H} {number : Nat} {old new : Option H} (h : old ∉ places number) :
    places.replace number old new = places :=
  if_neg h

/-- A place of the table is written. -/
def put (s : Interrupts H σ) (number i : Nat) (handler : Option H) : Interrupts H σ :=
  { s with Interrupt_Dispatch :=
    Function.update s.Interrupt_Dispatch number (Function.update (s.Interrupt_Dispatch number) i handler) }

theorem wp_replaceLoop {number : Nat} {old new : Option H} {otherwise : HandlerStatus} {s : Interrupts H σ}
    {Q : HandlerStatus → Interrupts H σ → Prop} {n i : Nat}
    (hfound : ∀ j < i + n, s.Interrupt_Dispatch number j = old → Q .Ok (put s number j new))
    (habsent : (∀ j < i + n, i ≤ j → s.Interrupt_Dispatch number j ≠ old) → Q otherwise s) :
    wp (replaceLoop number old new otherwise n i) Q E s := by
  induction n generalizing i with
  | zero =>
    unfold replaceLoop
    rw [wp_pure]
    exact habsent fun j hj hij => by omega
  | succ n ih =>
    unfold replaceLoop
    rw [wp_bind, wp_get, wp_ite]
    split
    · rename_i hold
      rw [wp_bind, wp_set, wp_pure]
      exact hfound i (by omega) hold
    · rename_i hne
      refine ih (fun j hj => hfound j (by omega)) fun hnone => habsent fun j hj hij => ?_
      rcases Nat.eq_or_lt_of_le hij with rfl | hlt
      · exact hne
      · exact hnone j (by omega) hlt

/-- The table holds the bags, and nobody has the lock. -/
def Holds (s : Locked (Interrupts H σ)) (places : Places H) : Prop :=
  s.lock = Lock_Clear ∧ ∀ number, bag (s.state.Interrupt_Dispatch number) 10 = places number

theorem Holds.put {state : Interrupts H σ} {places : Places H} {number j : Nat} {old new : Option H}
    (h : Holds ⟨Lock_Clear, state⟩ places) (hj : j < 10) (hold : state.Interrupt_Dispatch number j = old) :
    Holds ⟨Lock_Clear, Interrupts.put state number j new⟩ (places.replace number old new) := by
  have hmem : old ∈ places number := by
    rw [← h.2 number]
    exact mem_bag.mpr ⟨j, hj, hold⟩
  refine ⟨rfl, fun v => ?_⟩
  rw [replace_of_mem hmem]
  by_cases hv : v = number
  · subst hv
    have hset := bag_set (f := state.Interrupt_Dispatch v) hj new
    simp only [Interrupts.put, Function.update_self]
    rw [hold, h.2 v] at hset
    rw [← Multiset.erase_cons_tail_of_mem hmem, ← hset, Multiset.erase_cons_head]
  · simp only [Interrupts.put, Function.update_of_ne hv]
    exact h.2 v

theorem wp_replaceHandler {s : Locked (Interrupts H σ)} {places : Places H} {number : Nat} {old new : Option H}
    {otherwise : HandlerStatus} (h : Holds s places) (hnumber : number < 256) :
    wp (replaceHandler number old new otherwise)
      (fun status s' => status = (if old ∈ places number then .Ok else otherwise) ∧ Holds s' (places.replace number old new))
      (fun _ => False) s := by
  obtain ⟨lock, state⟩ := s
  obtain rfl : lock = Lock_Clear := h.1
  have hin : 0 ≤ (number : Int) ∧ (number : Int) < IDT_Size := by
    unfold IDT_Size
    omega
  have hmem : old ∈ places number ↔ ∃ j < 10, state.Interrupt_Dispatch number j = old := by
    rw [← h.2 number]
    exact mem_bag
  unfold replaceHandler
  rw [wp_bind, wp_acquireLock, wp_bind, if_pos hin, wp_onState]
  refine wp_replaceLoop (fun j hj hold => ?_) fun hnone => ?_
  · rw [wp_bind, wp_releaseLock, wp_pure]
    have hj : j < 10 := by simpa [Interrupt_Handlers_Count] using hj
    exact ⟨(if_pos (hmem.mpr ⟨j, hj, hold⟩)).symm, h.put hj hold⟩
  · rw [wp_bind, wp_releaseLock, wp_pure]
    have hnot : old ∉ places number := by
      rw [hmem]
      rintro ⟨j, hj, hold⟩
      exact hnone j (by simpa [Interrupt_Handlers_Count] using hj) (Nat.zero_le j) hold
    rw [replace_of_notMem hnot, if_neg hnot]
    exact ⟨rfl, h⟩

/-- A call for a number without a line in the table does not return. -/
theorem replaceHandler_lt {s s' : Locked (Interrupts H σ)} {number : Nat} {old new : Option H}
    {otherwise status : HandlerStatus} (hlock : s.lock = Lock_Clear)
    (hrun : (replaceHandler number old new otherwise).run s = .ok (status, s')) : number < 256 := by
  by_contra hnot
  obtain ⟨lock, state⟩ := s
  obtain rfl : lock = Lock_Clear := hlock
  have hfault : wp (replaceHandler number old new otherwise) (fun _ _ => False) (fun _ => True) ⟨Lock_Clear, state⟩ := by
    unfold replaceHandler
    rw [wp_bind, wp_acquireLock, wp_bind, if_neg (by unfold IDT_Size; omega), wp_throw]
    trivial
  exact wp_ok hfault hrun

end Places

section Dispatch

variable {run : H → InterruptCpuState → Kernel (Locked (Interrupts H σ)) (Bool × InterruptCpuState)}

/-- The loop calls the handlers that it finds, in their order. -/
theorem dispatchLoop_run (hkeeps : KeepsTable run) (n i : Nat) (r : InterruptCpuState) (s : Locked (Interrupts H σ)) :
    (dispatchLoop run n i r).run s =
      (callHandlers run ((List.range' i n).filterMap (s.state.Interrupt_Dispatch r.interrupt_number.toNat)) r).run s := by
  induction n generalizing i r s with
  | zero => rfl
  | succ n ih =>
    rw [List.range'_succ, List.filterMap_cons]
    unfold dispatchLoop
    simp only [StateT.run_bind, StateT.run_get, pure_bind]
    cases hplace : s.state.Interrupt_Dispatch r.interrupt_number.toNat i with
    | none => exact ih (i + 1) r s
    | some handler =>
      unfold callHandlers
      simp only [StateT.run_bind]
      cases hcall : (run handler r).run s with
      | error e => rfl
      | ok result =>
        obtain ⟨⟨handled, r'⟩, s'⟩ := result
        obtain ⟨-, htable, hnumber⟩ := wp_ok (hkeeps handler r s) hcall
        cases handled with
        | true => rfl
        | false =>
          have hrest := ih (i + 1) r' s'
          rw [htable, hnumber] at hrest
          exact hrest

theorem wp_callHandlers (hkeeps : KeepsTable run) (handlers : List H) (r : InterruptCpuState) (s : Locked (Interrupts H σ)) :
    wp (callHandlers run handlers r) (fun result s' => s'.lock = s.lock ∧
      s'.state.Interrupt_Dispatch = s.state.Interrupt_Dispatch ∧ result.2.interrupt_number = r.interrupt_number)
      (fun _ => True) s := by
  induction handlers generalizing r s with
  | nil => exact (wp_pure ..).mpr ⟨rfl, rfl, rfl⟩
  | cons handler handlers ih =>
    unfold callHandlers
    rw [wp_bind]
    refine wp_imp (hkeeps handler r s) fun result s' hcall => ?_
    obtain ⟨handled, r'⟩ := result
    rw [wp_ite]
    split
    · exact (wp_pure ..).mpr hcall
    · refine wp_imp (ih r' s') fun _ _ hrest => ?_
      exact ⟨hrest.1.trans hcall.1, hrest.2.1.trans hcall.2.1, hrest.2.2.trans hcall.2.2⟩

theorem pic_end_of_interrupt_eq (number : Word) (h : number.toNat < 256) :
    pic_end_of_interrupt (number.setWidth 8) = (modify fun s => { s with state.ports :=
      (if number.toNat ≤ 8 then [(0x20, 0x20)] else [(0x20, 0x20), (0xa0, 0x20)]) ++ s.state.ports } :
        Kernel (Locked (Interrupts H σ)) Unit) := by
  have hnumber : number.setWidth 8 > PIC2_First_Interrupt ↔ ¬ number.toNat ≤ 8 := by
    rw [gt_iff_lt, BitVec.lt_def, BitVec.toNat_setWidth, Nat.mod_eq_of_lt h, not_le]
    rfl
  unfold pic_end_of_interrupt
  by_cases hle : number.toNat ≤ 8
  · rw [if_neg (mt hnumber.mp (not_not.mpr hle)), if_pos hle]
    rfl
  · rw [if_pos (hnumber.mpr hle), if_neg hle]
    rfl

/-- The dispatcher does what the handlers at the interrupt's places do. -/
theorem interrupts_dispatcher_run (hkeeps : KeepsTable run) {r : InterruptCpuState} (h : r.interrupt_number.toNat < 256)
    (s : Locked (Interrupts H σ)) :
    (interrupts_dispatcher run r).run s = (serveInterrupt run
      ((List.range' 0 10).filterMap (s.state.Interrupt_Dispatch r.interrupt_number.toNat)) r).run s := by
  have hloop := dispatchLoop_run hkeeps 10 0 r s
  have hassert : (assert "interrupts_dispatcher" (r.interrupt_number.toNat < IDT_Size) : Kernel (Locked (Interrupts H σ)) Unit) =
      pure () :=
    if_pos (decide_eq_true h)
  unfold interrupts_dispatcher serveInterrupt
  rw [hassert, pure_bind, StateT.run_bind, StateT.run_bind]
  unfold Interrupt_Handlers_Count
  rw [hloop]
  cases hcall : (callHandlers run ((List.range' 0 10).filterMap (s.state.Interrupt_Dispatch r.interrupt_number.toNat)) r).run s with
  | error e => rfl
  | ok result =>
    obtain ⟨⟨handled, r'⟩, s'⟩ := result
    have hnumber : r'.interrupt_number = r.interrupt_number := (wp_ok (wp_callHandlers hkeeps _ r s) hcall).2.2
    have hlt : r'.interrupt_number < 32 ↔ r'.interrupt_number.toNat < 32 := Iff.rfl
    change ((if r'.interrupt_number < 32 ∧ !handled then throw _ else pure ()) >>= fun _ => _ : Kernel _ Unit).run s' =
      (if _ then _ else _ : Kernel _ Unit).run s'
    rw [← pic_end_of_interrupt_eq r'.interrupt_number (hnumber ▸ h)]
    by_cases hstop : r'.interrupt_number < 32 ∧ !handled
    · rw [if_pos hstop, if_pos ⟨hstop.2, hlt.mp hstop.1⟩]
      rfl
    · rw [if_neg hstop, if_neg fun hother => hstop ⟨hlt.mpr hother.2, hother.1⟩]
      rfl

/-- Nothing but a handler can change the table, and no handler does. -/
theorem wp_interrupts_dispatcher (hkeeps : KeepsTable run) (r : InterruptCpuState) (s : Locked (Interrupts H σ)) :
    wp (interrupts_dispatcher run r)
      (fun _ s' => s'.lock = s.lock ∧ s'.state.Interrupt_Dispatch = s.state.Interrupt_Dispatch) (fun _ => True) s := by
  by_cases h : r.interrupt_number.toNat < 256
  · rw [ wp_partial, interrupts_dispatcher_run hkeeps h s, ← wp_partial]
    unfold serveInterrupt
    rw [wp_bind]
    refine wp_imp (wp_callHandlers hkeeps _ r s) fun result s' hcall => ?_
    obtain ⟨handled, r'⟩ := result
    rw [wp_ite]
    split
    · exact (wp_throw ..).mpr trivial
    · exact (wp_modify ..).mpr ⟨hcall.1, hcall.2.1⟩
  · unfold interrupts_dispatcher
    have hassert : decide (r.interrupt_number.toNat < IDT_Size) = false := decide_eq_false h
    rw [wp_bind, wp_assert_false hassert]
    trivial

end Dispatch

section Runs

variable [DecidableEq H] {run : H → InterruptCpuState → Kernel (Locked (Interrupts H σ)) (Bool × InterruptCpuState)}
  {s : Locked (Interrupts H σ)} {places : Places H}

theorem Reached.holds (hkeeps : KeepsTable run) (h : Reached run s places) : Holds s places := by
  induction h with
  | start ports rest =>
    refine ⟨rfl, fun number => ?_⟩
    simp [bag]
  | register h hrun ih => exact (wp_ok (wp_replaceHandler ih (replaceHandler_lt ih.1 hrun)) hrun).2
  | unregister h hrun ih => exact (wp_ok (wp_replaceHandler ih (replaceHandler_lt ih.1 hrun)) hrun).2
  | interrupt h hrun ih =>
    obtain ⟨hlock, htable⟩ := wp_ok (wp_interrupts_dispatcher hkeeps _ _) hrun
    refine ⟨hlock.trans ih.1, fun number => ?_⟩
    rw [htable]
    exact ih.2 number

omit [DecidableEq H] in
theorem Holds.handlers (h : Holds s places) (number : Nat) :
    ((List.range' 0 10).filterMap (s.state.Interrupt_Dispatch number) : Multiset H) = places.handlers number := by
  unfold Places.handlers
  rw [← h.2 number, ← List.range_eq_range', ← Multiset.filterMap_coe, bag, Multiset.filterMap_map]
  rfl

/-- After any calls and interrupts: a call is refused exactly when there is no place for it, and an interrupt is served by its
handlers, each as often as it is registered, in some order. -/
theorem handlers_of_reached (hkeeps : KeepsTable run) (h : Reached run s places) :
    (∀ number : Nat, number < 256 → ∀ handler : Option H,
      wp (interrupt_register_handler number handler)
        (fun status _ => status = if none ∈ places number then .Ok else .Error_Count) (fun _ => False) s ∧
      wp (interrupt_unregister_handler number handler)
        (fun status _ => status = if handler ∈ places number then .Ok else .Error_Absent) (fun _ => False) s) ∧
    ∀ r : InterruptCpuState, r.interrupt_number.toNat < 256 → ∃ handlers : List H,
      (handlers : Multiset H) = places.handlers r.interrupt_number.toNat ∧
      (interrupts_dispatcher run r).run s = (serveInterrupt run handlers r).run s := by
  have hholds := Reached.holds hkeeps h
  refine ⟨fun number hnumber handler => ⟨?_, ?_⟩, fun r hr => ?_⟩
  · exact wp_imp (wp_replaceHandler hholds hnumber) fun _ _ hstatus => hstatus.1
  · exact wp_imp (wp_replaceHandler hholds hnumber) fun _ _ hstatus => hstatus.1
  · exact ⟨_, hholds.handlers _, interrupts_dispatcher_run hkeeps hr s⟩

/-- A handler of this kind only says whether it handles an interrupt. -/
def answer (handled : Bool) (r : InterruptCpuState) : Kernel (Locked (Interrupts Bool Unit)) (Bool × InterruptCpuState) :=
  pure (handled, r)

theorem handlers_of_reached_registered : ∃ s places, Reached answer s places ∧ some true ∈ places 33 ∧
    wp (interrupt_unregister_handler 33 (some true)) (fun status _ => status = .Ok) (fun _ => False) s := by
  have hkeeps : KeepsTable answer := fun _ _ _ => (wp_pure ..).mpr ⟨rfl, rfl, rfl⟩
  have hstart : Reached answer _ _ := .start [] ()
  have hregister : wp (interrupt_register_handler (33 : Nat) (some true)) (fun _ _ => True) (fun _ => False) _ :=
    wp_imp (wp_replaceHandler (Reached.holds hkeeps hstart) (by decide)) fun _ _ _ => trivial
  obtain ⟨status, s, hrun, -⟩ := wp_total hregister
  have h := hstart.register hrun
  refine ⟨s, _, h, by decide +kernel, ?_⟩
  refine wp_imp (((handlers_of_reached hkeeps h).1 33 (by decide) (some true)).2) fun status _ hstatus => ?_
  rw [hstatus]
  exact if_pos (by decide +kernel)

end Runs

end KernelOfTruth.Interrupts
