import KernelOfTruth.ProcessPool
import KernelOfTruth.Realloc

/-! # The table of threads of a process -/

open KernelOfTruth.Lib KernelOfTruth.Code KernelOfTruth.Code.Processes KernelOfTruth.Spec KernelOfTruth.Rules
  KernelOfTruth.Strings KernelOfTruth.Regions KernelOfTruth.Heap KernelOfTruth.HeapRuns KernelOfTruth.Realloc
  KernelOfTruth.ProcessPool

namespace KernelOfTruth.ThreadTables

variable {σ : Type} {E F : Halt → Prop} {Own : σ → Nodes → Prop} {s s' : ProcessState (HeapState σ)} {proc t : Word}

/-! ## Slots -/

theorem wp_loadSlot {threads i : Word} {k : Nat} {Q : Word → ProcessState (HeapState σ) → Prop} (hi : BitVec.ofNat 64 k = i)
    (hmapped : Mapped s.heap.mem (pointerSlot threads k) 8) : wp (loadSlot threads i) Q E s ↔
      Q (wordAt s.heap.mem 8 (pointerSlot threads k)) { s with touched := s.touched ++ [(threads, i)] } := by
  subst hi
  unfold loadSlot Processes.onHeap onMem
  rw [wp_bind, wp_modify, wp_zoom, wp_zoom, wp_load]
  exact guarded_of hmapped

theorem wp_storeSlot {threads i thread : Word} {k : Nat} {Q : Unit → ProcessState (HeapState σ) → Prop}
    (hi : BitVec.ofNat 64 k = i) (hmapped : Mapped s.heap.mem (pointerSlot threads k) 8) :
    wp (storeSlot threads i thread) Q E s ↔
      Q () { s with
        heap := { s.heap with mem := stored s.heap.mem 8 (pointerSlot threads k) thread }
        touched := s.touched ++ [(threads, i)] } := by
  subst hi
  unfold storeSlot Processes.onHeap onMem
  rw [wp_bind, wp_modify, wp_zoom, wp_zoom, wp_store (by decide)]
  exact guarded_of hmapped

/-! ## A call that finds a free slot -/

/-- The state after the thread `t` has been put into the slot `k`. -/
structure Placed (s s' : ProcessState (HeapState σ)) (proc t : Word) (k : Nat) : Prop where
  empty : slotOf s proc k = 0
  heap : s'.heap = { s.heap with mem := stored s.heap.mem 8 (pointerSlot (s.processes proc).threads k) t }
  processes : s'.processes = s.processes
  threads : s'.threads = Function.update s.threads t { s.threads t with id := (BitVec.ofNat 64 k).setWidth 32 }
  pool : s'.Process_Pool = s.Process_Pool
  touched : ∀ a ∈ s'.touched, a ∈ s.touched ∨ (a.1 = (s.processes proc).threads ∧ ∃ i ≤ k, a.2 = BitVec.ofNat 64 i)

section Loop

variable {nodes : NodeStore σ} {slab_alloc_locked : Word → Word → Kernel σ Word}
  {slab_free_locked : Word → Word → Kernel σ Unit}

/-- By induction on the slots that are left, of which number `j` is free. -/
theorem wp_addThreadLoop {left i j n : Nat} (hmapped : Mapped s.heap.mem (s.processes proc).threads (8 * n)) (hj : j < n)
    (hfree : slotOf s proc j = 0) (hi : i ≤ j) (hleft : j < i + left) :
    wp (addThreadLoop nodes slab_alloc_locked proc t left (BitVec.ofNat 64 i))
      (fun status s' => status = .Ok ∧ ∃ k, i ≤ k ∧ k ≤ j ∧ Placed s s' proc t k) E s := by
  induction left generalizing i s with
  | zero => omega
  | succ left ih =>
    have hslot := slot_mapped (show i < n by omega) hmapped
    unfold addThreadLoop
    rw [wp_bind, wp_get, wp_bind, wp_loadSlot rfl hslot]
    split
    · rename_i hzero
      rw [wp_bind]
      refine (wp_storeSlot rfl ?slot).mpr ?_
      case slot => exact hslot
      rw [wp_bind, modifyThread, wp_modify, wp_pure]
      refine ⟨rfl, i, le_rfl, hi, hzero, rfl, rfl, rfl, rfl, fun a ha => ?_⟩
      simp only [List.mem_append, List.mem_singleton] at ha
      rcases ha with (ha | rfl) | rfl
      · exact .inl ha
      · exact .inr ⟨rfl, i, le_rfl, rfl⟩
      · exact .inr ⟨rfl, i, le_rfl, rfl⟩
    · rename_i hfull
      have hne : i ≠ j := fun hij => hfull (hij ▸ hfree)
      rw [show BitVec.ofNat 64 i + 1 = BitVec.ofNat 64 (i + 1) from (BitVec.ofNat_add i 1).symm]
      refine wp_imp (ih (s := { s with touched := _ }) hmapped hfree (by omega) (by omega)) ?_
      rintro status s' ⟨rfl, k, hik, hkj, hplaced⟩
      refine ⟨rfl, k, by omega, hkj, hplaced.empty, hplaced.heap, hplaced.processes, hplaced.threads, hplaced.pool, ?_⟩
      intro a ha
      rcases hplaced.touched a ha with hold | hnew
      · simp only [List.mem_append, List.mem_singleton] at hold
        rcases hold with hold | rfl
        · exact .inl hold
        · exact .inr ⟨rfl, i, by omega, rfl⟩
      · exact .inr hnew

theorem wp_process_add_thread {j n : Nat} (hproc : proc ≠ 0) (ht : t ≠ 0)
    (hmapped : Mapped s.heap.mem (s.processes proc).threads (8 * n)) (hj : j < n) (hfree : slotOf s proc j = 0)
    (hcapacity : j < (s.processes proc).thread_capacity.toNat) :
    wp (process_add_thread nodes slab_alloc_locked proc t)
      (fun status s' => status = .Ok ∧ ∃ k ≤ j, Placed s s' proc t k) E s := by
  unfold process_add_thread
  rw [wp_bind, wp_assert_decide hproc, wp_bind, wp_assert_decide ht, wp_bind, wp_get]
  refine wp_imp (wp_addThreadLoop (i := 0) hmapped hj hfree (Nat.zero_le j) (by omega)) ?_
  rintro status s' ⟨rfl, k, -, hkj, hplaced⟩
  exact ⟨rfl, k, hkj, hplaced⟩

end Loop

/-! ## The table -/

section Table

variable {live : Multiset Block} {free : Multiset Region} {added : List Word} {k : Nat}

/-- The table is an array of ten slots in the heap, and has the threads that were added. -/
structure TableHeld (Own : σ → Nodes → Prop) (s : ProcessState (HeapState σ)) (proc : Word) (added : List Word)
    (live : Multiset Block) (free : Multiset Region) : Prop where
  heap : HeapInv Own s.heap live free
  array : ⟨(s.processes proc).threads, 80⟩ ∈ live
  capacity : (s.processes proc).thread_capacity = 10
  touched : ∀ a ∈ s.touched, a.1 = (s.processes proc).threads ∧ a.2.toNat < 10
  added : ∀ t ∈ added, t ≠ 0 ∧ (s.threads t).id.toNat < 10 ∧ slotOf s proc (s.threads t).id.toNat = t

theorem TableHeld.right (h : TableHeld Own s proc added live free) : ThreadsRight s proc added live := by
  refine ⟨fun t ht => (h.added t ht).2.2, fun t ht t' ht' hne hid => hne ?_, fun a ha => ?_⟩
  · rw [← (h.added t ht).2.2, hid]
    exact (h.added t' ht').2.2
  · obtain ⟨hptr, hlt⟩ := h.touched a ha
    refine ⟨_, h.array, hptr.symm, ?_⟩
    show 8 * (a.2.toNat + 1) ≤ 80
    omega

/-- A store to one slot of the array. -/
theorem slot_stored {m : Memory} {array v : Word} {i : Nat} (hi : i < 10) (hk : k < 10) (hne : i ≠ k) :
    wordAt (stored m 8 (pointerSlot array k) v) 8 (pointerSlot array i) = wordAt m 8 (pointerSlot array i) :=
  wordAt_congr (by decide) fun _ hx => stored_of_not_covers (slots_apart hi hk (by decide) hne hx)

theorem Placed.slot (hplaced : Placed s s' proc t k) : slotOf s' proc k = t := by
  rw [slotOf, hplaced.processes, hplaced.heap]
  exact wordAt_stored _ _ _

theorem Placed.slot_others (hplaced : Placed s s' proc t k) {i : Nat} (hi : i < 10) (hk : k < 10) (hne : i ≠ k) :
    slotOf s' proc i = slotOf s proc i := by
  rw [slotOf, hplaced.processes, hplaced.heap]
  exact slot_stored hi hk hne

theorem Placed.heapInv (hplaced : Placed s s' proc t k) (h : HeapInv Own s.heap live free)
    (harray : ⟨(s.processes proc).threads, 80⟩ ∈ live) (hk : k < 10) : HeapInv Own s'.heap live free := by
  rw [hplaced.heap]
  exact write_block h harray (fun x => isSome_stored) fun x hx => stored_of_not_covers fun hc =>
    hx (slot_covers (n := 10) hk (by decide) hc)

theorem Placed.id (hplaced : Placed s s' proc t k) (hk : k < 10) : (s'.threads t).id.toNat = k := by
  rw [hplaced.threads, Function.update_self]
  show ((BitVec.ofNat 64 k).setWidth 32).toNat = k
  rw [BitVec.toNat_setWidth, BitVec.toNat_ofNat]
  omega

theorem Placed.held (hplaced : Placed s s' proc t k) (h : TableHeld Own s proc added live free) (hk : k < 10) (ht : t ≠ 0)
    (hnew : t ∉ added) : TableHeld Own s' proc (t :: added) live free := by
  refine ⟨hplaced.heapInv h.heap h.array hk, ?_, ?_, fun a ha => ?_, fun t' ht' => ?_⟩
  · rw [hplaced.processes]
    exact h.array
  · rw [hplaced.processes]
    exact h.capacity
  · rw [hplaced.processes]
    rcases hplaced.touched a ha with hold | ⟨hptr, i, hi, hslot⟩
    · exact h.touched a hold
    · refine ⟨hptr, ?_⟩
      rw [hslot, BitVec.toNat_ofNat]
      omega
  · rcases List.mem_cons.mp ht' with rfl | hmem
    · rw [hplaced.id hk]
      exact ⟨ht, hk, hplaced.slot⟩
    · obtain ⟨hne, hid, hslot⟩ := h.added t' hmem
      have hsame : s'.threads t' = s.threads t' := by
        rw [hplaced.threads]
        exact Function.update_of_ne (fun heq : t' = t => hnew (heq ▸ hmem)) ..
      rw [hsame]
      refine ⟨hne, hid, ?_⟩
      -- the slot of `t'` is not free
      rw [hplaced.slot_others hid hk fun heq => hne ?_]
      · exact hslot
      · rw [← hslot, heq]
        exact hplaced.empty

end Table

/-! ## A new process -/

section Init

variable {nodes : NodeStore σ} {slab_alloc_locked : Word → Word → Kernel σ Word}
  {slab_free_locked : Word → Word → Kernel σ Unit} {services : Services σ}

/-- The other parts of the kernel leave the blocks of the heap alone that they do not know of. -/
structure ServiceLaws (Own : σ → Nodes → Prop) (services : Services σ) : Prop where
  slab_alloc : ∀ b size permissions, Leaves Own b (services.slab_alloc size permissions)
  thread_user_stack_init : ∀ b thread proc entry, Leaves Own b (services.thread_user_stack_init thread proc entry)
  process_create_address_space : ∀ b, Leaves Own b services.process_create_address_space
  page_table_init : ∀ b, Leaves Own b services.page_table_init
  scheduler_add_thread : ∀ b thread, Leaves Own b (services.scheduler_add_thread thread)

theorem wp_onHeap_leaves {α : Type} {q : Kernel (HeapState σ) α} {b : Block} {h₀ : HeapState σ}
    {Q : α → ProcessState (HeapState σ) → Prop} (hq : Leaves Own b q) (h : Stays Own b h₀ s.heap)
    (hQ : ∀ a h', Stays Own b h₀ h' → Q a { s with heap := h' }) : wp (Processes.onHeap q) Q (fun _ => True) s := by
  rw [wp_onHeap]
  exact wp_imp (wp_leaves hq h) hQ

theorem wp_giveUp {page_table vect thread_pool thread : Word} :
    wp (giveUp nodes slab_alloc_locked slab_free_locked services page_table vect thread_pool thread proc)
      (fun r _ => r = 0) (fun _ => True) s := by
  unfold giveUp
  iterate 5 refine (wp_bind ..).mpr (wp_any (fun _ _ => ?_) fun _ => trivial)
  rw [wp_pure]

/-- The table of a process that has no thread yet. -/
structure NewTable (Own : σ → Nodes → Prop) (s : ProcessState (HeapState σ)) (proc array : Word) : Prop where
  threads : (s.processes proc).threads = array
  heap : ∃ live free, HeapInv Own s.heap live free ∧ ⟨array, 80⟩ ∈ live
  empty : wordAt s.heap.mem 8 (pointerSlot array 0) = 0
  capacity : (s.processes proc).thread_capacity = 0xcccccccc

/-- Its first thread has been put into it. -/
structure FirstPlaced (Own : σ → Nodes → Prop) (s s' : ProcessState (HeapState σ)) (array t : Word) : Prop where
  processes : s'.processes = s.processes
  pool : s'.Process_Pool = s.Process_Pool
  id : (s'.threads t).id = 0
  heap : ∃ live free, HeapInv Own s'.heap live free ∧ ⟨array, 80⟩ ∈ live
  slot : wordAt s'.heap.mem 8 (pointerSlot array 0) = t
  touched : ∀ a ∈ s'.touched, a ∈ s.touched ∨ (a.1 = array ∧ a.2 = 0)

variable {array entry : Word}

theorem wp_placeThread (h : NewTable Own s proc array) (hproc : proc ≠ 0) (ht : t ≠ 0) :
    wp (placeThread nodes slab_alloc_locked slab_free_locked services proc t)
      (fun r s' => r = t ∧ FirstPlaced Own s s' array t) E s := by
  obtain ⟨rfl, ⟨live, free, hheap, harray⟩, hempty, hcapacity⟩ := h
  unfold placeThread
  rw [wp_bind]
  have hslots : 0 < (s.processes proc).thread_capacity.toNat := by
    rw [hcapacity]
    decide
  refine wp_imp (wp_process_add_thread (n := 10) hproc ht (mapped_block hheap harray) (by decide) hempty hslots) ?_
  rintro status s' ⟨rfl, k, hk, hplaced⟩
  obtain rfl : k = 0 := by omega
  rw [wp_bind, if_neg (by decide), wp_pure, wp_bind, modifyThread, wp_modify, wp_pure]
  refine ⟨rfl, hplaced.processes, hplaced.pool, ?_, ⟨live, free, hplaced.heapInv hheap harray (by decide), harray⟩, ?_, ?_⟩
  · show (Function.update s'.threads t _ t).id = 0
    rw [Function.update_self, hplaced.threads, Function.update_self]
    rfl
  · have hslot := hplaced.slot
    rwa [slotOf, hplaced.processes] at hslot
  · intro a ha
    rcases hplaced.touched a ha with hold | ⟨hptr, i, hi, hslot⟩
    · exact .inl hold
    · obtain rfl : i = 0 := by omega
      exact .inr ⟨hptr, hslot⟩

/-- What `thread_init` leaves as it was before there is a thread to place. -/
structure Quiet (Own : σ → Nodes → Prop) (array : Word) (s s' : ProcessState (HeapState σ)) : Prop where
  processes : s'.processes = s.processes
  pool : s'.Process_Pool = s.Process_Pool
  touched : s'.touched = s.touched
  heap : Stays Own ⟨array, 80⟩ s.heap s'.heap

theorem Quiet.newTable (hquiet : Quiet Own array s s') (h : NewTable Own s proc array) : NewTable Own s' proc array := by
  obtain ⟨live, free, hheap, hmem, hbytes⟩ := hquiet.heap
  refine ⟨?_, ⟨live, free, hheap, hmem⟩, ?_, ?_⟩
  · rw [hquiet.processes]
    exact h.threads
  · rw [← h.empty]
    exact wordAt_congr (by decide) fun x hx => hbytes x (slot_covers (n := 10) (by decide) (by decide) hx)
  · rw [hquiet.processes]
    exact h.capacity

theorem wp_initUserStack (laws : ServiceLaws Own services) (s₀ : ProcessState (HeapState σ)) (array : Word)
    (h : Quiet Own array s₀ s) (user_space : Bool) :
    wp (initUserStack services t proc entry user_space) (fun _ s' => Quiet Own array s₀ s') (fun _ => True) s := by
  obtain ⟨hprocesses, hpool, htouched, hheap⟩ := h
  unfold initUserStack
  cases user_space with
  | false =>
    rw [if_neg Bool.false_ne_true, wp_bind, modifyThread, wp_modify, wp_pure]
    exact ⟨hprocesses, hpool, htouched, hheap⟩
  | true =>
    rw [if_pos rfl, wp_bind, modifyThread, wp_modify, wp_bind]
    refine wp_onHeap_leaves (laws.thread_user_stack_init _ t proc entry) hheap fun r h' hheap' => ?_
    rw [wp_bind, modifyThread, wp_modify, wp_pure]
    exact ⟨hprocesses, hpool, htouched, hheap'⟩

theorem wp_thread_init (laws : StoreLaws nodes Own) (hpages : PageLaws slab_alloc_locked slab_free_locked Own F)
    (hservices : ServiceLaws Own services) (array : Word) (h : NewTable Own s proc array) (hproc : proc ≠ 0) (user_space : Bool) :
    wp (thread_init nodes slab_alloc_locked slab_free_locked services proc entry user_space)
      (fun t s' => t ≠ 0 → FirstPlaced Own s s' array t) (fun _ => True) s := by
  obtain ⟨live, free, hheap, harray⟩ := h.heap
  have hstays : Stays Own ⟨array, 80⟩ s.heap s.heap := ⟨live, free, hheap, harray, fun _ _ => rfl⟩
  unfold thread_init
  rw [wp_bind]
  refine wp_onHeap_leaves (leaves_kmalloc laws hpages (by decide)) hstays fun t h₁ hstays₁ => ?_
  by_cases ht : t = 0
  · rw [if_pos ht, wp_pure]
    exact fun hne => absurd rfl hne
  rw [if_neg ht, wp_bind, modifyThread, wp_modify, wp_bind]
  refine wp_onHeap_leaves (hservices.slab_alloc _ _ _) hstays₁ fun stack h₂ hstays₂ => ?_
  rw [wp_bind, modifyThread, wp_modify]
  split
  · refine (wp_bind ..).mpr (wp_any (fun _ _ => ?_) fun _ => trivial)
    rw [wp_pure]
    exact fun hne => absurd rfl hne
  rw [wp_bind]
  refine wp_imp (wp_initUserStack hservices s array ?quiet user_space) fun status s₃ hquiet => ?_
  case quiet => exact ⟨rfl, rfl, rfl, hstays₂⟩
  split
  · iterate 2 refine (wp_bind ..).mpr (wp_any (fun _ _ => ?_) fun _ => trivial)
    rw [wp_pure]
    exact fun hne => absurd rfl hne
  · refine wp_imp (wp_placeThread (hquiet.newTable h) hproc ht) ?_
    rintro r s' ⟨rfl, hfirst⟩ -
    refine ⟨?_, ?_, hfirst.id, hfirst.heap, hfirst.slot, ?_⟩
    · rw [hfirst.processes, hquiet.processes]
    · rw [hfirst.pool, hquiet.pool]
    · rw [← hquiet.touched]
      exact hfirst.touched

/-- The table `array` with its first thread, and no access to a slot but the first. -/
structure OnePlaced (Own : σ → Nodes → Prop) (s : ProcessState (HeapState σ)) (proc array t : Word) : Prop where
  threads : (s.processes proc).threads = array
  id : (s.threads t).id = 0
  heap : ∃ live free, HeapInv Own s.heap live free ∧ ⟨array, 80⟩ ∈ live
  slot : wordAt s.heap.mem 8 (pointerSlot array 0) = t
  touched : ∀ a ∈ s.touched, a.1 = array ∧ a.2 = 0

theorem FirstPlaced.onePlaced (hfirst : FirstPlaced Own s s' array t) (hthreads : (s.processes proc).threads = array)
    (htouched : s.touched = []) : OnePlaced Own s' proc array t := by
  refine ⟨?_, hfirst.id, hfirst.heap, hfirst.slot, fun a ha => ?_⟩
  · rw [hfirst.processes]
    exact hthreads
  · refine (hfirst.touched a ha).resolve_left ?_
    rw [htouched]
    exact List.not_mem_nil

theorem OnePlaced.added {es es' : Multiset (Word × Word)} (h : OnePlaced Own s proc array t)
    (hadded : Added s s' es proc es') (hstays : Stays Own ⟨array, 80⟩ s.heap s'.heap) : OnePlaced Own s' proc array t := by
  obtain ⟨live, free, hheap, hlive, hbytes⟩ := hstays
  refine ⟨?_, ?_, ⟨live, free, hheap, hlive⟩, ?_, ?_⟩
  · rw [hadded.process]
    exact h.threads
  · rw [hadded.threads]
    exact h.id
  · rw [← h.slot]
    exact wordAt_congr (by decide) fun x hx => hbytes x (slot_covers (n := 10) (by decide) (by decide) hx)
  · rw [hadded.touched]
    exact h.touched

theorem wp_startProcess (hservices : ServiceLaws Own services) (h : OnePlaced Own s proc array t) (ht : t ≠ 0) :
    wp (startProcess services proc t) (fun r s' => r = proc ∧ ∃ live' free', TableHeld Own s' proc [slotOf s' proc 0] live' free')
      (fun _ => True) s := by
  obtain ⟨hthreads, hid, ⟨live, free, hheap, hlive⟩, hslot, htouched⟩ := h
  have hstays : Stays Own ⟨array, 80⟩ s.heap s.heap := ⟨live, free, hheap, hlive, fun _ _ => rfl⟩
  unfold startProcess
  rw [wp_bind, modifyProcess, wp_modify, wp_bind]
  refine wp_onHeap_leaves (hservices.scheduler_add_thread _ t) hstays fun _ h' hstays' => ?_
  rw [wp_pure]
  obtain ⟨live', free', hheap', hlive', hbytes⟩ := hstays'
  have hslot' : wordAt h'.mem 8 (pointerSlot array 0) = t := by
    rw [← hslot]
    exact wordAt_congr (by decide) fun x hx => hbytes x (slot_covers (n := 10) (by decide) (by decide) hx)
  refine ⟨rfl, live', free', hheap', ?_, ?_, fun a ha => ?_, fun t' ht' => ?_⟩
  · simp only [Function.update_self, hthreads]
    exact hlive'
  · simp only [Function.update_self]
    rfl
  · obtain ⟨hptr, hfirst⟩ := htouched a ha
    simp only [Function.update_self, hthreads, hptr, hfirst, true_and]
    decide
  · simp only [slotOf, Function.update_self, hthreads, hslot', List.mem_singleton] at ht'
    subst ht'
    refine ⟨ht, ?_, ?_⟩
    · simp only [hid]
      decide
    · simp only [slotOf, Function.update_self, hthreads, hid]
      exact hslot'

theorem wp_process_init {live : Multiset Block} {free : Multiset Region} {es : Multiset (Word × Word)}
    (laws : StoreLaws nodes Own) (hpages : PageLaws slab_alloc_locked slab_free_locked Own F)
    (hservices : ServiceLaws Own services) (h : HeapInv Own s.heap live free) (hpool : PoolInv s.Process_Pool es)
    (hbuffer : ∃ b ∈ live, b.ptr = s.Process_Pool.data.address) (htouched : s.touched = []) :
    wp (process_init nodes slab_alloc_locked slab_free_locked services entry)
      (fun proc s' => proc ≠ 0 → ∃ live' free', TableHeld Own s' proc [slotOf s' proc 0] live' free') (fun _ => True) s := by
  have hgone : ∀ {page_table vect thread_pool thread proc : Word} {s' : ProcessState (HeapState σ)},
      wp (giveUp nodes slab_alloc_locked slab_free_locked services page_table vect thread_pool thread proc)
        (fun proc s' => proc ≠ 0 → ∃ live' free', TableHeld Own s' proc [slotOf s' proc 0] live' free') (fun _ => True) s' :=
    wp_imp wp_giveUp fun _ _ hzero hne => absurd hzero hne
  unfold process_init
  rw [wp_bind, wp_onHeap]
  refine wp_partial.mpr fun proc h₁ hrun => ?_
  obtain ⟨free₁, hheap₁⟩ := kmalloc_inv laws hpages h (by decide) hrun
  by_cases hproc : proc = 0
  · rw [if_pos hproc]
    exact hgone
  rw [if_neg hproc] at hheap₁ ⊢
  rw [wp_bind, modifyProcess, wp_modify, wp_bind, wp_onHeap]
  refine wp_imp (wp_kcalloc laws hpages hheap₁ (by decide)) fun array h₂ harray => ?_
  by_cases hnull : array = 0
  · rw [if_pos hnull]
    exact hgone
  rw [if_neg hnull, wp_bind, modifyProcess, wp_modify, wp_bind]
  obtain ⟨-, ⟨free₂, hheap₂⟩, hzero⟩ := harray.resolve_left fun hrefused => hnull hrefused.1
  have hstays : Stays Own ⟨array, 80⟩ h₂ h₂ := ⟨_, _, hheap₂, Multiset.mem_cons_self _ _, fun _ _ => rfl⟩
  obtain ⟨buffer, hmem, hbuffer⟩ := hbuffer
  have hapart : s.Process_Pool.data.address ≠ array := hbuffer ▸ new_ptr_ne hheap₂ (Multiset.mem_cons_of_mem hmem)
  refine wp_onHeap_leaves (hservices.process_create_address_space _) hstays fun vect h₃ hstays₃ => ?_
  by_cases hvect : vect = 0
  · rw [if_pos hvect]
    exact hgone
  rw [if_neg hvect, wp_bind, modifyProcess, wp_modify, wp_bind]
  refine wp_onHeap_leaves (hservices.page_table_init _) hstays₃ fun page_table h₄ hstays₄ => ?_
  by_cases htable : page_table = 0
  · rw [if_pos htable]
    exact hgone
  rw [if_neg htable, wp_bind, modifyProcess, wp_modify, wp_bind]
  obtain ⟨live₄, free₄, hheap₄, hlive₄, hbytes⟩ := hstays₄
  refine wp_imp (wp_thread_init laws hpages hservices array ?new hproc true) fun t s₅ hfirst => ?_
  case new =>
    refine ⟨?_, ⟨live₄, free₄, hheap₄, hlive₄⟩, ?_, ?_⟩
    · simp only [Function.update_self]
    · exact wordAt_zero (by decide) fun x hx => by
        rw [hbytes x (slot_covers (n := 10) (by decide) (by decide) hx)]
        exact hzero x (slot_covers (n := 10) (by decide) (by decide) hx)
    · simp only [Function.update_self]
      rfl
  by_cases ht : t = 0
  · rw [if_pos ht]
    exact hgone
  rw [if_neg ht, wp_bind]
  have hfirst := hfirst ht
  have hone : OnePlaced Own s₅ proc array t := hfirst.onePlaced (by simp only [Function.update_self]) htouched
  rw [← hfirst.pool] at hpool hapart
  obtain ⟨live₅, free₅, hheap₅, hlive₅⟩ := hfirst.heap
  have hstays₅ : Stays Own ⟨array, 80⟩ s₅.heap s₅.heap := ⟨live₅, free₅, hheap₅, hlive₅, fun _ _ => rfl⟩
  refine wp_imp (wp_process_add_pool hpool (fun _ _ => trivial) hstays₅
    (fun bytes h' hpos hlt hstays' => wp_leaves (leaves_kmalloc laws hpages ⟨hpos, by omega⟩) hstays')
    fun h' hstays' => wp_leaves (leaves_kfree laws hpages hapart) hstays') ?_
  rintro status s₆ ⟨hstays₆, hadded⟩
  by_cases hok : status = .Ok
  · rw [if_neg (not_not.mpr hok)]
    rcases hadded with ⟨hfull, -, -⟩ | ⟨-, es', hadded⟩
    · rw [hok] at hfull
      cases hfull
    · refine wp_imp (wp_startProcess hservices (hone.added hadded hstays₆) ht) ?_
      rintro _ s' ⟨rfl, hheld⟩ -
      exact hheld
  · rw [if_pos hok]
    exact hgone

end Init

/-! ## Runs -/

section Run

variable {nodes : NodeStore σ} {slab_alloc_locked : Word → Word → Kernel σ Word}
  {slab_free_locked : Word → Word → Kernel σ Unit} {services : Services σ} {added : List Word}
  {Ok : ProcessState (HeapState σ) → Word → Prop}

/-- The states that a new process and calls of `process_add_thread` for it come to, with the threads that were added. Each
call is made in a state for which `Ok` holds. In between, the rest of the kernel may use the heap, but not the table. -/
inductive ThreadRun (nodes : NodeStore σ) (slab_alloc_locked : Word → Word → Kernel σ Word)
    (slab_free_locked : Word → Word → Kernel σ Unit) (services : Services σ) (Own : σ → Nodes → Prop)
    (Ok : ProcessState (HeapState σ) → Word → Prop) : ProcessState (HeapState σ) → Word → List Word → Prop
  | init {s s' : ProcessState (HeapState σ)} {live : Multiset Block} {free : Multiset Region} {es : Multiset (Word × Word)}
    {entry proc t : Word} (hheap : HeapInv Own s.heap live free) (hpool : PoolInv s.Process_Pool es)
    (hbuffer : ∃ b ∈ live, b.ptr = s.Process_Pool.data.address) (htouched : s.touched = [])
    (hrun : (process_init nodes slab_alloc_locked slab_free_locked services entry).run s = .ok (proc, s')) (hproc : proc ≠ 0)
    (ht : slotOf s' proc 0 = t) : ThreadRun nodes slab_alloc_locked slab_free_locked services Own Ok s' proc [t]
  | add {s s' : ProcessState (HeapState σ)} {proc t : Word} {added : List Word} {status : Status}
    (h : ThreadRun nodes slab_alloc_locked slab_free_locked services Own Ok s proc added) (hok : Ok s proc) (hnew : t ∉ added)
    (hrun : (process_add_thread nodes slab_alloc_locked proc t).run s = .ok (status, s')) :
    ThreadRun nodes slab_alloc_locked slab_free_locked services Own Ok s' proc (if status = .Ok then t :: added else added)
  | other {s s' : ProcessState (HeapState σ)} {proc : Word} {added : List Word}
    (h : ThreadRun nodes slab_alloc_locked slab_free_locked services Own Ok s proc added)
    (hthreads : (s'.processes proc).threads = (s.processes proc).threads)
    (hcapacity : (s'.processes proc).thread_capacity = (s.processes proc).thread_capacity)
    (hids : ∀ t ∈ added, (s'.threads t).id = (s.threads t).id) (htouched : s'.touched = s.touched)
    (hheap : ∀ live free, HeapInv Own s.heap live free → ∀ b ∈ live, b.ptr = (s.processes proc).threads →
      Stays Own b s.heap s'.heap) : ThreadRun nodes slab_alloc_locked slab_free_locked services Own Ok s' proc added

/-- Every call that finds a slot puts the thread into the table. -/
theorem TableHeld.wp_add {live : Multiset Block} {free : Multiset Region} (h : TableHeld Own s proc added live free)
    (hproc : proc ≠ 0) (ht : t ≠ 0) (hfinds : FindsSlot s proc) :
    wp (process_add_thread nodes slab_alloc_locked proc t) (fun status s' => status = .Ok ∧ ∃ k < 10, Placed s s' proc t k)
      E s := by
  obtain ⟨j, hj, hfree⟩ := hfinds
  have hten : (s.processes proc).thread_capacity.toNat = 10 := by
    rw [h.capacity]
    rfl
  have hmapped : Mapped s.heap.mem (s.processes proc).threads (8 * 10) := mapped_block h.heap h.array
  refine wp_imp (wp_process_add_thread hproc ht hmapped (by omega) hfree hj) ?_
  rintro status s' ⟨rfl, k, hk, hplaced⟩
  exact ⟨rfl, k, by omega, hplaced⟩

theorem add_nonnull {status : Status} (hproc : proc ≠ 0)
    (hrun : (process_add_thread nodes slab_alloc_locked proc t).run s = .ok (status, s')) : t ≠ 0 := by
  have hchecked : wp (process_add_thread nodes slab_alloc_locked proc t) (fun _ _ => t ≠ 0) (fun _ => True) s := by
    unfold process_add_thread
    rw [wp_bind, wp_assert_decide hproc, wp_bind, wp_assert_iff]
    split
    · rename_i ht
      exact wp_any (fun _ _ => ht) fun _ => trivial
    · trivial
  have ht := wp_ok hchecked hrun
  exact ht

theorem TableHeld.other {live : Multiset Block} {free : Multiset Region} (h : TableHeld Own s proc added live free)
    (hthreads : (s'.processes proc).threads = (s.processes proc).threads)
    (hcapacity : (s'.processes proc).thread_capacity = (s.processes proc).thread_capacity)
    (hids : ∀ t ∈ added, (s'.threads t).id = (s.threads t).id) (htouched : s'.touched = s.touched)
    (hheap : Stays Own ⟨(s.processes proc).threads, 80⟩ s.heap s'.heap) :
    ∃ live' free', TableHeld Own s' proc added live' free' := by
  obtain ⟨live', free', hheap', hlive', hbytes⟩ := hheap
  refine ⟨live', free', hheap', ?_, ?_, ?_, fun t ht => ?_⟩
  · rw [hthreads]
    exact hlive'
  · rw [hcapacity]
    exact h.capacity
  · rw [hthreads, htouched]
    exact h.touched
  · obtain ⟨hne, hid, hslot⟩ := h.added t ht
    rw [hids t ht]
    refine ⟨hne, hid, ?_⟩
    rw [slotOf, hthreads]
    refine Eq.trans ?_ hslot
    exact wordAt_congr (by decide) fun x hx => hbytes x (slot_covers (n := 10) hid (by decide) hx)

theorem run_held (laws : StoreLaws nodes Own) (hpages : PageLaws slab_alloc_locked slab_free_locked Own F)
    (hservices : ServiceLaws Own services)
    (hrun : ThreadRun nodes slab_alloc_locked slab_free_locked services Own FindsSlot s proc added) :
    proc ≠ 0 ∧ ∃ live free, TableHeld Own s proc added live free := by
  induction hrun with
  | init hheap hpool hbuffer htouched hrun hproc ht =>
    subst ht
    exact ⟨hproc, wp_ok (wp_process_init laws hpages hservices hheap hpool hbuffer htouched) hrun hproc⟩
  | @add s s' proc t added status _ hok hnew hrun ih =>
    obtain ⟨hproc, live, free, hheld⟩ := ih
    have ht := add_nonnull hproc hrun
    obtain ⟨rfl, k, hk, hplaced⟩ := wp_ok (hheld.wp_add (E := fun _ => True) hproc ht hok) hrun
    exact ⟨hproc, live, free, hplaced.held hheld hk ht hnew⟩
  | other _ hthreads hcapacity hids htouched hheap ih =>
    obtain ⟨hproc, live, free, hheld⟩ := ih
    exact ⟨hproc, hheld.other hthreads hcapacity hids htouched (hheap _ _ hheld.heap _ hheld.array rfl)⟩

/-- From `process_init` on, while each call finds a slot, the threads are where their ids say, and each call leaves the
others alone. No access is outside of a block of the heap. -/
theorem thread_table_right (laws : StoreLaws nodes Own) (hpages : PageLaws slab_alloc_locked slab_free_locked Own F)
    (hservices : ServiceLaws Own services)
    (hrun : ThreadRun nodes slab_alloc_locked slab_free_locked services Own FindsSlot s proc added) :
    (∃ live free, HeapInv Own s.heap live free ∧ ThreadsRight s proc added live) ∧
    ∀ t ≠ 0, FindsSlot s proc → ∃ status s', (process_add_thread nodes slab_alloc_locked proc t).run s = .ok (status, s') ∧
      AddRight s s' proc status := by
  obtain ⟨hproc, live, free, hheld⟩ := run_held laws hpages hservices hrun
  refine ⟨⟨live, free, hheld.heap, hheld.right⟩, fun t ht hfinds => ?_⟩
  obtain ⟨status, s', hcall, rfl, k, hk, hplaced⟩ := wp_total (hheld.wp_add hproc ht hfinds)
  refine ⟨.Ok, s', hcall, fun i hi hfull => ?_, fun hstatus => nomatch hstatus⟩
  refine hplaced.slot_others ?_ hk fun hik => hfull (hik ▸ hplaced.empty)
  rw [hheld.capacity] at hi
  exact hi

end Run

/-! ## Ten threads, and one more -/

/-- Other parts of the kernel that always have a page. -/
def plainServices : Services PageMemory where
  slab_alloc _ _ := pure 0x9000
  slab_free _ _ := pure ()
  slab_free_helper _ _ _ := pure ()
  thread_user_stack_init _ _ _ := pure (.Ok, 0xa000, 0xa100)
  process_create_address_space := pure 0xb000
  region_vector_fini _ := pure ()
  page_table_init := pure 0xc000
  scheduler_add_thread _ := pure ()

theorem plainServices_laws : ServiceLaws PageMemory.Own plainServices :=
  ⟨fun _ _ _ => leaves_pure _, fun _ _ _ _ => leaves_pure _, fun _ => leaves_pure _, fun _ => leaves_pure _,
    fun _ _ => leaves_pure _⟩

/-- No process, and a heap that has only the pool. -/
def noProcess : ProcessState (HeapState PageMemory) where
  heap := heapOfBlock 2400
  processes _ := Process.filled
  threads _ := Thread.filled
  Process_Pool := ⟨0, 100, process_hash_pid, process_comp_pid, .zeroed 0x100008 (100 * hashdataSize)⟩
  next_pid := 1
  touched := []

/-- A run with the services above. -/
abbrev PlainRun (Ok : ProcessState (HeapState PageMemory) → Word → Prop) (s : ProcessState (HeapState PageMemory))
    (proc : Word) (added : List Word) : Prop :=
  ThreadRun pageStore takeSpare giveSpare plainServices PageMemory.Own Ok s proc added

theorem noProcess_init {Ok : ProcessState (HeapState PageMemory) → Word → Prop} {s : ProcessState (HeapState PageMemory)}
    {proc : Word} (hproc : proc ≠ 0)
    (hrun : (process_init pageStore takeSpare giveSpare plainServices 0x400000).run noProcess = .ok (proc, s)) :
    PlainRun Ok s proc [slotOf s proc 0] := by
  have hinit : (hashtable_init (fun _ => pure 0x100008) (fun _ => pure ()) Process_Pool_Default_Size process_hash_pid
    process_comp_pid : Kernel Unit _).run () = .ok (some noProcess.Process_Pool, ()) := rfl
  exact .init (heapOfBlock_inv (by decide)) (poolInv_init hinit) ⟨_, Multiset.mem_singleton_self _, rfl⟩ rfl hrun hproc rfl

theorem new_process_table : ∃ s, PlainRun FindsSlot s 0x100978 [slotOf s 0x100978 0] ∧
    ∃ live free, HeapInv PageMemory.Own s.heap live free ∧ ThreadsRight s 0x100978 [slotOf s 0x100978 0] live := by
  have hrun : (process_init pageStore takeSpare giveSpare plainServices 0x400000).run' noProcess = .ok 0x100978 := by
    decide +kernel
  obtain ⟨s, hrun⟩ := run_of_run' hrun
  have h : PlainRun FindsSlot s 0x100978 [slotOf s 0x100978 0] := noProcess_init (by decide) hrun
  exact ⟨s, h, (thread_table_right pageStore_laws spare_laws plainServices_laws h).1⟩

/-- The result says whether all of the threads were added. -/
def addEach (proc : Word) : List Word → Kernel (ProcessState (HeapState PageMemory)) Bool
  | [] => pure true
  | t :: ts => do
    let status ← process_add_thread pageStore takeSpare proc t
    let rest ← addEach proc ts
    pure (status = .Ok && rest)

theorem addEach_run {s s' : ProcessState (HeapState PageMemory)} {proc : Word} {ts added : List Word}
    (h : PlainRun (fun _ _ => True) s proc added) (hnew : (ts ++ added).Nodup)
    (hrun : wp (addEach proc ts) (fun all t => all = true ∧ t = s') (fun _ => False) s) :
    PlainRun (fun _ _ => True) s' proc (ts.reverse ++ added) := by
  induction ts generalizing s added with
  | nil =>
    unfold addEach at hrun
    rw [wp_pure] at hrun
    rw [← hrun.2]
    exact h
  | cons t ts ih =>
    unfold addEach at hrun
    rw [wp_bind] at hrun
    obtain ⟨status, s₁, hadd, hrest⟩ := wp_total hrun
    rw [wp_bind] at hrest
    have hok : status = .Ok := by
      obtain ⟨rest, s₂, -, hall⟩ := wp_total hrest
      rw [wp_pure, Bool.and_eq_true, decide_eq_true_eq] at hall
      exact hall.1.1
    have hnext := h.add trivial (fun hmem => (List.nodup_cons.mp hnew).1 (List.mem_append_right _ hmem)) hadd
    rw [if_pos hok] at hnext
    rw [List.reverse_cons, List.append_assoc]
    refine ih hnext ((List.perm_middle.nodup_iff).mpr hnew) (wp_imp hrest fun rest s₂ hall => ?_)
    rw [wp_pure, Bool.and_eq_true] at hall
    exact ⟨hall.1.2, hall.2⟩

/-- Ten threads for a new process, and an eleventh. The results are those of the calls, and what is in slot 3 before and
after the last of them. -/
def elevenThreads : Kernel (ProcessState (HeapState PageMemory)) (Word × Word × Bool × Status × Word × Word) := do
  let proc ← process_init pageStore takeSpare giveSpare plainServices 0x400000
  let first ← get
  let all ← addEach proc [1, 2, 3, 4, 5, 6, 7, 8, 9]
  let before ← get
  let status ← process_add_thread pageStore takeSpare proc 10
  let after ← get
  pure (proc, slotOf first proc 0, all && decide (3 < (before.processes proc).thread_capacity.toNat), status,
    slotOf before proc 3, slotOf after proc 3)

/-- The array for twenty threads has twenty bytes, so that most of the ten threads are lost. -/
theorem eleventh_thread : ∃ s s' : ProcessState (HeapState PageMemory),
    PlainRun (fun _ _ => True) s 0x100978 [9, 8, 7, 6, 5, 4, 3, 2, 1, 0x100a50] ∧
    (process_add_thread pageStore takeSpare 0x100978 10).run s = .ok (.Ok, s') ∧ ¬ AddRight s s' 0x100978 .Ok ∧
    slotOf s 0x100978 3 = 3 ∧ slotOf s' 0x100978 3 = Heap_Red_Zone_Fill := by
  have hrun : elevenThreads.run' noProcess = .ok (0x100978, 0x100a50, true, .Ok, 3, Heap_Red_Zone_Fill) := by decide +kernel
  obtain ⟨s₀, hrun⟩ := run_of_run' hrun
  have h := (wp_of_run (E := fun _ => False) (Q := fun r _ => r = (0x100978, 0x100a50, true, .Ok, 3, Heap_Red_Zone_Fill))
    hrun).mpr rfl
  unfold elevenThreads at h
  rw [wp_bind] at h
  obtain ⟨proc, first, hinit, h⟩ := wp_total h
  rw [wp_bind, wp_get, wp_bind] at h
  obtain ⟨all, s, hadd, h⟩ := wp_total h
  rw [wp_bind, wp_get, wp_bind] at h
  obtain ⟨status, s', hlast, h⟩ := wp_total h
  rw [wp_bind, wp_get, wp_pure] at h
  simp only [Prod.mk.injEq, Bool.and_eq_true, decide_eq_true_eq] at h
  obtain ⟨rfl, hfirst, ⟨rfl, hcapacity⟩, rfl, hbefore, hafter⟩ := h
  have hnew : PlainRun (fun _ _ => True) first 0x100978 [slotOf first 0x100978 0] := noProcess_init (by decide) hinit
  rw [hfirst] at hnew
  refine ⟨s, s', addEach_run hnew (by decide) ((wp_of_run hadd).mpr ⟨rfl, rfl⟩), hlast, fun hright => ?_, hbefore, hafter⟩
  have hkept := hright.kept 3 hcapacity (by rw [hbefore]; decide)
  rw [hbefore, hafter] at hkept
  exact absurd hkept (by decide)

end KernelOfTruth.ThreadTables
