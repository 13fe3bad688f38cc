import KernelOfTruth.FirstFit
import KernelOfTruth.ThreadTables
import KernelOfTruth.Spec.ProcessFailure

/-!
# What a process that cannot be made leaves behind

When one of the first three requests is refused, everything is given back. Later failures lose something: the record of
the page table when there is no page for the table, and the frame of the table when there is no thread or no place in the
pool.
-/

open KernelOfTruth.Lib KernelOfTruth.Code KernelOfTruth.Code.Processes KernelOfTruth.Spec KernelOfTruth.Rules
  KernelOfTruth.Regions KernelOfTruth.Heap KernelOfTruth.HeapRuns KernelOfTruth.FirstFit KernelOfTruth.Realloc
  KernelOfTruth.ProcessPool KernelOfTruth.ThreadTables

namespace KernelOfTruth.ProcessFailure

/-! ## What a hashtable keeps of the heap -/

section Hashtable

variable {τ : Type} {I : τ → Prop} {kmalloc : Word → Kernel τ Word} {kfree : Word → Kernel τ Unit}

theorem readOnly_hashtableLoad (ht : Hashtable) (i : Word) : ReadOnly (ht.load i : Kernel τ Hashdata) := by
  unfold Hashtable.load
  split
  · exact readOnly_pure _
  · exact readOnly_throw _

theorem readOnly_seekEmptyLoop (ht : Hashtable) (hash : Word) (fuel : Nat) (i : Word) :
    ReadOnly (seekEmptyLoop ht hash fuel i : Kernel τ _) := by
  induction fuel generalizing i with
  | zero => exact readOnly_throw _
  | succ fuel ih =>
    refine readOnly_ite (readOnly_throw _) (readOnly_bind (readOnly_hashtableLoad ..) fun d => ?_)
    exact readOnly_ite (readOnly_pure _) (ih _)

theorem readOnly_putSlot (ht : Hashtable) (key value : Word) : ReadOnly (putSlot ht key value : Kernel τ _) := by
  refine readOnly_bind (readOnly_bind (readOnly_hashtableLoad ..) fun d => ?_) fun _ => readOnly_pure _
  exact readOnly_ite (readOnly_pure _) (readOnly_seekEmptyLoop ..)

theorem readOnly_seekLoop (ht : Hashtable) (key hash : Word) (fuel : Nat) (i : Word) :
    ReadOnly (seekLoop ht key hash fuel i : Kernel τ _) := by
  induction fuel generalizing i with
  | zero => exact readOnly_throw _
  | succ fuel ih =>
    refine readOnly_ite (readOnly_throw _) (readOnly_bind (readOnly_hashtableLoad ..) fun d => ?_)
    cases d.state with
    | Hashdata_Empty => exact readOnly_pure _
    | Hashdata_Tombstone => exact ih _
    | Hashdata_Full => exact readOnly_ite (readOnly_pure _) (ih _)

theorem readOnly_hashtable_get (ht : Hashtable) (key : Word) : ReadOnly (hashtable_get ht key : Kernel τ Word) := by
  refine readOnly_bind (readOnly_bind (readOnly_hashtableLoad ..) fun d => ?_) fun found => ?_
  · exact readOnly_ite (readOnly_pure _) (readOnly_seekLoop ..)
  · cases found with
    | some i => exact readOnly_bind (readOnly_hashtableLoad ..) fun _ => readOnly_pure _
    | none => exact readOnly_pure _

variable (hmalloc : ∀ bytes, Keeps I (kmalloc bytes)) (hfree : ∀ p, Keeps I (kfree p))

theorem keeps_rebalanceLoop {put : Hashtable → Word → Word → Kernel τ (Status × Hashtable)}
    (hput : ∀ ht key value, Keeps I (put ht key value)) (ht : Hashtable) (n : Nat) (i : Word) (new : Hashtable) :
    Keeps I (rebalanceLoop put ht n i new) := by
  induction n generalizing i new with
  | zero => exact keeps_pure _
  | succ n ih =>
    refine keeps_bind (readOnly_hashtableLoad ..).keepsInv fun d => keeps_ite ?_ (ih _ _)
    exact keeps_bind (hput _ _ _) fun r => keeps_ite (ih _ _) (keeps_pure _)

include hmalloc hfree

theorem keeps_putNested (depth : Nat) (ht : Hashtable) (key value : Word) :
    Keeps I (putNested kmalloc kfree depth ht key value) := by
  induction depth generalizing ht key value with
  | zero => exact (readOnly_throw _).keepsInv
  | succ depth ih =>
    refine keeps_bind (readOnly_putSlot ..).keepsInv fun ht => keeps_ite ?_ (keeps_pure _)
    refine keeps_bind (readOnly_assert ..).keepsInv fun _ => keeps_bind (hmalloc _) fun data => keeps_ite (keeps_pure _) ?_
    refine keeps_bind (keeps_rebalanceLoop ih _ _ _ _) fun r => keeps_ite (keeps_pure _) ?_
    exact keeps_bind (hfree _) fun _ => keeps_pure _

end Hashtable

/-! ## The heap -/

section Heap

variable {σ : Type} {Own : σ → Nodes → Prop} {given : σ → Multiset Holding} {H : Multiset Holding} {n : Nat}
  {s : HeapState σ} {nodes : NodeStore σ} {slab_alloc_locked : Word → Word → Kernel σ Word}
  {slab_free_locked : Word → Word → Kernel σ Unit}

theorem books_mono {H' : Multiset Holding} {n' : Nat} (h : Books Own given H n s) (hH : H' ≤ H) (hn : n' ≤ n) :
    Books Own given H' n' s := by
  obtain ⟨G, used, free, hG, hcard, hmeta⟩ := h
  exact ⟨G, used, free, hH.trans hG, hn.trans hcard, hmeta⟩

theorem books_le_given (h : Books Own given H n s) : H ≤ given s.vectors := by
  obtain ⟨G, used, free, hG, -, N, up, fp, ⟨-, rfl⟩, -⟩ := h
  exact hG

/-- Other memory does not matter. -/
theorem keeps_onMem {α : Type} (p : Kernel Memory α) : Keeps (Books Own given H n) (onMem p) := by
  intro s h
  rw [onMem, wp_zoom]
  exact wp_any (fun _ mem => h) fun _ => trivial

theorem takenFrames_mono {G : Multiset Holding} (h : H ≤ G) : takenFrames H ⊆ takenFrames G :=
  fun _ ⟨holding, hmem, hf⟩ => ⟨holding, Multiset.mem_of_le h hmem, hf⟩

/-- How many blocks `kfree` may release. -/
def released (p : Word) : Nat := if p = 0 then 0 else 1

variable (store : ∀ H, StoreLaws nodes (Owned Own given H))
  (pages : ∀ H, PageLaws slab_alloc_locked slab_free_locked (Owned Own given H) fun _ => True)
include store pages

theorem wp_kmalloc_books (h : Books Own given H n s) (bytes : Word) :
    wp (kmalloc nodes slab_alloc_locked bytes) (fun p s' => Books Own given H (n + released p) s') (fun _ => True) s := by
  obtain ⟨G, used, free, hG, hcard, hmeta⟩ := h
  refine wp_imp (wp_kmalloc_vectors (store G) (pages G) hmeta bytes) ?_
  rintro p s' (⟨rfl, rfl, -⟩ | ⟨r, -, -, -, -, hmeta'⟩)
  · exact ⟨G, used, free, hG, hcard, hmeta⟩
  · refine ⟨G, _, _, hG, ?_, hmeta'⟩
    rw [Multiset.card_cons]
    unfold released
    split <;> omega

theorem wp_kfree_books (h : Books Own given H n s) (p : Word) :
    wp (kfree nodes slab_alloc_locked slab_free_locked p) (fun _ s' => Books Own given H (n - released p) s')
      (fun _ => True) s := by
  unfold released
  by_cases hp : p = 0
  · rw [kfree, if_pos hp, if_pos hp, wp_pure]
    exact h
  · rw [if_neg hp]
    obtain ⟨G, used, free, hG, hcard, hmeta⟩ := h
    refine wp_imp (wp_kfree_any (store G) (pages G) hmeta hp) ?_
    rintro _ s' ⟨-, ⟨-, hmeta'⟩ | ⟨r, hr, -, hmeta'⟩⟩
    · exact ⟨G, _, _, hG, by omega, hmeta'⟩
    · refine ⟨G, _, _, hG, ?_, hmeta'⟩
      rw [Multiset.card_erase_of_mem hr, Nat.pred_eq_sub_one]
      omega

theorem keeps_kmalloc (bytes : Word) : Keeps (Books Own given H n) (kmalloc nodes slab_alloc_locked bytes) := fun _ h =>
  wp_imp (wp_kmalloc_books store pages h bytes) fun _ _ h' => books_mono h' le_rfl (by omega)

theorem keeps_kfree (p : Word) : Keeps (Books Own given H 0) (kfree nodes slab_alloc_locked slab_free_locked p) := fun _ h =>
  wp_imp (wp_kfree_books store pages h p) fun _ _ h' => books_mono h' le_rfl (by omega)

theorem keeps_krealloc (ptr size : Word) : Keeps (Books Own given H n) (krealloc nodes slab_alloc_locked ptr size) := by
  refine keeps_ite (keeps_pure _) (keeps_bind (keeps_kmalloc store pages size) fun p => keeps_ite (keeps_pure _) ?_)
  exact keeps_bind (keeps_onMem _) fun _ => keeps_pure _

end Heap

/-! ## After the page table -/

section Late

variable {σ : Type} {Own : σ → Nodes → Prop} {given : σ → Multiset Holding} {H : Multiset Holding} {n : Nat}
  {F : Set Word} {s : ProcessState (HeapState σ)} {nodes : NodeStore σ} {slab_alloc_locked : Word → Word → Kernel σ Word}
  {slab_free_locked : Word → Word → Kernel σ Unit} {services : Services σ} {frames : FrameServices σ}

/-- The two stacks of a thread. -/
def stacksOf (t : Processes.Thread) : Region × Region := (⟨t.kernel_stack, t.kernel_stack_size⟩, ⟨t.user_stack, t.user_stack_size⟩)

/-- The slab allocator still has `H` on its books, and the thread has these stacks. -/
def Placing (Own : σ → Nodes → Prop) (given : σ → Multiset Holding) (H : Multiset Holding) (thread : Word)
    (r : Region × Region) (s : ProcessState (HeapState σ)) : Prop :=
  Books Own given H 0 s.heap ∧ stacksOf (s.threads thread) = r

variable {thread : Word} {r : Region × Region}

theorem keeps_onHeap {α : Type} {p : Kernel (HeapState σ) α} (hp : Keeps (Books Own given H 0) p) :
    Keeps (Placing Own given H thread r) (Processes.onHeap p) := by
  rintro s ⟨h, hstacks⟩
  rw [wp_onHeap]
  exact wp_imp (hp _ h) fun _ _ h' => ⟨h', hstacks⟩

theorem keeps_modifyProcess (proc : Word) (f : Processes.Process → Processes.Process) :
    Keeps (Placing Own given H thread r) (modifyProcess proc f) := keeps_modify fun _ h => h

/-- The id of a thread is none of its stacks. -/
theorem keeps_modifyThread (t : Word) (id : BitVec 32) :
    Keeps (Placing Own given H thread r) (modifyThread t fun t => { t with id := id }) := by
  refine keeps_modify ?_
  rintro s ⟨h, hstacks⟩
  refine ⟨h, ?_⟩
  rw [← hstacks]
  show stacksOf (Function.update s.threads t _ thread) = _
  rw [Function.update_apply]
  split
  · rename_i heq
    rw [heq]
    rfl
  · rfl

theorem keeps_storeSlot (threads i t : Word) : Keeps (Placing Own given H thread r) (storeSlot threads i t) :=
  keeps_bind (keeps_modify fun _ h => h) fun _ => keeps_onHeap (keeps_onMem _)

theorem keeps_loadSlot (threads i : Word) : Keeps (Placing Own given H thread r) (loadSlot threads i) :=
  keeps_bind (keeps_modify fun _ h => h) fun _ => keeps_onHeap (keeps_onMem _)

variable (store : ∀ H, StoreLaws nodes (Owned Own given H))
  (pages : ∀ H, PageLaws slab_alloc_locked slab_free_locked (Owned Own given H) fun _ => True)
include store pages

theorem keeps_addThreadLoop (proc t : Word) (left : Nat) (i : Word) :
    Keeps (Placing Own given H thread r) (addThreadLoop nodes slab_alloc_locked proc t left i) := by
  induction left generalizing i with
  | zero =>
    refine keeps_bind readOnly_get.keepsInv fun s => keeps_bind (keeps_modifyThread t _) fun _ => ?_
    refine keeps_bind (keeps_modifyProcess proc _) fun _ => keeps_bind readOnly_get.keepsInv fun s' => ?_
    refine keeps_bind (keeps_onHeap (keeps_krealloc store pages _ _)) fun threads => ?_
    refine keeps_bind (keeps_modifyProcess proc _) fun _ => keeps_ite (keeps_pure _) ?_
    exact keeps_bind (keeps_storeSlot _ _ _) fun _ => keeps_bind (keeps_modifyProcess proc _) fun _ => keeps_pure _
  | succ left ih =>
    refine keeps_bind readOnly_get.keepsInv fun s => keeps_bind (keeps_loadSlot _ _) fun found => keeps_ite ?_ (ih _)
    exact keeps_bind (keeps_storeSlot _ _ _) fun _ => keeps_bind (keeps_modifyThread t _) fun _ => keeps_pure _

theorem keeps_process_add_thread (proc t : Word) :
    Keeps (Placing Own given H thread r) (process_add_thread nodes slab_alloc_locked proc t) :=
  keeps_bind (readOnly_assert ..).keepsInv fun _ => keeps_bind (readOnly_assert ..).keepsInv fun _ =>
    keeps_bind readOnly_get.keepsInv fun _ => keeps_addThreadLoop store pages proc t _ _

omit store pages in
theorem keeps_pidLoop (start_pid : BitVec 32) (fuel : Nat) :
    Keeps (Placing Own given H thread r) (pidLoop start_pid fuel) := by
  induction fuel with
  | zero => exact (readOnly_throw _).keepsInv
  | succ fuel ih =>
    refine keeps_bind readOnly_get.keepsInv fun s => keeps_bind (readOnly_hashtable_get ..).keepsInv fun p => ?_
    refine keeps_ite (keeps_pure _) (keeps_bind (keeps_modify fun _ h => h) fun _ => ?_)
    exact keeps_bind readOnly_get.keepsInv fun s => keeps_ite (keeps_pure _) ih

theorem keeps_process_add_pool (proc : Word) : Keeps (Placing Own given H thread r)
    (process_add_pool (kmalloc nodes slab_alloc_locked) (kfree nodes slab_alloc_locked slab_free_locked) proc) := by
  refine keeps_bind (readOnly_assert ..).keepsInv fun _ => keeps_bind readOnly_get.keepsInv fun s => ?_
  refine keeps_bind (keeps_pidLoop _ _) fun found => keeps_ite ?_ (keeps_pure _)
  refine keeps_bind readOnly_get.keepsInv fun s' => keeps_bind (keeps_modifyProcess proc _) fun _ => ?_
  refine keeps_bind readOnly_get.keepsInv fun s'' => ?_
  have hput := keeps_putNested (I := Books Own given H 0) (keeps_kmalloc store pages) (keeps_kfree store pages)
  exact keeps_bind (keeps_onHeap (hput _ _ _ _)) fun _ => keeps_bind (keeps_modify fun _ h => h) fun _ => keeps_pure _

variable (supply : SupplyLaws Own given services frames)

include supply

/-- The stacks may have been given back. -/
theorem wp_placeThread_books {proc ks us kb ub : Word} {F' : Set Word}
    (h : Placing Own given (userPages us ub F' ::ₘ kernelPages ks kb F ::ₘ H) thread (⟨ks, kb⟩, ⟨us, ub⟩) s) :
    wp (placeThread nodes slab_alloc_locked slab_free_locked services proc thread)
      (fun _ s' => Books Own given H 0 s'.heap) (fun _ => True) s := by
  unfold placeThread
  rw [wp_bind]
  refine wp_imp (keeps_process_add_thread store pages proc thread s h) ?_
  rintro status s₁ ⟨h₁, hstacks⟩
  obtain ⟨⟨hks, hkb⟩, hus, hub⟩ : ((s₁.threads thread).kernel_stack = ks ∧ (s₁.threads thread).kernel_stack_size = kb) ∧
      (s₁.threads thread).user_stack = us ∧ (s₁.threads thread).user_stack_size = ub := by
    simpa [stacksOf] using hstacks
  rw [wp_bind]
  have hend : ∀ {s₂ : ProcessState (HeapState σ)} {f : Processes.Thread → Processes.Thread}, Books Own given H 0 s₂.heap →
      wp (do modifyThread thread f; pure thread) (fun _ s' => Books Own given H 0 s'.heap) (fun _ => True) s₂ := by
    intro s₂ f h₂
    rw [wp_bind, modifyThread, wp_modify, wp_pure]
    exact h₂
  split
  · rw [wp_bind, wp_get, wp_bind, wp_get, wp_bind, wp_onHeap, hus, hub, hks, hkb]
    refine wp_imp (supply.slab_free_helper _ h₁) fun _ _ h₂ => ?_
    rw [wp_bind, wp_onHeap]
    refine wp_imp (supply.slab_free h₂) fun _ _ h₃ => ?_
    rw [wp_onHeap]
    exact wp_imp (keeps_kfree store pages thread _ h₃) fun _ _ h₄ => hend h₄
  · rw [wp_pure]
    refine hend (books_mono h₁ ?_ le_rfl)
    exact (Multiset.le_cons_self _ _).trans (Multiset.le_cons_self _ _)

omit store pages in
theorem wp_initUserStack_books {proc entry : Word} {r : Region} (h : Books Own given H 0 s.heap)
    (hstack : (stacksOf (s.threads thread)).1 = r) :
    wp (initUserStack services thread proc entry true) (fun status s' => if status = .Ok then
      ∃ F us, Placing Own given (userPages us Processes.Thread_Default_User_Stack_Size F ::ₘ H) thread
        (r, ⟨us, Processes.Thread_Default_User_Stack_Size⟩) s' else Books Own given H 0 s'.heap) (fun _ => True) s := by
  rw [initUserStack, if_pos rfl, wp_bind, modifyThread, wp_modify, wp_bind, wp_onHeap]
  refine wp_imp (supply.thread_user_stack_init _ _ _ h) fun result h₁ hbooks => ?_
  rw [wp_bind, modifyThread, wp_modify, wp_pure]
  split at hbooks
  · rename_i hok
    obtain ⟨F, hbooks⟩ := hbooks
    rw [if_pos hok]
    refine ⟨F, result.2.1, hbooks, ?_⟩
    rw [← hstack]
    simp only [stacksOf, Function.update_self]
  · rename_i hfailed
    rw [if_neg hfailed]
    exact hbooks

theorem wp_thread_init_books {proc entry : Word} (h : Books Own given H 0 s.heap) :
    wp (thread_init nodes slab_alloc_locked slab_free_locked services proc entry true)
      (fun _ s' => Books Own given H 0 s'.heap) (fun _ => True) s := by
  unfold thread_init
  rw [wp_bind, wp_onHeap]
  refine wp_imp (keeps_kmalloc store pages _ _ h) fun thread h₁ hbooks₁ => ?_
  have hfree : ∀ {s' : ProcessState (HeapState σ)}, Books Own given H 0 s'.heap →
      wp (do Processes.onHeap (kfree nodes slab_alloc_locked slab_free_locked thread); pure (0 : Word))
        (fun _ s' => Books Own given H 0 s'.heap) (fun _ => True) s' := by
    intro s' h'
    rw [wp_bind, wp_onHeap]
    refine wp_imp (keeps_kfree store pages thread _ h') fun _ _ h'' => ?_
    rw [wp_pure]
    exact h''
  split
  · rw [wp_pure]
    exact hbooks₁
  rw [wp_bind, modifyThread, wp_modify, wp_bind, wp_onHeap]
  refine wp_imp (supply.slab_alloc _ _ hbooks₁) fun ks h₂ hbooks₂ => ?_
  rw [wp_bind, modifyThread, wp_modify]
  rcases hbooks₂ with ⟨rfl, rfl⟩ | ⟨hks, F, hbooks₂⟩
  · rw [if_pos rfl]
    exact hfree hbooks₁
  rw [if_neg hks, wp_bind]
  refine wp_imp (wp_initUserStack_books (r := ⟨ks, Thread_Default_Kernel_Stack_Size⟩) supply hbooks₂ ?_)
    fun status s₃ hplacing => ?_
  · simp only [stacksOf, Function.update_self]
  split
  · rename_i hfailed
    rw [if_neg hfailed] at hplacing
    rw [wp_bind, wp_onHeap]
    exact wp_imp (supply.slab_free hplacing) fun _ _ h₄ => hfree h₄
  · rename_i hok
    rw [if_pos (not_not.mp hok)] at hplacing
    obtain ⟨F', us, hplacing⟩ := hplacing
    exact wp_placeThread_books store pages supply hplacing

theorem wp_giveUp_books {page_table vect thread_pool thread proc : Word}
    (h : Books Own given (kernelPages vect Page_Small F ::ₘ H) n s.heap) :
    wp (giveUp nodes slab_alloc_locked slab_free_locked services page_table vect thread_pool thread proc)
      (fun _ s' => Books Own given H (n - released page_table - released thread_pool - released thread - released proc)
        s'.heap) (fun _ => True) s := by
  unfold giveUp
  rw [wp_bind, wp_onHeap]
  refine wp_imp (wp_kfree_books store pages h page_table) fun _ _ h₁ => ?_
  rw [wp_bind, wp_onHeap]
  refine wp_imp (supply.region_vector_fini h₁) fun _ _ h₂ => ?_
  rw [wp_bind, wp_onHeap]
  refine wp_imp (wp_kfree_books store pages h₂ thread_pool) fun _ _ h₃ => ?_
  rw [wp_bind, wp_onHeap]
  refine wp_imp (wp_kfree_books store pages h₃ thread) fun _ _ h₄ => ?_
  rw [wp_bind, wp_onHeap]
  refine wp_imp (wp_kfree_books store pages h₄ proc) fun _ _ h₅ => ?_
  rw [wp_pure]
  exact h₅

/-- Without a page for the table, the record stays in the heap. With one, its frame stays with the table. -/
theorem wp_page_table_init_books {s : HeapState σ} (h : Books Own given H n s) :
    wp (page_table_init nodes slab_alloc_locked frames) (fun pt s' => if pt = 0 then Books Own given H (n + 1) s' else
      ∃ f ∉ takenFrames H, Books Own given (looseFrames {f} ::ₘ H) n s') (fun _ => True) s := by
  unfold page_table_init
  rw [wp_bind]
  refine wp_imp (wp_kmalloc_books store pages h _) fun pt s₁ h₁ => ?_
  rw [wp_bind]
  refine wp_imp (supply.slab_alloc_phys pt _ h₁) ?_
  rintro ⟨pl4, f⟩ s₂ ⟨hpt, hresult⟩
  dsimp only at hresult ⊢
  rcases hresult with ⟨hnull, rfl⟩ | ⟨hpl4, hf, h₂⟩
  · rw [released, if_neg hpt] at h₁
    rw [if_pos hnull, wp_pure, if_pos rfl]
    exact h₁
  · rw [if_neg hpl4, wp_bind]
    refine wp_imp (keeps_onMem _ _ h₂) fun _ s₃ h₃ => ?_
    rw [wp_bind]
    refine wp_imp (keeps_onMem _ _ h₃) fun _ s₄ h₄ => ?_
    rw [wp_bind]
    refine wp_imp (supply.slab_free_virt h₄) fun _ s₅ h₅ => ?_
    rw [wp_pure, if_neg hpt]
    exact ⟨f, fun hmem => hf (takenFrames_mono (books_le_given h₁) hmem), books_mono h₅ le_rfl (by omega)⟩

end Late

/-! ## The first requests -/

section Early

variable {σ : Type} {Own : σ → Nodes → Prop} {given : σ → Multiset Holding} {H : Multiset Holding}
  {live : Multiset Block} {free : Multiset Region} {nodes : NodeStore σ} {slab_alloc_locked : Word → Word → Kernel σ Word}
  {slab_free_locked : Word → Word → Kernel σ Unit} {services : Services σ} {frames : FrameServices σ}

theorem heapInv_owned (given : σ → Multiset Holding) {s : HeapState σ} (h : HeapInv Own s live free) :
    HeapInv (Owned Own given (given s.vectors)) s live free := by
  obtain ⟨N, up, fp, own, hvectors⟩ := h.metadata
  exact ⟨⟨⟨N, up, fp, ⟨own, rfl⟩, hvectors⟩, h.tiles, h.fill, h.usage⟩, h.mapped, h.fits, h.sizes, h.total⟩

theorem books_of_inv {s : HeapState σ} (h : HeapInv (Owned Own given H) s live free) :
    Books Own given H (Multiset.card live) s :=
  ⟨H, _, _, le_rfl, by rw [Multiset.card_map], h.metadata⟩

theorem undone_of_inv {s s' : ProcessState (HeapState σ)} {free' : Multiset Region} (h : HeapInv Own s.heap live free)
    (h' : HeapInv (Owned Own given (given s.heap.vectors)) s'.heap live free') (hpool : s'.Process_Pool = s.Process_Pool) :
    Undone Own given live s s' := by
  obtain ⟨N, up, fp, ⟨own, hgiven⟩, hvectors⟩ := h'.metadata
  refine ⟨?_, ⟨free', ⟨N, up, fp, own, hvectors⟩, h'.tiles, h'.fill, h'.usage⟩, ?_, ?_, hpool⟩
  · exact BitVec.eq_of_toNat_eq (h'.usage.trans h.usage.symm)
  · rw [hgiven]
  · rw [hgiven]

theorem not_undone_of_blocks (store : ∀ H, StoreLaws nodes (Owned Own given H)) {s s' : ProcessState (HeapState σ)}
    (h : Books Own given H (Multiset.card live + 1) s'.heap) : ¬ Undone Own given live s s' := by
  intro hundone
  obtain ⟨free', hintact⟩ := hundone.heap
  obtain ⟨N, up, fp, own, hup, hused, -⟩ := hintact.metadata
  obtain ⟨G, used, free, -, hcard, N', up', fp', ⟨own', hgiven⟩, hup', hused', -⟩ := h
  have heq := vector_unique (store G) ⟨own, hgiven⟩ ⟨own', hgiven⟩ hup hup'
  rw [hused, hused'] at heq
  rw [← heq, Multiset.card_map] at hcard
  omega

theorem not_undone_of_frame {n : Nat} {s s' : ProcessState (HeapState σ)} {f : Word}
    (hf : f ∉ takenFrames (given s.heap.vectors)) (h : Books Own given (looseFrames {f} ::ₘ H) n s'.heap) :
    ¬ Undone Own given live s s' := by
  intro hundone
  refine hf ?_
  rw [← hundone.frames]
  exact ⟨_, Multiset.mem_of_le (books_le_given h) (Multiset.mem_cons_self _ _), rfl⟩

theorem refusedEarly_iff {s : HeapState σ} : RefusedEarly nodes slab_alloc_locked services s ↔
    wp (firstRequests nodes slab_alloc_locked services) (fun granted _ => granted = false) (fun _ => False) s := by
  constructor
  · rintro ⟨s', hrun⟩
    exact (wp_of_run hrun).mpr rfl
  · intro h
    obtain ⟨granted, s', hrun, rfl⟩ := wp_total h
    exact ⟨s', hrun⟩

variable (store : ∀ H, StoreLaws nodes (Owned Own given H))
  (pages : ∀ H, PageLaws slab_alloc_locked slab_free_locked (Owned Own given H) fun _ => True)
  (supply : SupplyLaws Own given services frames)
include store pages

/-- The block at `p`, unless `p` is null. -/
def blockAt (p bytes : Word) : Multiset Block := if p = 0 then 0 else {⟨p, bytes⟩}

omit pages store in
theorem blockAt_add {p bytes : Word} (hp : p ≠ 0) : blockAt p bytes + live = ⟨p, bytes⟩ ::ₘ live := by
  rw [blockAt, if_neg hp, Multiset.singleton_add]

theorem wp_kfree_blockAt {s : HeapState σ} {p bytes : Word}
    (h : HeapInv (Owned Own given H) s (blockAt p bytes + live) free) :
    wp (kfree nodes slab_alloc_locked slab_free_locked p) (fun _ s' => ∃ free', HeapInv (Owned Own given H) s' live free')
      (fun _ => True) s := by
  by_cases hp : p = 0
  · rw [kfree, if_pos hp, wp_pure]
    rw [blockAt, if_pos hp, Multiset.zero_add] at h
    exact ⟨free, h⟩
  · rw [blockAt_add hp] at h
    have hb : (⟨p, bytes⟩ : Block) ∈ (⟨p, bytes⟩ : Block) ::ₘ live := Multiset.mem_cons_self _ _
    refine wp_imp (wp_kfree_live (store H) (pages H) h hb) ?_
    rintro _ s' ⟨h', -⟩
    rw [Multiset.erase_cons_head] at h'
    exact ⟨_, h'⟩

include supply

/-- What there is after the first requests is given back. -/
theorem wp_giveUp_early {s s₁ : ProcessState (HeapState σ)} {pool proc : Word} {free₁ : Multiset Region}
    (h : HeapInv Own s.heap live free) (hpool : s₁.Process_Pool = s.Process_Pool)
    (h₁ : HeapInv (Owned Own given (given s.heap.vectors)) s₁.heap (blockAt pool 80 + (blockAt proc processSize + live))
      free₁) :
    wp (giveUp nodes slab_alloc_locked slab_free_locked services 0 0 pool 0 proc)
      (fun _ s' => Undone Own given live s s') (fun _ => True) s₁ := by
  have hnull : ∀ (h : HeapState σ) (Q : Unit → HeapState σ → Prop),
      wp (kfree nodes slab_alloc_locked slab_free_locked 0) Q (fun _ => True) h ↔ Q () h := by
    intro h Q
    rw [kfree, if_pos rfl, wp_pure]
  unfold giveUp
  rw [wp_bind, wp_onHeap, hnull, wp_bind, wp_onHeap]
  refine wp_imp (supply.fini_null _) ?_
  rintro _ _ rfl
  rw [wp_bind, wp_onHeap]
  refine wp_imp (wp_kfree_blockAt store pages h₁) ?_
  rintro _ h₂ ⟨free₂, hheap₂⟩
  rw [wp_bind, wp_onHeap, hnull, wp_bind, wp_onHeap]
  refine wp_imp (wp_kfree_blockAt store pages hheap₂) ?_
  rintro _ h₃ ⟨free₃, hheap₃⟩
  rw [wp_pure]
  exact undone_of_inv h hheap₃ hpool

/-- After the address space there is no way to fail that gives everything back. -/
theorem wp_late {s s₃ : ProcessState (HeapState σ)} {proc pool vect entry : Word} {F : Set Word}
    (htable : services.page_table_init = page_table_init nodes slab_alloc_locked frames) (hproc : proc ≠ 0)
    (hpool : pool ≠ 0) (h : Books Own given (kernelPages vect Page_Small F ::ₘ given s.heap.vectors)
      (Multiset.card live + 2) s₃.heap) :
    wp (do
        let page_table ← Processes.onHeap services.page_table_init
        if page_table = 0 then giveUp nodes slab_alloc_locked slab_free_locked services 0 vect pool 0 proc
        else do
        modifyProcess proc fun p => { p with page_table := page_table }
        let thread ← thread_init nodes slab_alloc_locked slab_free_locked services proc entry true
        if thread = 0 then giveUp nodes slab_alloc_locked slab_free_locked services page_table vect pool 0 proc
        else do
        let status ← process_add_pool (kmalloc nodes slab_alloc_locked) (kfree nodes slab_alloc_locked slab_free_locked) proc
        if status ≠ .Ok then giveUp nodes slab_alloc_locked slab_free_locked services page_table vect pool thread proc
        else startProcess services proc thread)
      (fun r s' => r = 0 → ¬ Undone Own given live s s') (fun _ => True) s₃ := by
  rw [wp_bind, wp_onHeap, htable]
  refine wp_imp (wp_page_table_init_books store pages supply h) fun page_table h₄ hbooks₄ => ?_
  split at hbooks₄
  · rename_i hnull
    rw [if_pos hnull]
    refine wp_imp (wp_giveUp_books store pages supply hbooks₄) fun _ s' hbooks' _ => ?_
    refine not_undone_of_blocks store (books_mono hbooks' le_rfl ?_)
    simp only [released, if_neg hpool, if_neg hproc, if_pos]
    omega
  rename_i hne
  obtain ⟨f, hf, hbooks₄⟩ := hbooks₄
  have hlost : f ∉ takenFrames (given s.heap.vectors) := fun hmem =>
    hf (takenFrames_mono (Multiset.le_cons_self _ _) hmem)
  rw [Multiset.cons_swap] at hbooks₄
  have hgone : ∀ {page_table thread : Word} {s' : ProcessState (HeapState σ)},
      Books Own given (kernelPages vect Page_Small F ::ₘ looseFrames {f} ::ₘ given s.heap.vectors) 0 s'.heap →
      wp (giveUp nodes slab_alloc_locked slab_free_locked services page_table vect pool thread proc)
        (fun r s' => r = 0 → ¬ Undone Own given live s s') (fun _ => True) s' := fun hbooks =>
    wp_imp (wp_giveUp_books store pages supply hbooks) fun _ s' hbooks' _ => not_undone_of_frame hlost hbooks'
  rw [if_neg hne, wp_bind, modifyProcess, wp_modify, wp_bind]
  refine wp_imp (wp_thread_init_books store pages supply (books_mono hbooks₄ le_rfl (Nat.zero_le _))) fun thread s₅ hbooks₅ => ?_
  split
  · exact hgone hbooks₅
  rw [wp_bind]
  have hplacing₅ : Placing Own given _ thread (stacksOf (s₅.threads thread)) s₅ := ⟨hbooks₅, rfl⟩
  refine wp_imp (keeps_process_add_pool store pages proc s₅ hplacing₅) fun status s₆ hplacing => ?_
  split
  · exact hgone hplacing.1
  · unfold startProcess
    rw [wp_bind, modifyProcess, wp_modify, wp_bind, wp_onHeap]
    refine wp_any (fun _ _ => ?_) fun _ => trivial
    rw [wp_pure]
    exact fun hzero => absurd hzero hproc

/-- The process that could not be made leaves nothing behind exactly if one of the first three requests was refused. -/
theorem failed_process_undone_iff {s s' : ProcessState (HeapState σ)} {entry : Word}
    (htable : services.page_table_init = page_table_init nodes slab_alloc_locked frames)
    (h : HeapInv Own s.heap live free)
    (hrun : (process_init nodes slab_alloc_locked slab_free_locked services entry).run s = .ok (0, s')) :
    Undone Own given live s s' ↔ RefusedEarly nodes slab_alloc_locked services s.heap := by
  have key : wp (process_init nodes slab_alloc_locked slab_free_locked services entry)
      (fun proc s' => proc = 0 → (Undone Own given live s s' ↔ RefusedEarly nodes slab_alloc_locked services s.heap))
      (fun _ => True) s := by
    have hinv := heapInv_owned given h
    rw [refusedEarly_iff, firstRequests, wp_bind]
    unfold process_init
    rw [wp_bind, wp_onHeap]
    refine wp_partial.mpr fun proc h₁ hrun₁ => ?_
    rw [wp_of_run hrun₁]
    -- the record of the process
    rcases wp_ok (wp_kmalloc (store _) (pages _) hinv (by decide)) hrun₁ with ⟨rfl, rfl⟩ | ⟨hproc, free₁, hheap₁⟩
    · rw [if_pos rfl, if_pos rfl, wp_pure]
      have hblocks : HeapInv (Owned Own given (given s.heap.vectors)) s.heap
          (blockAt 0 80 + (blockAt 0 processSize + live)) free := by simpa [blockAt] using hinv
      refine wp_imp (wp_giveUp_early store pages supply h rfl hblocks) fun _ s' hundone _ => ?_
      exact iff_of_true hundone rfl
    rw [if_neg hproc, if_neg hproc, wp_bind, modifyProcess, wp_modify, wp_bind, wp_bind, wp_onHeap]
    refine wp_partial.mpr fun pool h₂ hrun₂ => ?_
    rw [wp_of_run hrun₂]
    -- the array of its threads
    rcases wp_ok (wp_kcalloc (store _) (pages _) hheap₁ (by decide)) hrun₂ with ⟨rfl, rfl⟩ | ⟨hpool, ⟨free₂, hheap₂⟩, -⟩
    · rw [if_pos rfl, if_pos rfl, wp_pure]
      rw [← blockAt_add hproc, ← Multiset.zero_add (blockAt proc _ + live)] at hheap₁
      refine wp_imp (wp_giveUp_early store pages supply h rfl hheap₁) fun _ s' hundone _ => ?_
      exact iff_of_true hundone rfl
    rw [if_neg hpool, if_neg hpool, wp_bind, modifyProcess, wp_modify, wp_bind, wp_bind, wp_onHeap]
    refine wp_partial.mpr fun vect h₃ hrun₃ => ?_
    rw [wp_of_run hrun₃, wp_pure]
    -- the address space
    rcases wp_ok (supply.process_create_address_space (books_of_inv hheap₂)) hrun₃ with ⟨rfl, rfl⟩ | ⟨hvect, F, hbooks₃⟩
    · rw [if_pos rfl]
      rw [← blockAt_add hproc, ← blockAt_add hpool] at hheap₂
      refine wp_imp (wp_giveUp_early store pages supply h rfl hheap₂) fun _ s' hundone _ => ?_
      exact iff_of_true hundone (by simp)
    rw [if_neg hvect, wp_bind, modifyProcess, wp_modify]
    rw [Multiset.card_cons, Multiset.card_cons] at hbooks₃
    refine wp_imp (wp_late store pages supply htable hproc hpool hbooks₃) fun _ s' hlost hnull => ?_
    exact iff_of_false (hlost hnull) (by simpa using hvect)
  have hiff := wp_ok key hrun
  exact hiff rfl

end Early

/-! ## Two ways to fail -/

/-- No page for a table can be had. -/
def noFrames : FrameServices PageMemory where
  slab_alloc_phys phys _ := do
    assert "slab_alloc_helper" (phys ≠ 0)
    pure (0, 0)
  slab_free_virt _ _ := pure ()

/-- No page can be had at all. -/
def refusing : Services PageMemory where
  slab_alloc _ _ := pure 0
  slab_free _ _ := pure ()
  slab_free_helper _ _ _ := pure ()
  thread_user_stack_init _ _ _ := pure (.Error_No_Memory, 0, 0)
  process_create_address_space := pure 0
  region_vector_fini _ := pure ()
  page_table_init := page_table_init pageStore takeSpare noFrames
  scheduler_add_thread _ := pure ()

/-- Nothing has been handed out. -/
def noneGiven (_ : PageMemory) : Multiset Holding := 0

theorem refusing_laws : SupplyLaws PageMemory.Own noneGiven refusing noFrames := by
  have hmono : ∀ {h : Holding} {H : Multiset Holding} {n : Nat} {s : HeapState PageMemory},
      Books PageMemory.Own noneGiven (h ::ₘ H) n s → Books PageMemory.Own noneGiven H n s := fun hbooks =>
    books_mono hbooks (Multiset.le_cons_self _ _) le_rfl
  refine ⟨fun _ => ?_, fun h => ?_, fun s => ?_, fun _ _ _ => ?_, fun h => ?_, fun _ _ _ h => ?_, fun _ h => ?_,
    fun phys _ _ => ?_, fun h => ?_⟩
  · exact (wp_pure ..).mpr (.inl ⟨rfl, rfl⟩)
  · exact (wp_pure ..).mpr (hmono h)
  · exact (wp_pure ..).mpr rfl
  · exact (wp_pure ..).mpr (.inl ⟨rfl, rfl⟩)
  · exact (wp_pure ..).mpr (hmono h)
  · exact (wp_pure ..).mpr h
  · exact (wp_pure ..).mpr (hmono h)
  · show wp (do assert "slab_alloc_helper" (phys ≠ 0); pure (0, 0)) _ _ _
    rw [wp_bind, wp_assert_iff]
    split
    · rename_i hphys
      rw [wp_pure]
      exact ⟨hphys, .inl ⟨rfl, rfl⟩⟩
    · trivial
  · have hle := books_le_given h
    simp [noneGiven] at hle

theorem noneGiven_store (H : Multiset Holding) : StoreLaws pageStore (Owned PageMemory.Own noneGiven H) := by
  refine ⟨fun own hv => pageStore_laws.read own.1 hv, fun w own hv => ?_⟩
  obtain ⟨s', hrun, own'⟩ := pageStore_laws.write w own.1 hv
  exact ⟨s', hrun, own', own.2⟩

theorem noneGiven_pages (H : Multiset Holding) :
    PageLaws takeSpare giveSpare (Owned PageMemory.Own noneGiven H) fun _ => True := by
  refine ⟨fun own => ?_, fun own hv => ?_, trivial⟩
  · refine wp_imp ((pageLaws_true spare_laws).alloc own.1) ?_
    rintro p s' (hp | ⟨hp, hN, v, own'⟩)
    · exact .inl hp
    · exact .inr ⟨hp, hN, v, own', own.2⟩
  · exact wp_imp ((pageLaws_true spare_laws).free own.1 hv) fun _ s' own' => ⟨own', own.2⟩

/-- Without an address space everything is given back. -/
theorem no_space_undone : ∃ s', (process_init pageStore takeSpare giveSpare refusing 0x400000).run noProcess = .ok (0, s') ∧
    RefusedEarly pageStore takeSpare refusing noProcess.heap ∧
    Undone PageMemory.Own noneGiven {⟨0x100008, 2400⟩} noProcess s' := by
  have hrun : (process_init pageStore takeSpare giveSpare refusing 0x400000).run' noProcess = .ok 0 := by decide +kernel
  have hrefused : (firstRequests pageStore takeSpare refusing).run' noProcess.heap = .ok false := by decide +kernel
  obtain ⟨s', hrun⟩ := run_of_run' hrun
  have hearly : RefusedEarly pageStore takeSpare refusing noProcess.heap := run_of_run' hrefused
  refine ⟨s', hrun, hearly, ?_⟩
  exact (failed_process_undone_iff noneGiven_store noneGiven_pages refusing_laws rfl (heapOfBlock_inv (by decide)) hrun).mpr
    hearly

/-- There is a page for an address space, but none for a page table. -/
def spaceOnly : Services PageMemory := { refusing with process_create_address_space := pure 0xb000 }

/-- Without a page for the page table, its record stays in the heap. -/
theorem table_record_lost : ∃ s', (process_init pageStore takeSpare giveSpare spaceOnly 0x400000).run noProcess = .ok (0, s') ∧
    s'.heap.Used = noProcess.heap.Used + 24 ∧ ¬ Undone PageMemory.Own noneGiven {⟨0x100008, 2400⟩} noProcess s' := by
  have hused : ((process_init pageStore takeSpare giveSpare spaceOnly 0x400000).run noProcess).map
        (fun r => (r.1, r.2.heap.Used)) = .ok (0, noProcess.heap.Used + 24) := by decide +kernel
  cases hrun : (process_init pageStore takeSpare giveSpare spaceOnly 0x400000).run noProcess with
  | error e =>
    rw [hrun] at hused
    cases hused
  | ok r =>
    rw [hrun] at hused
    obtain ⟨hnull, hused⟩ : r.1 = 0 ∧ r.2.heap.Used = noProcess.heap.Used + 24 := by simpa [Except.map] using hused
    refine ⟨r.2, by rw [← hnull], hused, fun hundone => ?_⟩
    have hsame := hundone.usage
    rw [hused] at hsame
    exact absurd hsame (by decide)

end KernelOfTruth.ProcessFailure
