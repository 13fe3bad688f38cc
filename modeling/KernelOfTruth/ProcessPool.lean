import KernelOfTruth.Hashtable
import KernelOfTruth.Spec.Process

/-! # Ids of processes are unique -/

open KernelOfTruth.Lib KernelOfTruth.Code KernelOfTruth.Code.Processes KernelOfTruth.Spec KernelOfTruth.Rules
  KernelOfTruth.Hashtables

namespace KernelOfTruth.ProcessPool

variable {τ : Type} {E : Halt → Prop} {ht : Hashtable} {es : Multiset (Word × Word)}

theorem wp_onHeap {τ α : Type} {s : ProcessState τ} {p : Kernel τ α} {Q : α → ProcessState τ → Prop} {E : Halt → Prop} :
    wp (Processes.onHeap p) Q E s ↔ wp p (fun a h => Q a { s with heap := h }) E s.heap := by
  rw [Processes.onHeap, wp_zoom]

/-! ## Keys -/

theorem comp_pid_iff {a b : Word} : process_comp_pid a b = .Partial_Equal ↔ a = b := by
  unfold process_comp_pid
  split <;> simp_all

theorem pidFit : Consistent process_hash_pid process_comp_pid := by
  refine ⟨⟨fun a => comp_pid_iff.mpr rfl, fun h => ?_, fun h h' => ?_⟩, fun h => ?_⟩
  · exact comp_pid_iff.mpr (comp_pid_iff.mp h).symm
  · exact comp_pid_iff.mpr ((comp_pid_iff.mp h).trans (comp_pid_iff.mp h'))
  · rw [comp_pid_iff.mp h]

theorem pidKey_toNat (id : BitVec 32) : (pidKey id).toNat = id.toNat := by
  have hlt := id.isLt
  rw [pidKey, BitVec.toNat_setWidth, Nat.mod_eq_of_lt (by omega)]

/-! ## The invariant -/

/-- The entries of the pool: an id is in it once, and no process is NULL. -/
structure PoolInv (ht : Hashtable) (es : Multiset (Word × Word)) : Prop where
  table : IsHashtable process_hash_pid process_comp_pid ht es
  covered : Covered ht
  big : 32 ≤ ht.size.toNat
  bounded : ht.size.toNat ≤ 2 ^ 34
  keys : (es.map Prod.fst).Nodup
  small : ∀ e ∈ es, e.1.toNat < 2 ^ 32
  values : ∀ e ∈ es, e.2 ≠ 0

theorem PoolInv.unique (h : PoolInv ht es) {e e' : Word × Word} (he : e ∈ es) (he' : e' ∈ es) (hkey : e.1 = e'.1) :
    e = e' := Multiset.inj_on_of_nodup_map h.keys e he e' he' hkey

/-- There are no more entries than ids. -/
theorem PoolInv.card_le (h : PoolInv ht es) : Multiset.card es ≤ 2 ^ 32 := by
  have hnodup : ((es.map Prod.fst).map BitVec.toNat).Nodup := h.keys.map fun a b hab => BitVec.eq_of_toNat_eq hab
  have hsub : (es.map Prod.fst).map BitVec.toNat ≤ Multiset.range (2 ^ 32) := by
    refine (Multiset.le_iff_subset hnodup).mpr fun n hn => ?_
    simp only [Multiset.mem_map] at hn
    obtain ⟨k, ⟨e, he, rfl⟩, rfl⟩ := hn
    exact Multiset.mem_range.mpr (h.small e he)
  have hcard := Multiset.card_le_card hsub
  rwa [Multiset.card_map, Multiset.card_map, Multiset.card_range] at hcard

theorem PoolInv.get_of_mem (h : PoolInv ht es) {id : BitVec 32} {p : Word} (hmem : (pidKey id, p) ∈ es) (s : ProcessState τ) :
    (hashtable_get ht (pidKey id)).run s = .ok (p, s) :=
  hashtable_get_of_mem pidFit h.table h.covered.not_leaves hmem (pidFit.equal.refl _)
    (fun _ he heq => congrArg Prod.snd (h.unique he hmem (comp_pid_iff.mp heq).symm)) s

/-- The lookup of an id, where it does not matter whether the assertion behind the search fails. -/
theorem PoolInv.wp_get (h : PoolInv ht es) (hE : ∀ e, e ≠ .diverge → E e) (id : BitVec 32) (s : ProcessState τ) :
    wp (hashtable_get ht (pidKey id)) (fun value s' => s' = s ∧ (value = 0 ↔ ∀ p, (pidKey id, p) ∉ es)) E s := by
  refine wp_imp (wp_hashtable_get h.table (fun _ => hE _ (by decide)) (fun _ _ heq => pidFit.hash_eq heq) fun _ => hE _ (by decide)) ?_
  rintro value s' ⟨rfl, hvalue⟩
  refine ⟨rfl, ?_⟩
  rcases hvalue with ⟨k, hmem, heq⟩ | ⟨rfl, hnone⟩
  · obtain rfl := comp_pid_iff.mp heq
    exact iff_of_false (h.values _ hmem) fun hnot => hnot _ hmem
  · exact iff_of_true rfl fun p hp => hnone _ hp (comp_pid_iff.mpr rfl)

/-- A new id is added to the pool. -/
theorem PoolInv.cons {ht' : Hashtable} (h : PoolInv ht es) {id : BitVec 32} {p : Word} (hp : p ≠ 0)
    (habsent : ∀ q, (pidKey id, q) ∉ es)
    (htable : IsHashtable process_hash_pid process_comp_pid ht' ((pidKey id, p) ::ₘ es)) (hcovered : Covered ht')
    (hbig : 32 ≤ ht'.size.toNat) (hbounded : ht'.size.toNat ≤ 2 ^ 34) : PoolInv ht' ((pidKey id, p) ::ₘ es) := by
  refine ⟨htable, hcovered, hbig, hbounded, ?_, ?_, ?_⟩
  · rw [Multiset.map_cons, Multiset.nodup_cons]
    refine ⟨fun hmem => ?_, h.keys⟩
    obtain ⟨⟨k, q⟩, he, rfl⟩ := Multiset.mem_map.mp hmem
    exact habsent q he
  · intro e he
    rcases Multiset.mem_cons.mp he with rfl | he
    · rw [pidKey_toNat]
      exact id.isLt
    · exact h.small e he
  · intro e he
    rcases Multiset.mem_cons.mp he with rfl | he
    · exact hp
    · exact h.values e he

/-! ## The search for an id -/

/-- What the loop finds out, when it has found the ids from `start` on in the pool. -/
theorem wp_pidLoop {s : ProcessState τ} {start : BitVec 32} {k fuel : Nat} (h : PoolInv s.Process_Pool es)
    (hE : ∀ e, e ≠ .diverge → E e) (hk : k < 2 ^ 32) (hfuel : fuel + k = 2 ^ 32)
    (hnext : s.next_pid = start + BitVec.ofNat 32 k) (hused : ∀ j < k, ∃ p, (pidKey (start + BitVec.ofNat 32 j), p) ∈ es) :
    wp (pidLoop start fuel) (fun found s' => (∃ n, s' = { s with next_pid := n }) ∧
      if found then ∀ p, (pidKey s'.next_pid, p) ∉ es else ∀ id : BitVec 32, ∃ p, (pidKey id, p) ∈ es) E s := by
  induction fuel generalizing k s with
  | zero => omega
  | succ fuel ih =>
    unfold pidLoop
    rw [wp_bind, wp_get, wp_bind]
    refine wp_imp (h.wp_get hE s.next_pid s) ?_
    rintro value t ⟨ht, hvalue⟩
    rw [ht]
    by_cases hzero : value = 0
    · rw [if_pos hzero, wp_pure]
      exact ⟨⟨_, rfl⟩, hvalue.mp hzero⟩
    rw [if_neg hzero, wp_bind, wp_modify, wp_bind, wp_get]
    have hthis : ∃ p, (pidKey (start + BitVec.ofNat 32 k), p) ∈ es := by
      by_contra hnone
      refine hzero (hvalue.mpr fun p hp => hnone ⟨p, ?_⟩)
      rwa [← hnext]
    have hused' : ∀ j < k + 1, ∃ p, (pidKey (start + BitVec.ofNat 32 j), p) ∈ es := by
      intro j hj
      rcases Nat.lt_succ_iff_lt_or_eq.mp hj with hj | rfl
      · exact hused j hj
      · exact hthis
    have hnext' : s.next_pid + 1 = start + BitVec.ofNat 32 (k + 1) := by
      rw [hnext, BitVec.ofNat_add, BitVec.add_assoc]
      rfl
    by_cases hround : k + 1 = 2 ^ 32
    · have hback : s.next_pid + 1 = start := by
        rw [hnext', hround]
        exact BitVec.add_zero start
      rw [if_pos hback, wp_pure]
      refine ⟨⟨_, rfl⟩, fun id => ?_⟩
      -- every id is some number of steps behind the first
      obtain ⟨p, hp⟩ := hused' (id - start).toNat (hround ▸ (id - start).isLt)
      rw [BitVec.ofNat_toNat, BitVec.setWidth_eq, BitVec.add_comm, BitVec.sub_add_cancel] at hp
      exact ⟨p, hp⟩
    · have hnot : s.next_pid + 1 ≠ start := by
        rw [hnext']
        intro heq
        have hnat := congrArg BitVec.toNat heq
        rw [BitVec.toNat_add, BitVec.toNat_ofNat] at hnat
        have hlt := start.isLt
        omega
      rw [if_neg hnot]
      refine wp_imp (ih (s := { s with next_pid := s.next_pid + 1 }) h (by omega) (by omega) hnext' hused') ?_
      rintro found s' ⟨⟨n, rfl⟩, hfound⟩
      exact ⟨⟨n, rfl⟩, hfound⟩

/-! ## `process_add_pool` -/

section Add

variable {kmalloc : Word → Kernel τ Word} {kfree : Word → Kernel τ Unit} {s s' : ProcessState τ} {p : Word}

/-- No id is free, or the process is in the pool with a new id. In the second case the status is not `Ok` when the pool
could not grow. -/
structure Added (s s' : ProcessState τ) (es : Multiset (Word × Word)) (p : Word) (es' : Multiset (Word × Word)) : Prop where
  fresh : ∀ q, (pidKey (s'.processes p).id, q) ∉ es
  entries : es' = (pidKey (s'.processes p).id, p) ::ₘ es
  pool : PoolInv s'.Process_Pool es'
  process : s'.processes p = { s.processes p with id := (s'.processes p).id }
  others : ∀ q ≠ p, s'.processes q = s.processes q
  threads : s'.threads = s.threads
  touched : s'.touched = s.touched

/-- Besides, what the two functions of the heap keep is kept. -/
theorem wp_process_add_pool {J : τ → Prop} (h : PoolInv s.Process_Pool es) (hE : ∀ e, e ≠ .diverge → E e) (hJ : J s.heap)
    (hmalloc : ∀ bytes t, 0 < bytes.toNat → bytes.toNat < 2 ^ 40 → J t → wp (kmalloc bytes) (fun _ t' => J t') E t)
    (hfree : ∀ t, J t → wp (kfree s.Process_Pool.data.address) (fun _ t' => J t') E t) :
    wp (process_add_pool kmalloc kfree p) (fun status s' => J s'.heap ∧
      ((status = .Error_Full ∧ (∃ n, s' = { s with next_pid := n }) ∧ ∀ id : BitVec 32, ∃ q, (pidKey id, q) ∈ es) ∨
      (status ≠ .Error_Full ∧ ∃ es', Added s s' es p es'))) E s := by
  unfold process_add_pool
  rw [wp_bind, wp_assert_iff]
  split
  swap
  · exact hE _ (by decide)
  rename_i hp
  rw [wp_bind, wp_get, wp_bind]
  refine wp_imp (wp_pidLoop (k := 0) h hE (by decide) (Nat.add_zero _) (BitVec.add_zero _).symm fun j hj => by omega) ?_
  rintro found _ ⟨⟨n, rfl⟩, hfound⟩
  cases found with
  | false => exact (wp_pure ..).mpr ⟨hJ, .inl ⟨rfl, ⟨n, rfl⟩, hfound⟩⟩
  | true =>
    have habsent : ∀ q, (pidKey n, q) ∉ es := hfound
    rw [if_pos rfl, wp_bind, wp_get, wp_bind, modifyProcess, wp_modify, wp_bind, wp_get, wp_bind, wp_onHeap]
    have hid : ((Function.update s.processes p { s.processes p with id := n }) p).id = n := by rw [Function.update_self]
    have hadded : ∀ {ht' : Hashtable} {t : τ}, PoolInv ht' ((pidKey n, p) ::ₘ es) →
        ∃ es', Added s ⟨t, Function.update s.processes p { s.processes p with id := n }, s.threads, ht', n, s.touched⟩
          es p es' := by
      intro ht' t hpool
      refine ⟨_, ?_, rfl, ?_, ?_, fun q hq => Function.update_of_ne hq .., rfl, rfl⟩
      · rw [hid]
        exact habsent
      · rw [hid]
        exact hpool
      · rw [hid]
        exact Function.update_self ..
    have hcard := h.card_le
    have hkept : ∀ q, NewSlot s.Process_Pool (pidKey n) q → PoolInv (putAt s.Process_Pool q (pidKey n) p) _ :=
      fun q hslot => h.cons hp habsent (hslot.table h.table p) ((kept_store ..).covered h.covered) h.big h.bounded
    refine wp_hashtable_put_exact (hE _ (by decide)) h.table (pidKey n) p (fun _ => hE _ (by decide)) (hE _ (by decide)) ?_ ?_
    · intro q hslot
      rw [wp_bind, wp_modify, wp_pure]
      exact ⟨hJ, .inr ⟨by decide, hadded (hkept q hslot)⟩⟩
    · intro q hslot hfull hgrows
      have hdouble : (s.Process_Pool.size * 2).toNat = 2 * s.Process_Pool.size.toNat := by
        have hbounded := h.bounded
        rw [BitVec.toNat_mul, show (2 : Word).toNat = 2 from rfl]
        omega
      have hbig := h.big
      have hbytes : (s.Process_Pool.size * 2 * hashdataSize).toNat = 48 * s.Process_Pool.size.toNat := by
        rw [BitVec.toNat_mul, hdouble, show hashdataSize.toNat = 24 from rfl]
        omega
      refine wp_imp (hmalloc _ _ (by omega) (by omega) hJ) fun data t₁ hJ₁ => ?_
      split
      · rw [wp_bind, wp_modify, wp_pure]
        exact ⟨hJ₁, .inr ⟨by decide, hadded (hkept q hslot)⟩⟩
      · refine wp_imp (hfree _ hJ₁) fun _ t₂ hJ₂ new hnew => ?_
        rw [wp_bind, wp_modify, wp_pure]
        refine ⟨hJ₂, .inr ⟨by decide, hadded (h.cons hp habsent (hnew.table (hslot.table h.table p)) (hnew.covered ?_) ?_ ?_)⟩⟩
        · rw [hdouble]
          omega
        · rw [hnew.size, hdouble]
          omega
        · rw [hnew.size, hdouble]
          omega

end Add

/-! ## Removal -/

section Remove

variable {kmalloc : Word → Kernel τ Word} {kfree : Word → Kernel τ Unit} {s : ProcessState τ} {p : Word}

theorem wp_removeFromPool (h : PoolInv s.Process_Pool es) (hmem : (pidKey (s.processes p).id, p) ∈ es) :
    wp (removeFromPool kmalloc kfree p) (fun _ s' => s'.processes = s.processes ∧
      PoolInv s'.Process_Pool (es.erase (pidKey (s.processes p).id, p))) (fun _ => True) s := by
  unfold removeFromPool
  rw [wp_bind, wp_get, wp_bind, wp_onHeap]
  refine wp_imp (wp_hashtable_remove (E := fun _ => True) (fun _ => trivial) pidFit h.table h.big ⟨_, hmem, comp_pid_iff.mpr rfl⟩) ?_
  rintro ⟨status, ht'⟩ t ⟨-, hkept, -, k, v, es', hkey, hes, htable⟩
  rw [wp_modify]
  have hkv : (pidKey (s.processes p).id, p) = (k, v) :=
    h.unique hmem (hes ▸ Multiset.mem_cons_self _ _) (comp_pid_iff.mp hkey)
  have herase : es.erase (pidKey (s.processes p).id, p) = es' := by rw [hkv, hes, Multiset.erase_cons_head]
  have hsub : ∀ e ∈ es', e ∈ es := fun e he => hes ▸ Multiset.mem_cons_of_mem he
  refine ⟨rfl, ?_⟩
  rw [herase]
  refine ⟨htable, hkept.covered h.covered, ?_, ?_, ?_, fun e he => h.small e (hsub e he), fun e he => h.values e (hsub e he)⟩
  · show 32 ≤ ht'.size.toNat
    rw [hkept.size]
    exact h.big
  · show ht'.size.toNat ≤ 2 ^ 34
    rw [hkept.size]
    exact h.bounded
  · have hkeys := h.keys
    rw [hes, Multiset.map_cons, Multiset.nodup_cons] at hkeys
    exact hkeys.2

end Remove

/-! ## Runs -/

section Run

variable {kmalloc : Word → Kernel τ Word} {kfree : Word → Kernel τ Unit} {s : ProcessState τ} {live : Set Word}

/-- The pool is in order, and has every process of `live` under its id. -/
def PoolOk (s : ProcessState τ) (live : Set Word) : Prop :=
  ∃ es, PoolInv s.Process_Pool es ∧ ∀ p ∈ live, (pidKey (s.processes p).id, p) ∈ es

theorem poolInv_init {h h' : τ} (hrun : (hashtable_init kmalloc kfree Process_Pool_Default_Size process_hash_pid
    process_comp_pid).run h = .ok (some ht, h')) : PoolInv ht 0 := by
  obtain ⟨hsize, htable, hcovered⟩ := init_table (by decide) hrun
  refine ⟨htable, hcovered (by decide), ?_, ?_, Multiset.nodup_zero, fun e he => ?_, fun e he => ?_⟩
  · rw [hsize]
    decide
  · rw [hsize]
    decide
  · exact absurd he (Multiset.notMem_zero e)
  · exact absurd he (Multiset.notMem_zero e)

theorem added_live {s' : ProcessState τ} {es' : Multiset (Word × Word)} {p : Word} (hadded : Added s s' es p es')
    (hlive : ∀ q ∈ live, (pidKey (s.processes q).id, q) ∈ es) {q : Word} (hq : q = p ∨ q ∈ live) :
    (pidKey (s'.processes q).id, q) ∈ es' := by
  rw [hadded.entries]
  by_cases hqp : q = p
  · subst hqp
    exact Multiset.mem_cons_self _ _
  · rw [hadded.others q hqp]
    exact Multiset.mem_cons_of_mem (hlive q (hq.resolve_left hqp))

theorem wp_any_true {α : Type} (q : Kernel τ α) (t : τ) : wp q (fun _ _ => True) (fun _ => True) t :=
  wp_any (fun _ _ => trivial) fun _ => trivial

theorem run_poolOk (hrun : PoolRun kmalloc kfree s live) : PoolOk s live := by
  induction hrun with
  | init hrun => exact ⟨0, poolInv_init hrun, fun p hp => absurd hp (Set.notMem_empty p)⟩
  | add _ hrun ih =>
    obtain ⟨es, hpool, hlive⟩ := ih
    obtain ⟨-, hadd⟩ := wp_ok (wp_process_add_pool (E := fun _ => True) (J := fun _ => True) hpool (fun _ _ => trivial) trivial
      (fun b t _ _ _ => wp_any_true (kmalloc b) t) fun t _ => wp_any_true (kfree _) t) hrun
    rcases hadd with ⟨rfl, ⟨n, rfl⟩, -⟩ | ⟨-, es', hadded⟩
    · exact ⟨es, hpool, hlive⟩
    · refine ⟨es', hadded.pool, fun q hq => added_live hadded hlive ?_⟩
      split at hq
      · exact hq
      · exact .inr hq
  | remove _ hp hrun ih =>
    obtain ⟨es, hpool, hlive⟩ := ih
    rw [Pooled, hpool.table.entries_eq] at hp
    obtain ⟨hsame, hpool'⟩ := wp_ok (wp_removeFromPool hpool hp) hrun
    refine ⟨_, hpool', fun q hq => ?_⟩
    rw [hsame]
    exact (Multiset.mem_erase_of_ne fun heq => hq.2 (Set.mem_singleton_iff.mpr (congrArg Prod.snd heq))).mpr (hlive q hq.1)
  | other _ hpool _ hids ih =>
    obtain ⟨es, hinv, hlive⟩ := ih
    exact ⟨es, hpool ▸ hinv, fun p hp => by rw [hids p hp]; exact hlive p hp⟩

/-- Two processes in the pool have different ids, and each is found under its own. An id is refused only when all of them
are in the pool. The search for one comes to an end. -/
theorem process_ids_unique (hrun : PoolRun kmalloc kfree s live) :
    (∀ p ∈ live, ∀ q ∈ live, p ≠ q → (s.processes p).id ≠ (s.processes q).id) ∧
    (∀ p ∈ live, (hashtable_get s.Process_Pool (pidKey (s.processes p).id)).run s = .ok (p, s)) ∧
    (∀ p s', (process_add_pool kmalloc kfree p).run s = .ok (.Error_Full, s') →
      ∀ id, ∃ q ≠ 0, (hashtable_get s.Process_Pool (pidKey id)).run s = .ok (q, s)) ∧
    ((∀ bytes t, (kmalloc bytes).run t ≠ .error .diverge) → (∀ a t, (kfree a).run t ≠ .error .diverge) →
      ∀ p, (process_add_pool kmalloc kfree p).run s ≠ .error .diverge) := by
  obtain ⟨es, hpool, hlive⟩ := run_poolOk hrun
  refine ⟨fun p hp q hq hne hid => hne ?_, fun p hp => hpool.get_of_mem (hlive p hp) s, fun p s' hadd id => ?_, ?_⟩
  · have hsame := hpool.unique (hlive p hp) (hlive q hq) (congrArg pidKey hid)
    exact congrArg Prod.snd hsame
  · obtain ⟨-, hresult⟩ := wp_ok (wp_process_add_pool (E := fun _ => True) (J := fun _ => True) hpool (fun _ _ => trivial)
      trivial (fun b t _ _ _ => wp_any_true (kmalloc b) t) fun t _ => wp_any_true (kfree _) t) hadd
    rcases hresult with ⟨-, -, hall⟩ | ⟨hne, -⟩
    · obtain ⟨q, hq⟩ := hall id
      exact ⟨q, hpool.values _ hq, hpool.get_of_mem hq s⟩
    · exact absurd rfl hne
  · intro hmalloc hfree p herror
    have hquiet := wp_error (wp_process_add_pool (E := (· ≠ .diverge)) (J := fun _ => True) (p := p) hpool (fun _ he => he)
      trivial (fun bytes t _ _ _ => wp_avoids.mpr (hmalloc bytes t)) fun t _ => wp_avoids.mpr (hfree _ t)) herror
    exact hquiet rfl

end Run

/-! ## Two processes -/

/-- An empty pool, and the counter at the last id. -/
def emptyPool : ProcessState Unit where
  heap := ()
  processes _ := Process.filled
  threads _ := Thread.filled
  Process_Pool := ⟨0, 100, process_hash_pid, process_comp_pid, .zeroed 0x1000 (100 * hashdataSize)⟩
  next_pid := 0xffffffff
  touched := []

/-- With the id `0xffffffff` in slot 95. -/
def onePooled : ProcessState Unit :=
  { emptyPool with
    processes := Function.update emptyPool.processes 0x1000 { Process.filled with id := 0xffffffff }
    Process_Pool := { emptyPool.Process_Pool.store 95 ⟨.Hashdata_Full, 0xffffffff, 0x1000⟩ with used := 1 } }

/-- The next id is 0. -/
def twoPooled : ProcessState Unit :=
  { onePooled with
    processes := Function.update onePooled.processes 0x2000 { Process.filled with id := 0 }
    Process_Pool := { onePooled.Process_Pool.store 0 ⟨.Hashdata_Full, 0, 0x2000⟩ with used := 2 }
    next_pid := 0 }

theorem twoPooled_unique : PoolRun oneBuffer keepBuffer twoPooled {0x2000, 0x1000} ∧
    (twoPooled.processes 0x1000).id ≠ (twoPooled.processes 0x2000).id ∧
    (hashtable_get twoPooled.Process_Pool (pidKey (twoPooled.processes 0x2000).id)).run twoPooled = .ok (0x2000, twoPooled) := by
  have hinit : PoolRun oneBuffer keepBuffer emptyPool ∅ := .init (s := emptyPool) rfl
  have hone : (process_add_pool oneBuffer keepBuffer 0x1000).run emptyPool = .ok (.Ok, onePooled) := rfl
  have htwo : (process_add_pool oneBuffer keepBuffer 0x2000).run onePooled = .ok (.Ok, twoPooled) := rfl
  have hrun := (hinit.add hone).add htwo
  rw [if_pos rfl, if_pos rfl, insert_empty_eq] at hrun
  obtain ⟨hids, hget, -⟩ := process_ids_unique hrun
  exact ⟨hrun, hids _ (by simp) _ (by simp) (by decide), hget _ (by simp)⟩

end KernelOfTruth.ProcessPool
