import KernelOfTruth.Sha512Block

/-!
# The hash of the kernel is SHA-512

The code hashes the whole blocks of a piece where they are, and keeps the rest until the next piece comes. What it returns
is the hash of all the pieces together.
-/

open KernelOfTruth.Lib KernelOfTruth.Code KernelOfTruth.Code.Sha512 KernelOfTruth.Spec.Sha512

namespace KernelOfTruth.Sha512

/-! ## Pieces of a message -/

section Stream

variable {s : Sha512State} {m : List Byte} {state : Fin 8 → Word} {input buf : Nat → Byte} {inlen : Word} {tmp64 : Nat → Word}
  {n r : Nat}

/-- The blocks of the message so far are hashed, the rest of it is in `buf`, and its length is counted in bits. -/
structure Holds (s : Sha512State) (m : List Byte) : Prop where
  absorbed : absorb 128 compress initialHash m = (s.state, bytesFrom s.buf (m.length % 128))
  counted : (s.count 0).toNat * 2 ^ 64 + (s.count 1).toNat = 8 * m.length % 2 ^ 128

theorem Holds.of_absorbed (h : absorb 128 compress initialHash m = (s.state, bytesFrom s.buf n))
    (hcount : (s.count 0).toNat * 2 ^ 64 + (s.count 1).toNat = 8 * m.length % 2 ^ 128) : Holds s m := by
  have hn : (absorb 128 compress initialHash m).2.length = m.length % 128 := absorb_length (by decide)
  rw [h, bytesFrom_length] at hn
  exact ⟨by rw [h, hn], hcount⟩

theorem holds_init (buf : Nat → Byte) : Holds (crypto_hash_sha512_init buf) [] := by
  refine .of_absorbed (n := 0) ?_ (by simp [crypto_hash_sha512_init])
  rw [absorb_of_lt (by decide), ← sha512_initial_state_eq]
  rfl

theorem Holds.fill (h : Holds s m) : (s.count 1 >>> 3 &&& 0x7f).toNat = m.length % 128 := by
  have hcount := h.counted
  have hmask : (0x7f : Word).toNat = 2 ^ 7 - 1 := rfl
  rw [BitVec.toNat_and, BitVec.toNat_ushiftRight, hmask, Nat.and_two_pow_sub_one_eq_mod, Nat.shiftRight_eq_div_pow]
  omega

theorem copyLoop_bytes : bytesFrom (copyLoop buf r input n) (r + n) = bytesFrom buf r ++ bytesFrom input n := by
  have hcopy : copyLoop buf r input n = fun k => if r ≤ k ∧ k < r + n then input (k - r) else buf k := foldl_update_range n
  rw [bytesFrom_add, hcopy]
  congr 1
  · exact bytesFrom_congr fun i hi => if_neg (by omega)
  · apply bytesFrom_congr
    intro i hi
    dsimp only
    rw [if_pos (by omega), Nat.add_sub_cancel_left]

/-- The whole blocks of the input are hashed where they are. -/
theorem updateLoop_absorbs {result : (Fin 8 → Word) × (Nat → Byte) × Word} (h : updateLoop state input inlen tmp64 = result) :
    result.2.2 < 128 ∧
      absorb 128 compress state (bytesFrom input inlen.toNat) = (result.1, bytesFrom result.2.1 result.2.2.toNat) := by
  fun_induction updateLoop state input inlen tmp64 with
  | case1 state input inlen tmp64 hle state' tmp64' htransform ih =>
    have hsplit : inlen.toNat = 128 + (inlen - 128).toNat := by bv_omega
    obtain ⟨hlt, habsorb⟩ := ih h
    refine ⟨hlt, ?_⟩
    rw [hsplit, bytesFrom_add, absorb_block (by decide) bytesFrom_length, ← SHA512_Transform_fst (W := tmp64), htransform]
    exact habsorb
  | case2 state input inlen tmp64 hle =>
    subst h
    exact ⟨by bv_omega, absorb_of_lt (by rw [bytesFrom_length]; bv_omega)⟩

/-- The lower word is added with a carry. -/
theorem add_two_words (c₀ b₀ : Nat) {c₁ b₁ carry : Nat} (h₁ : c₁ < 2 ^ 64) (hb₁ : b₁ < 2 ^ 64)
    (hcarry : carry = if (c₁ + b₁) % 2 ^ 64 < b₁ then 1 else 0) :
    (c₀ + carry + b₀) % 2 ^ 64 * 2 ^ 64 + (c₁ + b₁) % 2 ^ 64 = (c₀ * 2 ^ 64 + c₁ + (b₀ * 2 ^ 64 + b₁)) % 2 ^ 128 := by
  have hlow : c₁ + b₁ = carry * 2 ^ 64 + (c₁ + b₁) % 2 ^ 64 := by
    split_ifs at hcarry <;> omega
  have hx : (c₁ + b₁) % 2 ^ 64 < 2 ^ 64 := Nat.mod_lt _ (by decide)
  generalize (c₁ + b₁) % 2 ^ 64 = x at hlow hx ⊢
  have hsum : c₀ * 2 ^ 64 + c₁ + (b₀ * 2 ^ 64 + b₁) = (c₀ + carry + b₀) * 2 ^ 64 + x := by omega
  rw [hsum]
  generalize c₀ + carry + b₀ = t
  have hmod : (t * 2 ^ 64 + x) % 2 ^ 64 = x := by omega
  have hdiv : (t * 2 ^ 64 + x) / 2 ^ 64 = t := by omega
  rw [show 2 ^ 128 = 2 ^ 64 * 2 ^ 64 from rfl, Nat.mod_mul, hmod, hdiv]
  ring

/-- The two words of `count` after `inlen` more bytes. -/
theorem counted_add {count : Fin 2 → Word} {l : Nat} (inlen : Word) (h : (count 0).toNat * 2 ^ 64 + (count 1).toNat = 8 * l % 2 ^ 128) :
    (count 0 + (if count 1 + inlen <<< 3 < inlen <<< 3 then (1 : Word) else 0) + inlen >>> 61).toNat * 2 ^ 64 +
      (count 1 + inlen <<< 3).toNat = 8 * (l + inlen.toNat) % 2 ^ 128 := by
  have hlow : (inlen <<< 3).toNat = 8 * (inlen.toNat % 2 ^ 61) := by
    rw [BitVec.toNat_shiftLeft, Nat.shiftLeft_eq, Nat.mul_comm, ← Nat.mul_mod_mul_left]
    rfl
  have hhigh : (inlen >>> 61).toNat = inlen.toNat / 2 ^ 61 := by
    rw [BitVec.toNat_ushiftRight, Nat.shiftRight_eq_div_pow]
  have hcarry : (if count 1 + inlen <<< 3 < inlen <<< 3 then 1 else 0 : Word).toNat =
      if ((count 1).toNat + (inlen <<< 3).toNat) % 2 ^ 64 < (inlen <<< 3).toNat then 1 else 0 := by
    simp only [BitVec.lt_def, BitVec.toNat_add]
    split_ifs <;> rfl
  have hsum := add_two_words (count 0).toNat (inlen >>> 61).toNat (count 1).isLt (inlen <<< 3).isLt hcarry
  have hbits : (inlen >>> 61).toNat * 2 ^ 64 + (inlen <<< 3).toNat = 8 * inlen.toNat := by
    have hdiv := Nat.div_add_mod inlen.toNat (2 ^ 61)
    rw [hlow, hhigh]
    linarith
  rw [BitVec.toNat_add, BitVec.toNat_add, Nat.mod_add_mod, BitVec.toNat_add, hsum, hbits, h, Nat.mod_add_mod, Nat.mul_add]

theorem update_count {count : Fin 2 → Word} {b₀ b₁ : Word} :
    let count' := Function.update count 1 (count 1 + b₁)
    let count' := if count' 1 < b₁ then Function.update count' 0 (count' 0 + 1) else count'
    Function.update count' 0 (count' 0 + b₀) =
      ![count 0 + (if count 1 + b₁ < b₁ then (1 : Word) else 0) + b₀, count 1 + b₁] := by
  funext i
  by_cases h : count 1 + b₁ < b₁ <;> fin_cases i <;> simp [h]

theorem Holds.update (h : Holds s m) (tmp64 : Nat → Word) : Holds (crypto_hash_sha512_update s input inlen tmp64) (m ++ bytesFrom input inlen.toNat) := by
  have hfill := h.fill
  have hlt : m.length % 128 < 128 := Nat.mod_lt _ (by decide)
  have hcount := counted_add inlen h.counted
  have hlength : (m ++ bytesFrom input inlen.toNat).length = m.length + inlen.toNat := by rw [List.length_append, bytesFrom_length]
  unfold crypto_hash_sha512_update
  by_cases hzero : inlen ≤ 0
  · have hnil : inlen.toNat = 0 := by bv_omega
    rw [if_pos hzero, hnil]
    simpa [bytesFrom] using h
  rw [if_neg hzero]
  dsimp only
  rw [update_count]
  generalize s.count 1 >>> 3 &&& 0x7f = r at hfill
  by_cases hshort : inlen < 128 - r
  · rw [if_pos hshort]
    refine .of_absorbed (n := r.toNat + inlen.toNat) ?_ (by rw [hlength]; exact hcount)
    rw [copyLoop_bytes, absorb_append, h.absorbed, hfill]
    apply absorb_of_lt
    rw [List.length_append, bytesFrom_length, bytesFrom_length]
    bv_omega
  rw [if_neg hshort]
  obtain ⟨state', tmp64', htransform⟩ : ∃ state' tmp64',
      SHA512_Transform s.state (copyLoop s.buf r.toNat input (128 - r).toNat) tmp64 = (state', tmp64') := ⟨_, _, rfl⟩
  obtain ⟨state'', input', inlen', hloop⟩ : ∃ state'' input' inlen',
      updateLoop state' (fun k => input ((128 - r).toNat + k)) (inlen - (128 - r)) tmp64' = (state'', input', inlen') := ⟨_, _, _, rfl⟩
  obtain ⟨hrest, habsorb⟩ := updateLoop_absorbs hloop
  have hmask : (inlen' &&& 127).toNat = inlen'.toNat := by
    rw [BitVec.toNat_and, show (127 : Word).toNat = 2 ^ 7 - 1 from rfl, Nat.and_two_pow_sub_one_eq_mod]
    exact Nat.mod_eq_of_lt hrest
  have hblock : bytesFrom (copyLoop s.buf r.toNat input (128 - r).toNat) 128 =
      bytesFrom s.buf r.toNat ++ bytesFrom input (128 - r).toNat := by
    rw [← copyLoop_bytes, show r.toNat + (128 - r).toNat = 128 by bv_omega]
  have hsplit : inlen.toNat = (128 - r).toNat + (inlen - (128 - r)).toNat := by bv_omega
  simp only [htransform, hloop, hmask]
  refine .of_absorbed (n := 0 + inlen'.toNat) ?_ (by rw [hlength]; exact hcount)
  rw [copyLoop_bytes, absorb_append, h.absorbed, ← hfill, hsplit, bytesFrom_add, ← List.append_assoc, ← hblock,
    absorb_block (by decide) bytesFrom_length, ← SHA512_Transform_fst (W := tmp64), htransform]
  exact habsorb

/-! ## The last block -/

theorem bytesFrom_PAD : bytesFrom PAD (n + 1) = 0x80 :: List.replicate n 0 := by
  rw [Nat.add_comm, bytesFrom_add]
  have hzero : bytesFrom (fun i => PAD (1 + i)) n = bytesFrom (fun _ => 0) n := bytesFrom_congr fun i _ => if_neg (by omega)
  rw [hzero, bytesFrom, bytesFrom, List.map_const', List.length_range]
  rfl

/-- The end of the last block has the number of bits. -/
theorem encoded_count {count : Fin 2 → Word} {l : Nat} (h : (count 0).toNat * 2 ^ 64 + (count 1).toNat = 8 * l % 2 ^ 128) :
    bytesFrom (be64enc_vect buf 112 (fun i => count (Fin.ofNat 2 i)) 16) 128 = bytesFrom buf 112 ++ bigEndian 16 (8 * l) := by
  have hlt : (count 1).toNat < 256 ^ 8 := (count 1).isLt
  have hcount : 8 * l % 256 ^ 16 = 256 ^ 8 * (count 0).toNat + (count 1).toNat := by
    rw [Nat.mul_comm (256 ^ 8)]
    exact h.symm
  have hlow : bigEndian 8 (8 * l % 256 ^ 16) = bigEndian 8 (count 1).toNat := by
    rw [hcount, ← bigEndian_mod, Nat.mul_add_mod, bigEndian_mod]
  have hhigh : 8 * l % 256 ^ 16 / 256 ^ 8 = (count 0).toNat := by
    rw [hcount, Nat.mul_add_div (by decide), Nat.div_eq_of_lt hlt, Nat.add_zero]
  have hstored := encoded_bytes buf 112 (fun i => count (Fin.ofNat 2 i)) 2
  simp only [List.range_succ, List.range_zero, List.nil_append, List.flatMap_append, List.flatMap_cons, List.flatMap_nil,
    List.append_nil] at hstored
  rw [← bigEndian_mod (v := 8 * l), bigEndian_add 8 8, hlow, hhigh, bytesFrom_add 112 16]
  exact congrArg₂ (· ++ ·) (bytesFrom_congr fun i hi => encoded_of_not (by omega)) hstored

theorem Holds.pad (h : Holds s m) (tmp64 : Nat → Word) : absorb 128 compress initialHash (m ++ padding m.length) = ((SHA512_Pad s tmp64).state, []) := by
  have hfill := h.fill
  have hlt : m.length % 128 < 128 := Nat.mod_lt _ (by decide)
  rw [absorb_append, h.absorbed, padding, ← hfill]
  unfold SHA512_Pad
  dsimp only
  generalize s.count 1 >>> 3 &&& 0x7f = r at hfill
  by_cases hroom : r < 112
  · have hn : (112 - r).toNat = 111 - r.toNat + 1 := by bv_omega
    have hzeros : (239 - r.toNat) % 128 = 111 - r.toNat := by bv_omega
    have hbytes : bytesFrom (copyLoop s.buf r.toNat PAD (112 - r).toNat) 112 =
        bytesFrom s.buf r.toNat ++ 0x80 :: List.replicate (111 - r.toNat) 0 := by
      rw [← bytesFrom_PAD, ← hn, ← copyLoop_bytes, show r.toNat + (112 - r).toNat = 112 by bv_omega]
    rw [if_pos hroom]
    dsimp only
    rw [SHA512_Transform_fst, encoded_count h.counted, hbytes, hzeros, ← List.cons_append, ← List.append_assoc]
    apply absorb_one (by decide)
    rw [List.length_append, ← hbytes, bytesFrom_length, bigEndian_length]
  · have hn : (128 - r).toNat = 127 - r.toNat + 1 := by bv_omega
    have hzeros : (239 - r.toNat) % 128 = 127 - r.toNat + 112 := by bv_omega
    have hbytes : bytesFrom (copyLoop s.buf r.toNat PAD (128 - r).toNat) 128 =
        bytesFrom s.buf r.toNat ++ 0x80 :: List.replicate (127 - r.toNat) 0 := by
      rw [← bytesFrom_PAD, ← hn, ← copyLoop_bytes, show r.toNat + (128 - r).toNat = 128 by bv_omega]
    have hclear (buf : Nat → Byte) : bytesFrom (fun k => if k < 112 then 0 else buf k) 112 = List.replicate 112 0 := by
      rw [bytesFrom_congr (q := fun _ => 0) fun i hi => if_pos hi, bytesFrom, List.map_const', List.length_range]
    rw [if_neg hroom]
    dsimp only
    rw [SHA512_Transform_fst, encoded_count h.counted, hclear, SHA512_Transform_fst, hzeros, ← List.replicate_append_replicate,
      List.append_assoc, ← List.cons_append, ← List.append_assoc, ← hbytes, absorb_block (by decide) bytesFrom_length]
    apply absorb_one (by decide)
    rw [List.length_append, List.length_replicate, bigEndian_length]

theorem Holds.final (h : Holds s m) (out : Nat → Byte) : bytesFrom (crypto_hash_sha512_final s out tmp64) 64 = sha512 m := by
  have hstored := encoded_bytes out 0 (fun i => (SHA512_Pad s tmp64).state (place i)) 8
  simp only [Nat.zero_add] at hstored
  rw [sha512, h.pad tmp64]
  exact hstored

theorem Holds.updates (updates : List Update) (h : Holds s m) :
    Holds (updates.foldl Update.run s) (m ++ updates.flatMap Update.piece) := by
  induction updates generalizing s m with
  | nil => rwa [List.flatMap_nil, List.append_nil]
  | cons u updates ih =>
    rw [List.foldl_cons, List.flatMap_cons, ← List.append_assoc]
    exact ih (h.update _)

/-- The pieces in which a message comes, and what the buffers hold before, make no difference. -/
theorem digest_of_updates (updates : List Update) (buf out : Nat → Byte) (tmp64 : Nat → Word) :
    bytesFrom (crypto_hash_sha512_final (updates.foldl Update.run (crypto_hash_sha512_init buf)) out tmp64) 64 =
      sha512 (updates.flatMap Update.piece) := by
  have hholds := (holds_init buf).updates updates
  rw [List.nil_append] at hholds
  exact hholds.final out

theorem crypto_hash_sha512_bytes (out input buf : Nat → Byte) (inlen : Word) (tmp64 tmp64' : Nat → Word) :
    bytesFrom (crypto_hash_sha512 out input inlen buf tmp64 tmp64') 64 = sha512 (bytesFrom input inlen.toNat) :=
  ((holds_init buf).update tmp64).final out

end Stream

end KernelOfTruth.Sha512
