import KernelOfTruth.Spec.Bitmap
import KernelOfTruth.Strings

/-!
# The bitmap

The assertions about the entry are reversed, so every call for an entry below the count panics. Only a bitmap
without entries does what it is for.
-/

open KernelOfTruth.Lib KernelOfTruth.Code KernelOfTruth.Spec KernelOfTruth.Rules KernelOfTruth.Strings

namespace KernelOfTruth.Bitmap

variable {m : Memory} {bitmap count last entry : Word} {E : Halt → Prop}

/-! ## Fields -/

/-- The bitmap in memory, with the values of its fields. -/
structure Fields (m : Memory) (bitmap count last : Word) : Prop where
  nonnull : bitmap ≠ 0
  mapped : Mapped m bitmap (16 + count.toNat / 8)
  entry_count : wordAt m 8 bitmap = count
  last_free : wordAt m 8 (bitmap + 8) = last

theorem Fields.mapped_word (h : Fields m bitmap count last) {k : Nat} (hk : k + 8 ≤ 16 + count.toNat / 8) :
    Mapped m (bitmap + BitVec.ofNat 64 k) 8 :=
  mapped_part h.mapped hk

theorem wp_load_entry_count {Q : Word → Memory → Prop} (h : Fields m bitmap count last) :
    wp (load_entry_count bitmap) Q E m ↔ Q count m := by
  have hmapped : Mapped m bitmap 8 := fun i hi => h.mapped i (by omega)
  unfold load_entry_count
  rw [wp_load, guarded_of hmapped, h.entry_count]

theorem wp_load_last_free {Q : Word → Memory → Prop} (h : Fields m bitmap count last) :
    wp (load_last_free bitmap) Q E m ↔ Q last m := by
  have hmapped : Mapped m (bitmap + 8) 8 := h.mapped_word (k := 8) (by omega)
  unfold load_last_free
  rw [wp_load, guarded_of hmapped, h.last_free]

/-- What lies `k` bytes behind is not in the first `k` bytes. -/
theorem not_covers_behind {a x : Word} {k n : Nat} (h : Covers a k x) (hfit : k + n ≤ 2 ^ 64) :
    ¬ Covers (a + BitVec.ofNat 64 k) n x := by
  unfold Covers at h ⊢
  bv_omega

/-- Only the words of the map are different. -/
theorem Fields.of_map {m' : Memory} {n : Nat} (h : Fields m bitmap count last) (hn : 16 + n ≤ 2 ^ 64)
    (hmapped : Mapped m' bitmap (16 + count.toNat / 8)) (hsame : ∀ x, ¬ Covers (bitmap + 16) n x → m' x = m x) :
    Fields m' bitmap count last := by
  have hfields : ∀ x, Covers bitmap 16 x → m' x = m x := fun x hx => hsame x (not_covers_behind (k := 16) hx hn)
  refine ⟨h.nonnull, hmapped, ?_, ?_⟩
  · have hsame8 : wordAt m' 8 bitmap = wordAt m 8 bitmap :=
      wordAt_congr (by decide) fun x hx => hfields x (covers_mono hx (by decide))
    rw [hsame8, h.entry_count]
  · have hsame16 : wordAt m' 8 (bitmap + 8) = wordAt m 8 (bitmap + 8) :=
      wordAt_congr (by decide) fun x hx => hfields x (covers_part (k := 8) le_rfl (by decide) hx)
    rw [hsame16, h.last_free]

/-! ## Initialisation -/

def initialised (m : Memory) (bitmap count : Word) : Memory :=
  filled (stored (stored m 8 bitmap count) 8 (bitmap + 8) 0) (bitmap + 16) (count.toNat / 8) 0

theorem BitmapMemory.mapped_all (h : BitmapMemory m bitmap count) : Mapped m bitmap (16 + count.toNat / 8) := by
  have hcount := count.isLt
  intro i hi
  exact (h.mapped _).mpr ((covers_iff (by omega)).mpr ⟨i, hi, rfl⟩)

theorem static_init_run (h : BitmapMemory m bitmap count) :
    (bitmap_static_init bitmap count).run m = .ok ((), initialised m bitmap count) := by
  have hall := BitmapMemory.mapped_all h
  have hcount : Mapped m bitmap 8 := fun i hi => hall i (by omega)
  have hlast : Mapped m (bitmap + 8) 8 := mapped_part (k := 8) hall (by omega)
  have hmap : Mapped m (bitmap + 16) (count.toNat / 8) := mapped_part (k := 16) hall (by omega)
  have hbytes : (bitmap_entry_count_to_bytes count).toNat = count.toNat / 8 := by
    simp [bitmap_entry_count_to_bytes]
  have hlt := count.isLt
  rw [run_eq_ok_iff]
  unfold bitmap_static_init
  rw [wp_bind, wp_assert_decide h.nonnull, wp_bind, wp_store (by decide), guarded_of hcount, wp_bind,
    wp_store (by decide), guarded_of (mapped_stored hlast), hbytes, wp_memset (by omega),
    guarded_of (mapped_stored (mapped_stored hmap))]
  exact ⟨rfl, rfl⟩

theorem fields_initialised (h : BitmapMemory m bitmap count) : Fields (initialised m bitmap count) bitmap count 0 := by
  have hlt := count.isLt
  have hall := BitmapMemory.mapped_all h
  have hfields : Fields (stored (stored m 8 bitmap count) 8 (bitmap + 8) 0) bitmap count 0 := by
    refine ⟨h.nonnull, mapped_stored (mapped_stored hall), ?_, wordAt_stored ..⟩
    have hsame : wordAt (stored (stored m 8 bitmap count) 8 (bitmap + 8) 0) 8 bitmap =
        wordAt (stored m 8 bitmap count) 8 bitmap :=
      wordAt_congr (by decide) fun x hx => stored_of_not_covers (not_covers_behind (k := 8) hx (by decide))
    rw [hsame, wordAt_stored]
  exact hfields.of_map (n := count.toNat / 8) (by omega) (mapped_filled hfields.mapped)
    fun x hx => filled_of_not_covers hx

/-! ## Reversed assertions -/

/-- The first lines of the functions that take an entry. -/
theorem check_panics {α : Type} {func : String} {rest : Kernel Memory α} (h : Fields m bitmap count last)
    (hle : entry ≤ count) : (do
      assert func (bitmap ≠ 0)
      assert func ((← load_entry_count bitmap) < entry)
      rest).run m = .error (.panic func) := by
  rw [run_eq_error_iff, wp_bind, wp_assert_decide h.nonnull, wp_bind, wp_load_entry_count h, wp_bind,
    wp_assert_false (decide_eq_false (BitVec.not_lt.mpr hle))]

theorem is_set_panics (h : Fields m bitmap count last) (hle : entry ≤ count) :
    (bitmap_is_set bitmap entry).run m = .error (.panic "bitmap_is_set") :=
  check_panics h hle

theorem changes_refused {length : Word} (h : Fields m bitmap count last) (hle : entry ≤ count) :
    (bitmap_set bitmap entry).run m = .error (.panic "bitmap_set") ∧
    (bitmap_clear bitmap entry).run m = .error (.panic "bitmap_clear") ∧
    (bitmap_set_range bitmap entry length).run m = .error (.panic "bitmap_set_range") :=
  ⟨check_panics h hle, check_panics h hle, check_panics h hle⟩

/-! ## Entries that are handed out -/

theorem log2Loop_eq {rounds i : Nat} {item : Word} (h : item.toNat < 2 ^ rounds) :
    log2Loop rounds item i = i + item.toNat.log2 := by
  induction rounds generalizing item i with
  | zero =>
    have hzero : item.toNat = 0 := by omega
    simp [log2Loop, hzero]
  | succ rounds ih =>
    have hhalf : (item >>> 1).toNat = item.toNat / 2 := by
      rw [BitVec.toNat_ushiftRight, Nat.shiftRight_eq_div_pow]
    have hshift : item >>> 1 = 0 ↔ item.toNat < 2 := by
      rw [← BitVec.toNat_inj, hhalf]
      exact Nat.div_eq_zero_iff_lt (by decide)
    unfold log2Loop
    rw [Nat.log2_def]
    by_cases hsmall : item.toNat < 2
    · rw [if_pos (hshift.mpr hsmall), if_neg (by omega)]
      rfl
    · rw [if_neg fun hzero => hsmall (hshift.mp hzero), if_pos (by omega), ih (by omega), hhalf]
      omega

/-- The number of the highest bit that is set. -/
theorem log2_eq (item : Word) : log2 item = item.toNat.log2 := by
  unfold log2
  rw [log2Loop_eq item.isLt, Nat.zero_add]

/-- The bit that `bitmap_get_index` sets in a word is not a free one. -/
theorem hands_out_taken {word : Word} (hne : word ≠ 0) (hlow : log2 word < 31) : word ||| intBit (log2 word) = word := by
  have hbits : ∀ k < 31, intBit k = 1#64 <<< k := by decide
  have htaken : word.getLsbD (log2 word) = true := by
    rw [log2_eq]
    exact Nat.testBit_log2 fun hzero => hne (BitVec.eq_of_toNat_eq hzero)
  rw [hbits _ hlow]
  ext k hk
  rw [BitVec.getElem_or, BitVec.getElem_shiftLeft]
  by_cases heq : k = log2 word
  · subst heq
    rw [BitVec.getLsbD_eq_getElem hk] at htaken
    rw [htaken, Bool.true_or]
  · have hother : k < log2 word ∨ k - log2 word ≠ 0 := by omega
    rcases hother with hbelow | habove
    · simp [hbelow]
    · simp [BitVec.getElem_one, habove]

theorem get_index_empty (h : Fields m bitmap 0 0) :
    (bitmap_get_index bitmap).run m = .ok ((.Error_Full, none), m) := by
  rw [run_eq_ok_iff]
  unfold bitmap_get_index
  rw [wp_bind, wp_assert_decide h.nonnull, wp_bind, wp_load_last_free h, wp_bind, wp_load_entry_count h]
  simp [bitmap_index, searchLoop]

/-- The first word of the map holds no entry but number 0. -/
structure OnlyFirst (m : Memory) (bitmap count : Word) : Prop where
  fields : Fields m bitmap count 0
  word : wordAt m 8 (bitmap + 16) = 0 ∨ wordAt m 8 (bitmap + 16) = 1

theorem wp_searchLoop_first {n : Nat} {Q : Option Word → Memory → Prop} (h : OnlyFirst m bitmap count)
    (hcount : 64 ≤ count.toNat) : wp (searchLoop bitmap (n + 1) 0) Q E m ↔ Q (some 0) (stored m 8 (bitmap + 16) 1) := by
  have haddress : mapAddress bitmap 0 = bitmap + 16 := by simp [mapAddress]
  have hmapped : Mapped m (bitmap + 16) 8 := h.fields.mapped_word (k := 16) (by omega)
  unfold searchLoop
  rw [haddress, wp_bind, wp_load, guarded_of hmapped]
  have hlast : log2 0 = 0 ∧ log2 1 = 0 := by decide
  rcases h.word with hword | hword <;> rw [hword]
  · rw [if_pos (by decide)]
    simp only [wp_bind, wp_pure]
    rw [wp_store (by decide), guarded_of hmapped, hlast.1]
    rfl
  · rw [if_pos (by decide)]
    simp only [wp_bind, wp_pure]
    rw [wp_store (by decide), guarded_of hmapped, hlast.2]
    rfl

theorem onlyFirst_initialised (h : BitmapMemory m bitmap count) (hcount : 64 ≤ count.toNat) :
    OnlyFirst (initialised m bitmap count) bitmap count := by
  refine ⟨fields_initialised h, .inl (wordAt_zero (by decide) fun x hx => ?_)⟩
  have hin : Covers (bitmap + 16) (count.toNat / 8) x := covers_mono hx (by omega)
  exact if_pos hin

theorem get_index_first (h : OnlyFirst m bitmap count) (hcount : 64 ≤ count.toNat) :
    ∃ m', (bitmap_get_index bitmap).run m = .ok ((.Ok, some 0), m') ∧ OnlyFirst m' bitmap count := by
  have hlt := count.isLt
  refine ⟨stored m 8 (bitmap + 16) 1, ?_, ?_, .inr (wordAt_stored ..)⟩
  · rw [run_eq_ok_iff]
    unfold bitmap_get_index
    rw [wp_bind, wp_assert_decide h.fields.nonnull, wp_bind, wp_load_last_free h.fields, wp_bind,
      wp_load_entry_count h.fields]
    obtain ⟨n, hn⟩ : ∃ n, (bitmap_index count).toNat - (bitmap_index 0).toNat = n + 1 :=
      ⟨count.toNat / 8 - 1, by simp [bitmap_index]; omega⟩
    dsimp only
    rw [hn, wp_bind]
    exact (wp_searchLoop_first h hcount).mpr ((wp_pure ..).mpr ⟨rfl, rfl⟩)
  · exact h.fields.of_map (n := 8) (by decide) (mapped_stored h.fields.mapped) fun x hx => stored_of_not_covers hx

/-- So many calls of `bitmap_get_index`, one after the other. -/
def getIndices (bitmap : Word) : Nat → Kernel Memory (List (Status × Option Word))
  | 0 => pure []
  | n + 1 => do
    let index ← bitmap_get_index bitmap
    let indices ← getIndices bitmap n
    pure (index :: indices)

theorem getIndices_first (h : OnlyFirst m bitmap count) (hcount : 64 ≤ count.toNat) (n : Nat) :
    ∃ m', (getIndices bitmap n).run m = .ok (List.replicate n (.Ok, some 0), m') := by
  induction n generalizing m with
  | zero => exact ⟨m, rfl⟩
  | succ n ih =>
    obtain ⟨m₁, hfirst, h₁⟩ := get_index_first h hcount
    obtain ⟨m₂, hrest⟩ := ih h₁
    refine ⟨m₂, ?_⟩
    rw [run_eq_ok_iff]
    unfold getIndices
    rw [wp_bind, wp_of_run hfirst, wp_bind, wp_of_run hrest, wp_pure]
    exact ⟨rfl, rfl⟩

/-- A new bitmap hands out entry 0 at every call. -/
theorem hands_out_zero (h : BitmapMemory m bitmap count) (hcount : 64 ≤ count.toNat) (n : Nat) :
    ∃ m', (do bitmap_static_init bitmap count; getIndices bitmap n).run m =
      .ok (List.replicate n (.Ok, some 0), m') := by
  obtain ⟨m', hrun⟩ := getIndices_first (onlyFirst_initialised h hcount) hcount n
  refine ⟨m', ?_⟩
  rw [run_eq_ok_iff, wp_bind, wp_of_run (static_init_run h), wp_of_run hrun]
  exact ⟨rfl, rfl⟩

/-! ## The set -/

theorem distinctBits (count : Word) : DistinctBits count := by
  intro a _ b _ hindex hbit
  have hbits : ∀ i < 8, ∀ j < 8, (1#64 <<< i = 1#64 <<< j) → i = j := by decide
  have hlow : ∀ x : Word, (x % 8).toNat < 8 := fun x => by
    rw [BitVec.toNat_umod]
    exact Nat.mod_lt _ (by decide)
  have hmod : a.toNat % 8 = b.toNat % 8 := by simpa using hbits _ (hlow a) _ (hlow b) hbit
  have hdiv : a.toNat / 8 = b.toNat / 8 := by simpa [bitmap_index] using congrArg BitVec.toNat hindex
  exact BitVec.eq_of_toNat_eq (by omega)

variable {calls : List BitmapCall} {members : Set Word}

theorem ServesSet.tells (h : ServesSet bitmap count calls m members) : TellsMembers bitmap count m members := by
  cases calls with
  | nil => exact h
  | cons call calls => cases call <;> exact h.1

/-- Without entries there is nothing to ask for, and `bitmap_get_index` finds nothing. -/
theorem servesSet_empty (h : Fields m bitmap 0 0) (hcalls : ∀ call ∈ calls, call.Below 0) :
    ServesSet bitmap 0 calls m members := by
  have hnone : ∀ {entry : Word}, ¬ entry < 0 := fun {entry} => by bv_omega
  have htells : TellsMembers bitmap 0 m members := fun entry hentry => absurd hentry hnone
  induction calls with
  | nil => exact htells
  | cons call calls ih =>
    have hcall := hcalls call (by simp)
    have hrest := ih fun c hc => hcalls c (by simp [hc])
    cases call with
    | set entry => exact absurd hcall hnone
    | clear entry => exact absurd hcall hnone
    | set_range start length => exact absurd hcall.1 hnone
    | get_index => exact ⟨htells, .inr ⟨m, get_index_empty h, fun entry hentry => absurd hentry hnone, hrest⟩⟩

theorem not_servesSet (h : Fields m bitmap count last) (hne : count ≠ 0) : ¬ ServesSet bitmap count calls m members := by
  intro hserves
  have hpos : (0 : Word) < count := by bv_omega
  obtain ⟨found, hrun, -⟩ := ServesSet.tells hserves 0 hpos
  rw [is_set_panics h (BitVec.le_of_lt hpos)] at hrun
  cases hrun

/-- The bitmap refines a set if and only if it has no entries. -/
theorem refines_set_iff (h : BitmapMemory m bitmap count) (hcalls : ∀ call ∈ calls, call.Below count) :
    RefinesSet bitmap count calls m ↔ count = 0 := by
  have hfields := fields_initialised h
  constructor
  · rintro ⟨-, m', hrun, hserves⟩
    cases (static_init_run h).symm.trans hrun
    by_contra hne
    exact not_servesSet hfields hne hserves
  · rintro rfl
    exact ⟨distinctBits 0, _, static_init_run h, servesSet_empty hfields hcalls⟩

theorem bitmapMemory_image {image : List Byte} (hnonnull : bitmap ≠ 0) (hlength : image.length = 16 + count.toNat / 8)
    (hfits : bitmap.toNat + image.length ≤ 2 ^ 64) : BitmapMemory (imageAt bitmap image) bitmap count := by
  refine ⟨hnonnull, hlength ▸ hfits, fun x => ?_⟩
  unfold imageAt Covers
  rw [isSome_getElem?, hlength]

/-- A bitmap without entries, and two calls that find nothing. -/
theorem no_entries_refines :
    RefinesSet 0x1000 0 [.get_index, .get_index] (imageAt 0x1000 (List.replicate 16 0xff)) := by
  refine (refines_set_iff (bitmapMemory_image (by decide) (by decide) (by decide)) fun call hcall => ?_).mpr rfl
  simp only [List.mem_cons, List.not_mem_nil, or_false, or_self] at hcall
  subst hcall
  trivial

/-- With 64 entries, entry 3 is refused and entry 0 is handed out twice. -/
theorem entry_refused :
    ((do bitmap_static_init 0x1000 64; bitmap_set 0x1000 3).run (imageAt 0x1000 (List.replicate 24 0xff))).map Prod.fst =
      .error (.panic "bitmap_set") ∧
    ((do bitmap_static_init 0x1000 64; pure (← bitmap_get_index 0x1000, ← bitmap_get_index 0x1000)).run
      (imageAt 0x1000 (List.replicate 24 0xff))).map Prod.fst = .ok ((.Ok, some 0), (.Ok, some 0)) ∧
    ¬ RefinesSet 0x1000 64 [.set 3] (imageAt 0x1000 (List.replicate 24 0xff)) := by
  have hmemory : BitmapMemory (imageAt 0x1000 (List.replicate 24 0xff)) 0x1000 64 :=
    bitmapMemory_image (by decide) (by decide) (by decide)
  refine ⟨by decide +kernel, by decide +kernel, ?_⟩
  rintro ⟨-, m', hrun, hserves⟩
  cases (static_init_run hmemory).symm.trans hrun
  exact not_servesSet (fields_initialised hmemory) (by decide) hserves

end KernelOfTruth.Bitmap
