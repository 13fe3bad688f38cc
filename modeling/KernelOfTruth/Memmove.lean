import KernelOfTruth.Strings

/-!
# `memmove`

Both loops move one part of the bytes after the other, from the front or from the back. The byte that comes
next is still in its old place, because the part that has been moved does not reach it.
-/

open KernelOfTruth.Lib KernelOfTruth.Code KernelOfTruth.Spec KernelOfTruth.Strings

namespace KernelOfTruth.Memmove

variable {m : Memory} {destination source : Word} {low high : Nat} {E : Halt → Prop} {Q : Unit → Memory → Prop}

/-! ## A part that has been moved -/

theorem moved_none {i : Nat} : moved m destination source i i = m := by
  funext x
  exact if_neg (by omega)

theorem moved_outside {x : Word} (h : (x - destination).toNat < low ∨ high ≤ (x - destination).toNat) :
    moved m destination source low high x = m x :=
  if_neg (by omega)

theorem isSome_moved {x : Word} (h : ∀ i < high, (m (source + BitVec.ofNat 64 i)).isSome) (hx : (m x).isSome) :
    (moved m destination source low high x).isSome := by
  unfold moved
  split
  · rename_i hin
    have hbyte := h _ hin.2
    rwa [BitVec.ofNat_toNat, BitVec.setWidth_eq] at hbyte
  · exact hx

/-- Byte number `i` is moved as well. -/
theorem update_moved {i low' high' : Nat} (hi : i < 2 ^ 64)
    (h : ∀ k, low' ≤ k ∧ k < high' ↔ (low ≤ k ∧ k < high) ∨ k = i) :
    Function.update (moved m destination source low high) (destination + BitVec.ofNat 64 i)
      (m (source + BitVec.ofNat 64 i)) = moved m destination source low' high' := by
  have hplaces : ∀ x : Word, (low' ≤ (x - destination).toNat ∧ (x - destination).toNat < high') ↔
      (low ≤ (x - destination).toNat ∧ (x - destination).toNat < high) ∨ x = destination + BitVec.ofNat 64 i := by
    intro x
    rw [h]
    have : (x - destination).toNat = i ↔ x = destination + BitVec.ofNat 64 i := by bv_omega
    rw [this]
  have hupdate := update_ite (f := fun x : Word => m (source + (x - destination))) (g := m) hplaces
  rw [offset_sub] at hupdate
  exact hupdate

/-- One round of either loop, when byte number `i` of the source is still in its place. -/
theorem wp_moveByte (i low' high' : Nat) {rest : Kernel Memory Unit} (hi : i < 2 ^ 64)
    (hmapped : ∀ k < high, (m (source + BitVec.ofNat 64 k)).isSome)
    (hfrom : (m (source + BitVec.ofNat 64 i)).isSome) (hto : (m (destination + BitVec.ofNat 64 i)).isSome)
    (hplace : (source + BitVec.ofNat 64 i - destination).toNat < low ∨
      high ≤ (source + BitVec.ofNat 64 i - destination).toNat)
    (h : ∀ k, low' ≤ k ∧ k < high' ↔ (low ≤ k ∧ k < high) ∨ k = i) :
    wp (do Memory.storeByte (destination + BitVec.ofNat 64 i) (← Memory.loadByte (source + BitVec.ofNat 64 i)); rest)
      Q E (moved m destination source low high) ↔ wp rest Q E (moved m destination source low' high') := by
  have hold : moved m destination source low high (source + BitVec.ofNat 64 i) = m (source + BitVec.ofNat 64 i) :=
    moved_outside hplace
  have hbyte : some (byteAt (moved m destination source low high) (source + BitVec.ofNat 64 i)) =
      m (source + BitVec.ofNat 64 i) := by
    obtain ⟨b, hb⟩ := Option.isSome_iff_exists.mp hfrom
    rw [byteAt, hold, hb]
    rfl
  rw [wp_bind, wp_loadByte, hold, guarded_of hfrom, wp_bind, wp_storeByte, guarded_of (isSome_moved hmapped hto), hbyte,
    update_moved hi h]

/-! ## The two loops -/

variable {size : Nat}

theorem wp_memmoveForward {n i : Nat} (hd : Mapped m destination size) (hs : Mapped m source size)
    (hswrap : source.toNat + size ≤ 2 ^ 64) (hlt : destination < source) (hsize : i + n = size) :
    wp (Memory.memmoveForward destination source n i) Q E (moved m destination source 0 i) ↔
      Q () (moved m destination source 0 size) := by
  induction n generalizing i with
  | zero =>
    obtain rfl : i = size := hsize
    exact wp_pure ..
  | succ n ih =>
    unfold Memory.memmoveForward
    -- The source lies above the destination, so its next byte is behind the part that has been moved.
    have hplace : i ≤ (source + BitVec.ofNat 64 i - destination).toNat := by bv_omega
    rw [wp_moveByte i 0 (i + 1) (by omega) (fun k hk => hs k (by omega)) (hs i (by omega)) (hd i (by omega))
      (.inr hplace) (by omega)]
    exact ih (by omega)

theorem wp_memmoveBackward {i : Nat} (hd : Mapped m destination size) (hs : Mapped m source size)
    (hdwrap : destination.toNat + size ≤ 2 ^ 64) (hle : source ≤ destination) (hsize : i ≤ size) :
    wp (Memory.memmoveBackward destination source i) Q E (moved m destination source i size) ↔
      Q () (moved m destination source 0 size) := by
  induction i with
  | zero => exact wp_pure ..
  | succ i ih =>
    unfold Memory.memmoveBackward
    -- It lies below the destination, or so far off that the distance wraps.
    have hplace : (source + BitVec.ofNat 64 i - destination).toNat < i + 1 ∨
        size ≤ (source + BitVec.ofNat 64 i - destination).toNat := by bv_omega
    rw [wp_moveByte i i size (by omega) hs (hs i (by omega)) (hd i (by omega)) hplace (by omega)]
    exact ih (by omega)

theorem wp_memmove {size : Word} {Q : Word → Memory → Prop} (hd : Mapped m destination size.toNat)
    (hs : Mapped m source size.toNat) (hdwrap : destination.toNat + size.toNat ≤ 2 ^ 64)
    (hswrap : source.toNat + size.toNat ≤ 2 ^ 64) :
    wp (Memory.memmove destination source size) Q E m ↔ Q destination (moved m destination source 0 size.toNat) := by
  unfold Memory.memmove
  dsimp only
  rw [wp_ite]
  split
  · rename_i hlt
    have hloop := wp_memmoveForward (E := E) (Q := fun _ m' => Q destination m') (i := 0) hd hs hswrap hlt (Nat.zero_add _)
    rw [moved_none] at hloop
    simpa using hloop
  · rename_i hle
    have hloop := wp_memmoveBackward (E := E) (Q := fun _ m' => Q destination m') hd hs hdwrap
      (BitVec.not_lt.mp hle) le_rfl
    rw [moved_none] at hloop
    simpa using hloop

/-! ## The whole call -/

/-- The destination gets what the source held before the call, however the two overlap. -/
theorem memmove_correct {size : Word} (hd : Mapped m destination size.toNat) (hs : Mapped m source size.toNat)
    (hdwrap : destination.toNat + size.toNat ≤ 2 ^ 64) (hswrap : source.toNat + size.toNat ≤ 2 ^ 64) :
    ∃ m', (Memory.memmove destination source size).run m = .ok (destination, m') ∧
      (∀ i < size.toNat, m' (destination + BitVec.ofNat 64 i) = m (source + BitVec.ofNat 64 i)) ∧
      ∀ x, ¬ Covers destination size.toNat x → m' x = m x := by
  refine ⟨moved m destination source 0 size.toNat, ?_, fun i hi => ?_, fun x hx => ?_⟩
  · rw [run_eq_ok_iff, wp_memmove hd hs hdwrap hswrap]
    exact ⟨rfl, rfl⟩
  · unfold moved
    rw [offset_toNat (by omega), offset_sub, if_pos ⟨Nat.zero_le i, hi⟩]
  · exact moved_outside (.inr (Nat.le_of_not_lt hx))

theorem bytesAt_moved {m' : Memory} {n : Nat}
    (h : ∀ i < n, m' (destination + BitVec.ofNat 64 i) = m (source + BitVec.ofNat 64 i)) :
    bytesAt m' n destination = bytesAt m n source := by
  refine List.map_congr_left fun i hi => ?_
  unfold charAt byteAt
  rw [h i (List.mem_range.mp hi)]

/-- Three of five bytes are moved up by two, or down by two. -/
theorem memmove_correct_overlap :
    (∃ m', (Memory.memmove 0x1002 0x1000 3).run (imageAt 0x1000 [1, 2, 3, 4, 5]) = .ok (0x1002, m') ∧
      bytesAt m' 3 0x1002 = [1, 2, 3] ∧ m' 0x1001 = some 2) ∧
    ∃ m', (Memory.memmove 0x1000 0x1002 3).run (imageAt 0x1000 [1, 2, 3, 4, 5]) = .ok (0x1000, m') ∧
      bytesAt m' 3 0x1000 = [3, 4, 5] ∧ m' 0x1003 = some 4 := by
  have hlow : Mapped (imageAt 0x1000 [1, 2, 3, 4, 5]) 0x1000 (3 : Word).toNat := by unfold Mapped; decide
  have hhigh : Mapped (imageAt 0x1000 [1, 2, 3, 4, 5]) 0x1002 (3 : Word).toNat := by unfold Mapped; decide
  constructor
  · obtain ⟨m', hrun, hbytes, hrest⟩ := memmove_correct hhigh hlow (by decide) (by decide)
    exact ⟨m', hrun, (bytesAt_moved hbytes).trans (by decide), (hrest 0x1001 (by unfold Covers; decide)).trans (by decide)⟩
  · obtain ⟨m', hrun, hbytes, hrest⟩ := memmove_correct hlow hhigh (by decide) (by decide)
    exact ⟨m', hrun, (bytesAt_moved hbytes).trans (by decide), (hrest 0x1003 (by unfold Covers; decide)).trans (by decide)⟩

end KernelOfTruth.Memmove
