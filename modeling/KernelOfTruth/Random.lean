import KernelOfTruth.Spec.Random
import KernelOfTruth.Strings

/-!
# Random bytes

Whole words are stored as they are. The bytes of the last, partial word are shifted by bits where bytes are meant.
-/

open KernelOfTruth.Lib KernelOfTruth.Code KernelOfTruth.Spec KernelOfTruth.Strings

namespace KernelOfTruth.Random

variable {m : Memory} {s : RandomState} {buf size : Word} {f : Nat → Byte} {E : Halt → Prop}

/-! ## A buffer that is written from its start on -/

/-- The first `n` bytes of the buffer have been written. -/
def written (m : Memory) (buf : Word) (f : Nat → Byte) (n : Nat) : Memory := fun x =>
  if (x - buf).toNat < n then some (f (x - buf).toNat) else m x

theorem written_zero : written m buf f 0 = m := by
  funext x
  exact if_neg (Nat.not_lt_zero _)

theorem isSome_written {x : Word} {n : Nat} (h : (m x).isSome) : (written m buf f n x).isSome := by
  unfold written
  split
  · rfl
  · exact h

theorem written_at {i n : Nat} (hi : i < n) (hn : n ≤ 2 ^ 64) : written m buf f n (buf + BitVec.ofNat 64 i) = some (f i) := by
  unfold written
  rw [offset_toNat (by omega), if_pos hi]

theorem written_word {n : Nat} {v : Word} (hn : n + 8 ≤ 2 ^ 64) (hv : ∀ j < 8, f (n + j) = (v >>> (8 * j)).setWidth 8) :
    stored (written m buf f n) 8 (buf + BitVec.ofNat 64 n) v = written m buf f (n + 8) := by
  funext x
  unfold stored written
  by_cases hlt : (x - buf).toNat < n
  · have hfar : ¬ (x - (buf + BitVec.ofNat 64 n)).toNat < 8 := by bv_omega
    rw [if_neg hfar, if_pos hlt, if_pos (by omega)]
  · have hoffset : (x - (buf + BitVec.ofNat 64 n)).toNat = (x - buf).toNat - n := by bv_omega
    rw [hoffset, if_neg hlt]
    by_cases hin : (x - buf).toNat < n + 8
    · have hbyte := hv ((x - buf).toNat - n) (by omega)
      rw [if_pos (by omega), if_pos hin, ← hbyte, show n + ((x - buf).toNat - n) = (x - buf).toNat by omega]
    · rw [if_neg (by omega), if_neg hin]

theorem written_byte {n : Nat} (hn : n < 2 ^ 64) :
    Function.update (written m buf f n) (buf + BitVec.ofNat 64 n) (some (f n)) = written m buf f (n + 1) := by
  have hplaces : ∀ x, (x - buf).toNat < n + 1 ↔ (x - buf).toNat < n ∨ x = buf + BitVec.ofNat 64 n := by
    intro x
    bv_omega
  have hupdate := update_ite (f := fun x : Word => some (f (x - buf).toNat)) (g := m) hplaces
  rw [offset_toNat hn] at hupdate
  exact hupdate

/-! ## The two loops -/

section Rules

variable {α : Type} {numbers : Nat → Word} {taken : Nat}

theorem wp_random_number {Q : Word → RandomState → Prop} :
    wp random_number Q E ⟨m, numbers, taken⟩ ↔ Q (numbers taken) ⟨m, numbers, taken + 1⟩ := by
  unfold random_number
  rw [wp_bind, wp_get, wp_bind, wp_set, wp_pure]

theorem wp_onBuffer {p : Kernel Memory α} {Q : α → RandomState → Prop} :
    wp (onBuffer p) Q E ⟨m, numbers, taken⟩ ↔ wp p (fun a m' => Q a ⟨m', numbers, taken⟩) E m := wp_zoom ..

theorem low_byte (v : Word) : (v &&& 0xff).setWidth 8 = v.setWidth 8 := by
  apply BitVec.eq_of_toNat_eq
  rw [BitVec.toNat_setWidth, BitVec.toNat_and, BitVec.toNat_setWidth, show (0xff : Word).toNat = 2 ^ 8 - 1 from rfl,
    Nat.and_two_pow_sub_one_eq_mod, Nat.mod_mod]

end Rules

/-- So many numbers have been taken, and so many bytes of the buffer written. -/
def progress (s : RandomState) (buf : Word) (f : Nat → Byte) (numbers bytes : Nat) : RandomState :=
  ⟨written s.memory buf f bytes, s.numbers, s.taken + numbers⟩

theorem progress_memory {taken n : Nat} : (progress s buf f taken n).memory = written s.memory buf f n := rfl

theorem wp_wordsLoop {n i : Nat} {Q : Unit → RandomState → Prop} (hmapped : Mapped s.memory buf (8 * (i + n)))
    (hn : 8 * (i + n) ≤ 2 ^ 64) (hf : ∀ k < 8 * (i + n), f k = randomByte s k) :
    wp (wordsLoop buf n i) Q E (progress s buf f i (8 * i)) ↔ Q () (progress s buf f (i + n) (8 * (i + n))) := by
  induction n generalizing i with
  | zero => exact wp_pure ..
  | succ n ih =>
    have hslot : buf + 8 * BitVec.ofNat 64 i = buf + BitVec.ofNat 64 (8 * i) := by
      rw [BitVec.ofNat_mul]
      rfl
    have hword : Mapped (written s.memory buf f (8 * i)) (buf + BitVec.ofNat 64 (8 * i)) 8 :=
      fun j hj => isSome_written (mapped_part hmapped (by omega) j hj)
    have hbytes : ∀ j < 8, f (8 * i + j) = (s.numbers (s.taken + i) >>> (8 * j)).setWidth 8 := fun j hj => by
      rw [hf _ (by omega), randomByte, show (8 * i + j) / 8 = i by omega, show (8 * i + j) % 8 = j by omega]
    have hshift : i + 1 + n = i + (n + 1) := by omega
    unfold wordsLoop progress
    rw [wp_bind, wp_random_number, wp_bind, wp_onBuffer, wp_store (by decide), hslot, guarded_of hword,
      written_word (by omega) hbytes]
    have hrest := ih (i := i + 1) (by rwa [hshift]) (by omega) (by rwa [hshift])
    rw [hshift] at hrest
    exact hrest

theorem wp_leftOverLoop {n i k : Nat} {v : Word} {Q : Unit → RandomState → Prop} (hmapped : Mapped s.memory buf (8 * k + i + n))
    (hn : 8 * k + i + n ≤ 2 ^ 64) (hf : ∀ j < i + n, f (8 * k + j) = (v >>> j).setWidth 8) {t : Nat} :
    wp (leftOverLoop (buf + BitVec.ofNat 64 (8 * k)) v n i) Q E (progress s buf f t (8 * k + i)) ↔
      Q () (progress s buf f t (8 * k + i + n)) := by
  induction n generalizing i with
  | zero => exact wp_pure ..
  | succ n ih =>
    have hplace : buf + BitVec.ofNat 64 (8 * k) + BitVec.ofNat 64 i = buf + BitVec.ofNat 64 (8 * k + i) := by
      rw [BitVec.add_assoc, ← BitVec.ofNat_add]
    have hsome : (written s.memory buf f (8 * k + i) (buf + BitVec.ofNat 64 (8 * k + i))).isSome :=
      isSome_written (hmapped _ (by omega))
    have hbyte : (v >>> (i * 1) &&& 0xff).setWidth 8 = f (8 * k + i) := by
      rw [hf i (by omega), Nat.mul_one, low_byte]
    have hshift : 8 * k + (i + 1) + n = 8 * k + i + (n + 1) := by omega
    unfold leftOverLoop progress
    rw [wp_bind, wp_onBuffer, wp_storeByte, hplace, guarded_of hsome, hbyte, written_byte (by omega)]
    have hrest := ih (i := i + 1) (by rwa [hshift]) (by omega) fun j hj => hf j (by omega)
    rw [hshift] at hrest
    exact hrest

/-! ## `random_bytes` -/

/-- What the code writes to byte number `i` of a buffer. -/
def codeByte (s : RandomState) (size i : Nat) : Byte :=
  if i < 8 * (size / 8) then randomByte s i else (s.numbers (s.taken + size / 8) >>> (i % 8)).setWidth 8

theorem wp_random_bytes {Q : Unit → RandomState → Prop} (hmapped : Mapped s.memory buf size.toNat) :
    wp (random_bytes buf size) Q E s ↔
      Q () (progress s buf (codeByte s size.toNat) ((size.toNat + 7) / 8) size.toNat) := by
  have hsize : size.toNat < 2 ^ 64 := size.isLt
  have hwords : (size / 8).toNat = size.toNat / 8 := BitVec.toNat_udiv
  have hleft : (size % 8).toNat = size.toNat % 8 := BitVec.toNat_umod
  have hstart : s = progress s buf (codeByte s size.toNat) 0 (8 * 0) := by
    rw [progress, written_zero]
    rfl
  have hloop := wp_wordsLoop (n := size.toNat / 8) (i := 0) (f := codeByte s size.toNat) (E := E)
    (Q := fun _ s' => wp (if size % 8 ≠ 0 then do
      let left_over ← random_number
      leftOverLoop (buf + (size - size % 8)) left_over (size % 8).toNat 0
    else pure ()) Q E s') (fun i hi => hmapped i (by omega)) (by omega) fun k hk => if_pos (by omega)
  unfold random_bytes
  rw [wp_bind, hwords]
  nth_rewrite 1 [hstart]
  rw [hloop, Nat.zero_add, wp_ite]
  by_cases hzero : size % 8 = 0
  · have hdiv : size.toNat % 8 = 0 := by rw [← hleft, hzero]; rfl
    rw [if_neg (not_not.mpr hzero), wp_pure, show (size.toNat + 7) / 8 = size.toNat / 8 by omega,
      show 8 * (size.toNat / 8) = size.toNat by omega]
  · have hne : size.toNat % 8 ≠ 0 := fun h => hzero (BitVec.eq_of_toNat_eq (hleft.trans h))
    have htail : buf + (size - size % 8) = buf + BitVec.ofNat 64 (8 * (size.toNat / 8)) := by
      congr 1
      apply BitVec.eq_of_toNat_eq
      rw [BitVec.toNat_sub, hleft, BitVec.toNat_ofNat]
      omega
    have hbytes : ∀ j < 0 + size.toNat % 8, codeByte s size.toNat (8 * (size.toNat / 8) + j) =
        (s.numbers (s.taken + size.toNat / 8) >>> j).setWidth 8 := fun j hj => by
      rw [codeByte, if_neg (by omega), show (8 * (size.toNat / 8) + j) % 8 = j by omega]
    rw [if_pos hzero, wp_bind, progress, wp_random_number, htail, hleft]
    have hend : 8 * (size.toNat / 8) + 0 + size.toNat % 8 = size.toNat := by omega
    refine (wp_leftOverLoop (t := size.toNat / 8 + 1) (fun i hi => hmapped i (by omega)) (by omega) hbytes).trans ?_
    rw [hend, show (size.toNat + 7) / 8 = size.toNat / 8 + 1 by omega]

theorem codeByte_eq_iff {n : Nat} : (∀ i < n, codeByte s n i = randomByte s i) ↔
    ShiftsAgree (s.numbers (s.taken + n / 8)) (n % 8) := by
  constructor
  · intro h j hj
    have hbyte := h (8 * (n / 8) + j) (by omega)
    rw [codeByte, if_neg (by omega), randomByte, show (8 * (n / 8) + j) / 8 = n / 8 by omega,
      show (8 * (n / 8) + j) % 8 = j by omega] at hbyte
    exact hbyte
  · intro h i hi
    unfold codeByte
    split
    · rfl
    · have hagree := h (i % 8) (by omega)
      rw [hagree, randomByte, show i / 8 = n / 8 by omega]

/-- A buffer gets the bytes of the random numbers one after the other exactly if the last number is not cut, or its bytes
do not depend on how far they are shifted. -/
theorem fills_buffer_iff (hmapped : Mapped s.memory buf size.toNat) :
    FillsBuffer s buf size ↔ ShiftsAgree (s.numbers (s.taken + size.toNat / 8)) (size.toNat % 8) := by
  have hsize : size.toNat < 2 ^ 64 := size.isLt
  rw [← codeByte_eq_iff]
  constructor
  · rintro ⟨s', hrun, -, hbytes, -⟩ i hi
    have hend := (wp_random_bytes (E := fun _ => False) hmapped).mp (run_eq_ok_iff.mp hrun)
    have hbyte := hbytes i hi
    rw [← hend.2, progress_memory, written_at hi hsize.le] at hbyte
    exact Option.some.inj hbyte
  · intro hbytes
    refine ⟨_, run_eq_ok_iff.mpr ((wp_random_bytes hmapped).mpr ⟨rfl, rfl⟩), rfl, fun i hi => ?_, fun x hx => if_neg hx⟩
    rw [progress_memory, written_at hi hsize.le, hbytes i hi]

/-- A buffer of 10 bytes at `0x1000`, and one number again and again. -/
def tenBytes (number : Word) : RandomState := ⟨imageAt 0x1000 (List.replicate 10 0), fun _ => number, 0⟩

theorem tenBytes_mapped (number : Word) : Mapped (tenBytes number).memory 0x1000 (10 : Word).toNat := by
  intro i hi
  have hten : i < 10 := hi
  have hbyte : (tenBytes number).memory (0x1000 + BitVec.ofNat 64 i) = (List.replicate 10 0)[i]? :=
    imageAt_offset _ (by omega)
  rw [hbyte]
  simp [hten]

theorem equal_bytes_filled : Mapped (tenBytes (BitVec.allOnes 64)).memory 0x1000 (10 : Word).toNat ∧
    FillsBuffer (tenBytes (BitVec.allOnes 64)) 0x1000 10 :=
  ⟨tenBytes_mapped _, (fills_buffer_iff (tenBytes_mapped _)).mpr (by decide)⟩

/-- Byte number 9 is `0x32` and not `0x56`. -/
theorem second_byte_shifted : Mapped (tenBytes 0x123456789abc5664).memory 0x1000 (10 : Word).toNat ∧
    (∃ s', (random_bytes 0x1000 10).run (tenBytes 0x123456789abc5664) = .ok ((), s') ∧ s'.memory 0x1009 = some 0x32) ∧
    ¬ FillsBuffer (tenBytes 0x123456789abc5664) 0x1000 10 := by
  have hrun : (random_bytes 0x1000 10).run (tenBytes 0x123456789abc5664) =
      .ok ((), progress (tenBytes 0x123456789abc5664) 0x1000 (codeByte (tenBytes 0x123456789abc5664) 10) 2 10) :=
    run_eq_ok_iff.mpr ((wp_random_bytes (tenBytes_mapped _)).mpr ⟨rfl, rfl⟩)
  have hbyte : (progress (tenBytes 0x123456789abc5664) 0x1000 (codeByte (tenBytes 0x123456789abc5664) 10) 2 10).memory
      0x1009 = some 0x32 := by decide
  refine ⟨tenBytes_mapped _, ⟨_, hrun, hbyte⟩, ?_⟩
  rintro ⟨s', hrun', -, hbytes, -⟩
  obtain rfl : s' = _ := congrArg Prod.snd (Except.ok.inj (hrun'.symm.trans hrun))
  have hright := hbytes 9 (by decide)
  have hwrong : (some 0x32 : Option Byte) = some 0x56 := hbyte.symm.trans hright
  exact absurd hwrong (by decide)

end KernelOfTruth.Random
