import KernelOfTruth.Code.Strings

/-!
# What is read from memory
-/

open KernelOfTruth.Code

namespace KernelOfTruth.Spec

/-- An image of bytes at the address `start`, and nothing else. -/
def imageAt (start : Word) (image : List Byte) : Memory := fun a => image[(a - start).toNat]?

def Mapped (m : Memory) (a : Word) (n : Nat) : Prop := ∀ i < n, (m (a + BitVec.ofNat 64 i)).isSome

/-- The byte at an address that is mapped. -/
def byteAt (m : Memory) (a : Word) : Byte := (m a).getD 0

def charAt (m : Memory) (p : Word) (i : Nat) : Byte := byteAt m (p + BitVec.ofNat 64 i)

def wordAt (m : Memory) : Nat → Word → Word
  | 0, _ => 0
  | n + 1, a => (byteAt m a).setWidth 64 ||| wordAt m n (a + 1) <<< 8

def bytesAt (m : Memory) (n : Nat) (a : Word) : List Byte := (List.range n).map (charAt m a)

/-- Entry number `i` of an array of pointers is at this address. -/
def pointerSlot (array : Word) (i : Nat) : Word := array + pointerSize * BitVec.ofNat 64 i

/-- The address is one of the `n` from `a` on. -/
def Covers (a : Word) (n : Nat) (x : Word) : Prop := (x - a).toNat < n

/-- Memory after a store of the low `n` bytes of `v`. -/
def stored (m : Memory) (n : Nat) (a v : Word) : Memory := fun x =>
  if (x - a).toNat < n then some ((v >>> (8 * (x - a).toNat)).setWidth 8) else m x

/-- Memory after `n` stores of 8 bytes. -/
def storedAll (m : Memory) (target value : Nat → Word) : Nat → Memory
  | 0 => m
  | n + 1 => stored (storedAll m target value n) 8 (target n) (value n)

/-- Memory after `memset`. -/
def filled (mem : Word → Option Byte) (a : Word) (n : Nat) (b : Byte) : Word → Option Byte :=
  fun x => if (x - a).toNat < n then some b else mem x

/-- Memory after the bytes with the numbers from `low` on, below `high`, have been moved. -/
def moved (m : Memory) (destination source : Word) (low high : Nat) : Memory := fun x =>
  if low ≤ (x - destination).toNat ∧ (x - destination).toNat < high then m (source + (x - destination)) else m x

/-- Two texts agree on their first `n` characters, or up to a NUL that both have. -/
def SameText (f g : Nat → Byte) (n : Nat) : Prop := ∀ k < n, (∀ j < k, f j ≠ 0) → f k = g k

/-- The comparison from character number `i` on, which looks at no character behind a NUL. -/
def sameText (f g : Nat → Byte) : Nat → Nat → Bool
  | 0, _ => true
  | n + 1, i => f i == g i && (f i == 0 || sameText f g n (i + 1))

theorem sameText_iff_from {f g : Nat → Byte} {n i : Nat} : sameText f g n i = true ↔
    ∀ k < n, (∀ j < k, f (i + j) ≠ 0) → f (i + k) = g (i + k) := by
  induction n generalizing i with
  | zero => exact ⟨fun _ k hk => absurd hk (Nat.not_lt_zero k), fun _ => rfl⟩
  | succ n ih =>
    have hshift : ∀ j, i + (j + 1) = i + 1 + j := fun j => by omega
    simp only [sameText, Bool.and_eq_true, Bool.or_eq_true, beq_iff_eq, ih]
    constructor
    · rintro ⟨heq, hrest⟩ k hk hbefore
      cases k with
      | zero => exact heq
      | succ k =>
        rw [hshift]
        refine hrest.resolve_left (hbefore 0 (by omega)) k (by omega) fun j hj => ?_
        rw [← hshift]
        exact hbefore (j + 1) (by omega)
    · intro h
      refine ⟨h 0 (by omega) fun j hj => absurd hj (Nat.not_lt_zero j), or_iff_not_imp_left.mpr fun hne k hk hbefore => ?_⟩
      rw [← hshift]
      refine h (k + 1) (by omega) fun j hj => ?_
      cases j with
      | zero => exact hne
      | succ j =>
        rw [hshift]
        exact hbefore j (by omega)

instance (f g : Nat → Byte) (n : Nat) : Decidable (SameText f g n) :=
  decidable_of_iff (sameText f g n 0 = true) (by simp only [sameText_iff_from, Nat.zero_add, SameText])

/-- A comparison of two texts comes to their characters number `k`. -/
def ComesTo (f g : Nat → Byte) (k : Nat) : Prop := ∀ j < k, f j = g j ∧ f j ≠ 0

end KernelOfTruth.Spec
