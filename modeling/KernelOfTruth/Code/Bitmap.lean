import KernelOfTruth.Code.Strings

/-!
# `kernel/core/bitmap.c`

A bitmap is in memory at its address: `entry_count`, `last_free` and then the words of `map`. `bitmap_init`, which
allocates one, is left out.
-/

namespace KernelOfTruth.Code

/-! ## Fields -/

def load_entry_count (bitmap : Word) : Kernel Memory Word := Memory.load 8 bitmap

def load_last_free (bitmap : Word) : Kernel Memory Word := Memory.load 8 (bitmap + 8)

/-- `&bitmap->map[i]`. -/
def mapAddress (bitmap i : Word) : Word := bitmap + 16 + 8 * i

/-! ## Macros -/

def bitmap_index (x : Word) : Word := x / 8

/-- An `int` in C. It is at most 128, and its complement is extended with ones. -/
def bitmap_bit (x : Word) : Word := 1 <<< (x % 8).toNat

def bitmap_entry_count_to_bytes (x : Word) : Word := x / 8

/-- The loop of `log2`. No word is left after 64 rounds. -/
def log2Loop : Nat → Word → Nat → Nat
  | 0, _, i => i
  | rounds + 1, item, i => if item >>> 1 = 0 then i else log2Loop rounds (item >>> 1) (i + 1)

def log2 (item : Word) : Nat := log2Loop 64 item 0

/-- `1 << entry_bit` as an `int`: the processor takes the count modulo 32. -/
def intBit (entry_bit : Nat) : Word := ((1 : BitVec 32) <<< (entry_bit % 32)).signExtend 64

/-! ## Functions -/

/-- One of the two loops of `bitmap_get_index`, with `n` words left from number `i` on: the entry if one is found. -/
def searchLoop (bitmap : Word) : Nat → Word → Kernel Memory (Option Word)
  | 0, _ => pure none
  | n + 1, i => do
    let word ← Memory.load 8 (mapAddress bitmap i)
    if word ≠ ~~~0 then
      let entry_bit := log2 word
      Memory.store 8 (mapAddress bitmap i) (word ||| intBit entry_bit)
      pure (some (i <<< 8 + BitVec.ofNat 64 entry_bit))
    else searchLoop bitmap n (i + 1)

/-- The status, and what is stored through the pointer `entry`. -/
def bitmap_get_index (bitmap : Word) : Kernel Memory (Status × Option Word) := do
  assert "bitmap_get_index" (bitmap ≠ 0)
  let last := bitmap_index (← load_last_free bitmap)
  let count := bitmap_index (← load_entry_count bitmap)
  match ← searchLoop bitmap (count.toNat - last.toNat) last with
  | some entry => pure (.Ok, some entry)
  | none =>
    match ← searchLoop bitmap last.toNat 0 with
    | some entry => pure (.Ok, some entry)
    | none => pure (.Error_Full, none)

def bitmap_is_set (bitmap entry : Word) : Kernel Memory Bool := do
  assert "bitmap_is_set" (bitmap ≠ 0)
  assert "bitmap_is_set" ((← load_entry_count bitmap) < entry)
  return (← Memory.load 8 (mapAddress bitmap (bitmap_index entry))) &&& ~~~bitmap_bit entry ≠ 0

def bitmap_set (bitmap entry : Word) : Kernel Memory Unit := do
  assert "bitmap_set" (bitmap ≠ 0)
  assert "bitmap_set" ((← load_entry_count bitmap) < entry)
  let word := mapAddress bitmap (bitmap_index entry)
  Memory.store 8 word ((← Memory.load 8 word) ||| bitmap_bit entry)

def bitmap_clear (bitmap entry : Word) : Kernel Memory Unit := do
  assert "bitmap_clear" (bitmap ≠ 0)
  assert "bitmap_clear" ((← load_entry_count bitmap) < entry)
  Memory.store 8 (bitmap + 8) entry
  let word := mapAddress bitmap (bitmap_index entry)
  Memory.store 8 word ((← Memory.load 8 word) &&& ~~~bitmap_bit entry)

/-- The loop of `bitmap_set_range`, with `n` words left from number `i` on. -/
def fillLoop (bitmap : Word) : Nat → Word → Kernel Memory Unit
  | 0, _ => pure ()
  | n + 1, i => do
    Memory.store 8 (mapAddress bitmap i) (~~~0)
    fillLoop bitmap n (i + 1)

/-- The bound of the loop wraps around when the range ends in the first word. -/
def bitmap_set_range (bitmap start length : Word) : Kernel Memory Unit := do
  assert "bitmap_set_range" (bitmap ≠ 0)
  assert "bitmap_set_range" ((← load_entry_count bitmap) < start)
  assert "bitmap_set_range" ((← load_entry_count bitmap) < start + length)
  Memory.store 8 (mapAddress bitmap (bitmap_index start)) ((bitmap_bit start - 1) ||| bitmap_bit start)
  Memory.store 8 (mapAddress bitmap (bitmap_index (start + length))) (~~~(bitmap_bit (start + length) - 1))
  let first := bitmap_index start + 1
  fillLoop bitmap ((bitmap_index (start + length) - 1).toNat - first.toNat) first

def bitmap_static_init (bitmap entry_count : Word) : Kernel Memory Unit := do
  assert "bitmap_static_init" (bitmap ≠ 0)
  Memory.store 8 bitmap entry_count
  Memory.store 8 (bitmap + 8) 0
  Memory.memset (bitmap_entry_count_to_bytes entry_count).toNat (bitmap + 16) 0

end KernelOfTruth.Code
