import KernelOfTruth.Code.Strings

/-!
# `random_bytes` of `kernel/core/random.c`
-/

namespace KernelOfTruth.Code

/-- Memory, with all numbers that come from `random_number_function` and how many of them have come. -/
structure RandomState where
  memory : Memory
  numbers : Nat → Word
  taken : Nat

def onBuffer {α : Type} (p : Kernel Memory α) : Kernel RandomState α :=
  Lib.zoom RandomState.memory (fun s memory => { s with memory := memory }) p

def random_number : Kernel RandomState Word := do
  let s ← get
  set { s with taken := s.taken + 1 }
  pure (s.numbers s.taken)

/-- The first loop, with `n` words left from number `i` on. -/
def wordsLoop (word_buf : Word) : Nat → Nat → Kernel RandomState Unit
  | 0, _ => pure ()
  | n + 1, i => do
    let number ← random_number
    onBuffer (Memory.store 8 (word_buf + 8 * BitVec.ofNat 64 i) number)
    wordsLoop word_buf n (i + 1)

/-- The second loop. `sizeof(uint8_t)` is 1. -/
def leftOverLoop (byte_buf left_over : Word) : Nat → Nat → Kernel RandomState Unit
  | 0, _ => pure ()
  | n + 1, i => do
    onBuffer (Memory.storeByte (byte_buf + BitVec.ofNat 64 i) ((left_over >>> (i * 1) &&& 0xff).setWidth 8))
    leftOverLoop byte_buf left_over n (i + 1)

def random_bytes (buf size : Word) : Kernel RandomState Unit := do
  let remainder := size % 8
  wordsLoop buf (size / 8).toNat 0
  if remainder ≠ 0 then do
    let left_over ← random_number
    leftOverLoop (buf + (size - remainder)) left_over remainder.toNat 0
  else pure ()

end KernelOfTruth.Code
