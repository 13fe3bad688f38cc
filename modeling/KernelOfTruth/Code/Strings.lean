import KernelOfTruth.Code.Types
import Mathlib.Logic.Function.Basic

/-!
# Bytes in memory, and `kernel/core/string.c`

A load or a store at an address that is not mapped is a page fault. The functions on strings take each of
their strings as a function that reads one character: of memory, or of a constant of the kernel.
-/

namespace KernelOfTruth.Code

/-- The bytes that are mapped. -/
abbrev Memory := Word → Option Byte

def Memory.loadByte (a : Word) : Kernel Memory Byte := do
  match (← get) a with
  | some b => pure b
  | none => throw .page_fault

def Memory.storeByte (a : Word) (b : Byte) : Kernel Memory Unit := do
  match (← get) a with
  | some _ => modify fun m => Function.update m a (some b)
  | none => throw .page_fault

/-- An integer of `n` bytes. -/
def Memory.load : Nat → Word → Kernel Memory Word
  | 0, _ => pure 0
  | n + 1, a => do
    let low ← loadByte a
    let high ← load n (a + 1)
    pure (low.setWidth 64 ||| high <<< 8)

def Memory.store : Nat → Word → Word → Kernel Memory Unit
  | 0, _, _ => pure ()
  | n + 1, a, v => do
    storeByte a (v.setWidth 8)
    store n (a + 1) (v >>> 8)

/-- A buffer of `n` bytes. -/
def Memory.loadBytes : Nat → Word → Kernel Memory (List Byte)
  | 0, _ => pure []
  | n + 1, a => do
    let b ← loadByte a
    let bs ← loadBytes n (a + 1)
    pure (b :: bs)

def Memory.memset : Nat → Word → Byte → Kernel Memory Unit
  | 0, _, _ => pure ()
  | n + 1, a, b => do
    storeByte a b
    memset n (a + 1) b

def Memory.memcpy : Nat → Word → Word → Kernel Memory Unit
  | 0, _, _ => pure ()
  | n + 1, destination, source => do
    storeByte destination (← loadByte source)
    memcpy n (destination + 1) (source + 1)

/-- The first loop of `memmove`, with `n` bytes left from number `i` on. -/
def Memory.memmoveForward (dst src : Word) : Nat → Nat → Kernel Memory Unit
  | 0, _ => pure ()
  | n + 1, i => do
    storeByte (dst + BitVec.ofNat 64 i) (← loadByte (src + BitVec.ofNat 64 i))
    memmoveForward dst src n (i + 1)

/-- The second loop of `memmove`, with the bytes below number `i` left. -/
def Memory.memmoveBackward (dst src : Word) : Nat → Kernel Memory Unit
  | 0 => pure ()
  | i + 1 => do
    storeByte (dst + BitVec.ofNat 64 i) (← loadByte (src + BitVec.ofNat 64 i))
    memmoveBackward dst src i

def Memory.memmove (destination source size : Word) : Kernel Memory Word := do
  if destination < source then memmoveForward destination source size.toNat 0
  else memmoveBackward destination source size.toNat
  pure destination

/-- The size of a pointer in an array. -/
def pointerSize : Word := 8

/-! ## Strings -/

variable {σ : Type}

/-- A string constant of the kernel, without the NUL at its end. -/
def ascii (s : String) : List Byte := s.toList.map fun c => BitVec.ofNat 8 c.toNat

def constant (s : List Byte) (i : Nat) : Kernel σ Byte := pure (s.getD i 0)

def pointer (p : Word) (i : Nat) : Kernel Memory Byte := Memory.loadByte (p + BitVec.ofNat 64 i)

section Compare

variable (s1 s2 : Nat → Kernel σ Byte)

/-- The loop of `memcmp`, with `n` bytes left from number `i` on. A `char` is signed. -/
def memcmpLoop : Nat → Nat → Kernel σ Int
  | 0, _ => pure 0
  | n + 1, i => do
    let a ← s1 i
    let b ← s2 i
    if a.toInt > b.toInt then pure (-1)
    else if a.toInt < b.toInt then pure 1
    else memcmpLoop n (i + 1)

def memcmp (size : Nat) : Kernel σ Int := memcmpLoop s1 s2 size 0

/-- The loop of `strncmp`, with at most `n` characters left from number `i` on. -/
def strncmpLoop : Nat → Nat → Kernel σ Int
  | 0, _ => pure 0
  | n + 1, i => do
    let a ← s1 i
    let b ← s2 i
    let difference := a.toInt - b.toInt
    if difference ≠ 0 then pure difference
    else if a = 0 ∨ b = 0 then pure 0
    else strncmpLoop n (i + 1)

def strncmp (n : Nat) : Kernel σ Int := strncmpLoop s1 s2 n 0

end Compare

end KernelOfTruth.Code
