import KernelOfTruth.Code.Format

/-!
# What `vfprintf` prints

A formatter without a buffer. The text of each directive goes to the end of the output as soon as the directive is read.
-/

open KernelOfTruth.Code KernelOfTruth.Code.Format

namespace KernelOfTruth.Spec

/-- The last `count` digits of a number. -/
def digitsText (base : Nat) : Nat → Word → List Byte
  | 0, _ => []
  | count + 1, number =>
    digitsText base count (number / BitVec.ofNat 64 base) ++ [digits (number % BitVec.ofNat 64 base).toNat]

def numberText (is_signed : Bool) (base size : Nat) (number : Word) : Option (List Byte) := do
  let count ← digitCount base size
  if is_signed && number.slt 0 then pure (chr '-' :: digitsText base count (~~~number + 1))
  else pure (digitsText base count number)

/-- The number that is next in the list, the bytes that are printed of it, and the other arguments. -/
def takeNumber (size : Nat) (args : List Arg) : Option (Nat × Word × List Arg) :=
  match size, args with
  | 0, .int n :: args => some (4, n.signExtend 64, args)
  | 1, .int n :: args => some (1, n.signExtend 64, args)
  | 2, .int n :: args => some (2, n.signExtend 64, args)
  | 8, .long n :: args => some (8, n, args)
  | _, _ => none

/-- The text of a directive, and the arguments behind it. -/
def convertText (conv : Conversion) (size : Nat) (args : List Arg) : Option (List Byte × List Arg) :=
  match conv with
  | .number is_signed base => do
    let (size, number, args) ← takeNumber size args
    let text ← numberText is_signed base size number
    pure (text, args)
  | .pointer => do
    let (size, number, args) ← takeNumber (if size = 0 then 8 else size) args
    let text ← numberText false 16 size number
    pure (text, args)
  | .character =>
    match args with
    | .int n :: args => some ([n.setWidth 8], args)
    | _ => none
  | .string =>
    match args with
    | .string s :: args => some ((s.getD nullString).chars, args)
    | _ => none
  | .percent => some ([chr '%'], args)

/-- A modifier that may stand twice, and then gives the size `two`. -/
def doubled (c : Byte) (one two : Nat) : List Byte → Nat × Byte × List Byte
  | [] => (one, c, [])
  | d :: rest => if d = c then (two, c, rest) else (one, c, d :: rest)

/-- The size that the characters behind a `%` give, the last of these characters, and those behind it. -/
def modifierOf : List Byte → Nat × Byte × List Byte
  | [] => (0, chr '%', [])
  | c :: rest =>
    if c = chr 'l' then doubled c 8 8 rest
    else if c = chr 'h' then doubled c 2 1 rest
    else if c = chr 'z' then (8, c, rest)
    else (0, chr '%', c :: rest)

theorem doubled_length (c : Byte) (one two : Nat) (rest : List Byte) : (doubled c one two rest).2.2.length ≤ rest.length := by
  cases rest with
  | nil => exact le_rfl
  | cons d rest =>
    rw [doubled]
    split
    · exact Nat.le_succ _
    · exact le_rfl

theorem modifierOf_length (rest : List Byte) : (modifierOf rest).2.2.length ≤ rest.length := by
  cases rest with
  | nil => exact le_rfl
  | cons c rest =>
    rw [modifierOf]
    split_ifs
    · exact Nat.le_succ_of_le (doubled_length ..)
    · exact Nat.le_succ_of_le (doubled_length ..)
    · exact Nat.le_succ _
    · exact le_rfl

/-- The text of a format, if the arguments match it. A directive that is not known, or that the format ends in, is printed
as the last character that was read of it. -/
def formatText (format : List Byte) (args : List Arg) : Option (List Byte) :=
  match format with
  | [] => some []
  | c :: rest =>
    if c = chr '%' ∧ rest ≠ [] then
      match _h : modifierOf rest with
      | (_, last, []) => some [last]
      | (size, last, d :: rest') =>
        match conversion d with
        | none => do
          let text ← formatText (d :: rest') args
          pure (last :: text)
        | some conv => do
          let (text, args) ← convertText conv size args
          let texts ← formatText rest' args
          pure (text ++ texts)
    else do
      let text ← formatText rest args
      pure (c :: text)
termination_by format.length
decreasing_by
  · have hle := modifierOf_length rest
    rw [_h] at hle
    exact Nat.lt_succ_of_le hle
  · have hle := modifierOf_length rest
    rw [_h] at hle
    exact Nat.lt_succ_of_lt hle
  · exact Nat.lt_succ_self _

/-- What a file has been given, and what came back. The bytes are those of the formatter without a buffer, or up to the
first write that fails the start of them. -/
structure OutputRight (write : List (List Byte) → Status) (text : List Byte) (status : Status)
    (blocks : List (List Byte)) : Prop where
  all : (∀ written, written ≠ [] → written <+: blocks → write written = .Ok) → blocks.flatten = text ∧ status = .Ok
  failed : ∀ earlier block, earlier ++ [block] <+: blocks → write (earlier ++ [block]) ≠ .Ok →
    status = write (earlier ++ [block]) ∧ earlier.flatten <+: text

end KernelOfTruth.Spec
