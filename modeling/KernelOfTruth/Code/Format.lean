import KernelOfTruth.Code.Strings

/-!
# `kernel/core/format.c`

The buffer is read and written only below its size, and a string only up to its NUL: another access is a page fault. The
messages for the log are left out.
-/

namespace KernelOfTruth.Code.Format

/-- The characters of a string before its NUL. -/
structure CString where
  chars : List Byte
  no_nul : 0 ∉ chars

variable {σ : Type}

/-- `string[i]` -/
def CString.at (string : CString) (i : Nat) : Kernel σ Byte :=
  match (string.chars ++ [0])[i]? with
  | some c => pure c
  | none => throw .page_fault

def chr (c : Char) : Byte := BitVec.ofNat 8 c.toNat

/-- What a caller passes for a directive. The pointer to a string may be NULL. -/
inductive Arg
  | int (n : BitVec 32)
  | long (n : Word)
  | string (s : Option CString)

def buf_size : Nat := 256

/-- The local variables of `vfprintf`, and the blocks that have been passed to `file->write`. -/
structure FormatState where
  buf : Vector Byte buf_size
  top : Nat
  args : List Arg
  blocks : List (List Byte)

/-! ## The buffer -/

/-- `buf[i] = c` -/
def storeBuf (i : Nat) (c : Byte) : Kernel FormatState Unit := do
  let s ← get
  if h : i < buf_size then set { s with buf := s.buf.set i c h } else throw .page_fault

def setTop (top : Nat) : Kernel FormatState Unit := modify fun s => { s with top := top }

/-- `buf[top] = c; top++` -/
def putChar (c : Byte) : Kernel FormatState Unit := do
  let top := (← get).top
  storeBuf top c
  setTop (top + 1)

-- `write` of the file. What it returns may depend on all that it has been given so far.
variable (write : List (List Byte) → Status)

/-- `file->write(buf, size)` -/
def writeBuf (size : Nat) : Kernel FormatState Status := do
  if size ≤ buf_size then do
    modify fun s => { s with blocks := s.blocks ++ [s.buf.toList.take size] }
    pure (write (← get).blocks)
  else throw .page_fault

/-- A full buffer is written. -/
def flushFull : Kernel FormatState Status := do
  if (← get).top = buf_size then
    bubble (writeBuf write buf_size) do
      setTop 0
      pure .Ok
  else pure .Ok

/-! ## Numbers and strings -/

def digits_safe : List Byte := ascii "BUG0123456789abcdefBUG"

/-- `digits[i]`, where `digits` is `&digits_safe[3]` -/
def digits (i : Nat) : Byte := digits_safe.getD (3 + i) 0

/-- The loop of `print_number`, from slot `i - 1` down. -/
def numberLoop (base : Nat) : Nat → Word → Kernel FormatState Unit
  | 0, _ => pure ()
  | i + 1, number => do
    storeBuf i (digits (number % BitVec.ofNat 64 base).toNat)
    numberLoop base i (number / BitVec.ofNat 64 base)

/-- The number of digits for an integer of `size` bytes. -/
def digitCount (base size : Nat) : Option Nat :=
  match base with
  | 2 => some (size * 8 / 1)
  | 8 => some (size * 8 / 2)
  | 10 => some (size * 8 / 4)
  | 16 => some (size * 8 / 4)
  | _ => none

/-- The start of `print_number`. The result is the number without its sign. -/
def putSign (is_signed : Bool) (snumber : Word) : Kernel FormatState Word :=
  if is_signed && snumber.slt 0 then do
    putChar (chr '-')
    pure (~~~snumber + 1)
  else pure snumber

/-- The end of `print_number`: the buffer is written, and the digits are put into it. -/
def putDigits (base size : Nat) (number : Word) : Kernel FormatState Status := do
  let top := (← get).top
  bubble (writeBuf write top) <|
    match digitCount base size with
    | none => pure .Error_Invalid
    | some count => do
      setTop count
      assert "print_number" (count ≤ buf_size)
      numberLoop base count number
      pure .Ok

def print_number (is_signed : Bool) (base size : Nat) (snumber : Word) : Kernel FormatState Status := do
  let number ← putSign is_signed snumber
  putDigits write base size number

/-- The loop of `print_string`, which has `fuel` characters left. -/
def stringLoop (string : CString) : Nat → Nat → Kernel FormatState Status
  | 0, _ => throw .diverge
  | fuel + 1, i => do
    let c ← string.at i
    if c = 0 then pure .Ok
    else do
      putChar c
      bubble (flushFull write) (stringLoop string fuel (i + 1))

def print_string (string : CString) : Kernel FormatState Status := stringLoop write string (string.chars.length + 1) 0

/-! ## Directives -/

/-- `va_arg`, for the type of arguments that `type` accepts. An argument of another type has no meaning. -/
def va_arg {α : Type} (type : Arg → Option α) : Kernel FormatState α := do
  let s ← get
  match s.args with
  | arg :: args =>
    match type arg with
    | some value => do
      set { s with args := args }
      pure value
    | none => throw .page_fault
  | [] => throw .page_fault

def va_int : Kernel FormatState (BitVec 32) := va_arg fun | .int n => some n | _ => none

def va_long : Kernel FormatState Word := va_arg fun | .long n => some n | _ => none

def va_string : Kernel FormatState (Option CString) := va_arg fun | .string p => some p | _ => none

/-- The last `switch` of a directive: the size that it goes on with, and the number. -/
def va_number (size : Nat) : Kernel FormatState (Nat × Word) :=
  match size with
  | 0 => do
    let number ← va_int
    pure (4, number.signExtend 64)
  | 1 | 2 | 4 => do
    let number ← va_int
    pure (size, number.signExtend 64)
  | 8 => do
    let number ← va_long
    pure (size, number)
  | _ => pure (size, 0)

/-- The first `switch` of a directive, which starts at `format[i]`: the size, and the new `i`. -/
def modifiers (format : CString) (i : Nat) : Kernel σ (Nat × Nat) := do
  let c ← format.at (i + 1)
  if c = chr 'l' then do
    if (← format.at (i + 2)) = chr 'l' then pure (8, i + 2) else pure (8, i + 1)
  else if c = chr 'h' then do
    if (← format.at (i + 2)) = chr 'h' then pure (1, i + 2) else pure (2, i + 1)
  else if c = chr 'z' then pure (8, i + 1)
  else pure (0, i)

/-- What the second `switch` finds. -/
inductive Conversion
  | number (is_signed : Bool) (base : Nat)
  | pointer
  | character
  | string
  | percent
  deriving DecidableEq

def conversion (c : Byte) : Option Conversion :=
  if c = chr 'i' ∨ c = chr 'd' then some (.number true 10)
  else if c = chr 'u' then some (.number false 10)
  else if c = chr 'p' then some .pointer
  else if c = chr 'X' ∨ c = chr 'x' then some (.number false 16)
  else if c = chr 'o' then some (.number true 8)
  else if c = chr 'b' then some (.number false 2)
  else if c = chr 'c' then some .character
  else if c = chr 's' then some .string
  else if c = chr '%' then some .percent
  else none

/-- The characters that are printed for NULL. -/
def nullString : CString := ⟨ascii "(NULL)", by decide⟩

/-- What a directive prints. -/
def convert (conv : Conversion) (size : Nat) : Kernel FormatState Status :=
  match conv with
  | .number is_signed base => do
    let (size, number) ← va_number size
    print_number write is_signed base size number
  | .pointer => do
    let (size, number) ← va_number (if size = 0 then 8 else size)
    print_number write false 16 size number
  | .character => do
    let character ← va_int
    putChar (character.setWidth 8)
    pure .Ok
  | .string => do
    let str ← va_string
    print_string write (str.getD nullString)
  | .percent => do
    putChar (chr '%')
    pure .Ok

/-- The directive that starts at `format[i]`. The result has the new `i`. -/
def directive (format : CString) (i : Nat) : Kernel FormatState (Status × Nat) := do
  let (size, i) ← modifiers format i
  match conversion (← format.at (i + 1)) with
  | some conv => do
    let status ← convert write conv size
    pure (status, i + 1)
  | none => do
    putChar (← format.at i)
    pure (.Ok, i)

/-! ## `vfprintf` -/

/-- `c == '%' && format[i+1] != '\0'`, where `c` is `format[i]`. -/
def isDirective (format : CString) (i : Nat) (c : Byte) : Kernel σ Bool :=
  if c = chr '%' then do
    let next ← format.at (i + 1)
    pure (next ≠ 0)
  else pure false

/-- A round of the loop up to `next_iteration`. The result has a status to return, if it is not `Ok`, and the new `i`. -/
def formatStep (format : CString) (i : Nat) (c : Byte) : Kernel FormatState (Status × Nat) := do
  if ← isDirective format i c then directive write format i
  else do
    putChar c
    pure (.Ok, i)

/-- The loop of `vfprintf` from `format[i]` on, which has `fuel` rounds left. -/
def formatLoop (format : CString) : Nat → Nat → Kernel FormatState Status
  | 0, _ => throw .diverge
  | fuel + 1, i => do
    let c ← format.at i
    if c = 0 then writeBuf write (← get).top
    else do
      let (status, i) ← formatStep write format i c
      if status ≠ .Ok then pure status
      else bubble (flushFull write) (formatLoop format fuel (i + 1))

/-- A file need not have a `write`. -/
def vfprintf (write : Option (List (List Byte) → Status)) (format : CString) : Kernel FormatState Status := do
  setTop 0
  match write with
  | none => pure .Error_Permissions
  | some write => formatLoop write format (format.chars.length + 1) 0

end KernelOfTruth.Code.Format
