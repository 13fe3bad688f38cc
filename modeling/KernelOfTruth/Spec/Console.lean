import KernelOfTruth.Code.Vga

/-!
# What the console shows
-/

open KernelOfTruth.Code

namespace KernelOfTruth.Spec

/-! ## The layout of a text -/

/-- Rows without end, blank where nothing has been written, and where the next byte belongs. -/
structure Layout where
  cell : Nat → Nat → Byte
  row : Nat
  column : Nat

def emptyLayout : Layout := ⟨fun _ _ => space, 0, 0⟩

/-- A row of 80 cells wraps to the next one at once. -/
def Layout.advance (l : Layout) : Layout :=
  if l.column + 1 = 80 then { l with row := l.row + 1, column := 0 } else { l with column := l.column + 1 }

def Layout.write (l : Layout) (c : Byte) : Layout :=
  { l with cell := Function.update l.cell l.row (Function.update (l.cell l.row) l.column c) }

def Layout.put (l : Layout) (c : Byte) : Layout :=
  if c = newline then { l with row := l.row + 1, column := 0 } else (l.write c).advance

def layout (text : List Byte) : Layout := text.foldl Layout.put emptyLayout

/-- The framebuffer has the last 24 rows, or all rows and blank ones behind them. -/
structure Shows (l : Layout) (s : Vga) : Prop where
  cells : ∀ y < 24, ∀ x < 80, s.VGA_Framebuffer (x + y * 80) = some (entryOf (l.cell (l.row - 23 + y) x))
  row : s.VGA_Cursor_Column = min l.row 23
  column : s.VGA_Cursor_Row = l.column

/-! ## The framebuffer -/

/-- A cleared framebuffer, with the cursor at the top left. -/
structure Cleared (s : Vga) : Prop where
  cells : ∀ i < 1920, s.VGA_Framebuffer i = some (entryOf space)
  row : s.VGA_Cursor_Row = 0
  column : s.VGA_Cursor_Column = 0

/-- Calls of `vga_write`, one after the other. -/
def vgaWrites : List (List Byte) → Kernel (Locked Vga) (List Status)
  | [] => pure []
  | bytes :: rest => do
    let status ← vga_write bytes
    return status :: (← vgaWrites rest)

inductive VgaCall
  | write (bytes : List Byte)
  | putc (c : Byte)

def vgaCalls : List VgaCall → Kernel (Locked Vga) Unit
  | [] => pure ()
  | .write bytes :: rest => do
    let _ ← vga_write bytes
    vgaCalls rest
  | .putc c :: rest => do
    vga_putc c
    vgaCalls rest

def VgaCall.bytes : VgaCall → List Byte
  | .write bytes => bytes
  | .putc c => [c]

/-- The cells of the screen are mapped, and nothing else. -/
def OnlyScreen (s : Vga) : Prop := ∀ i, (s.VGA_Framebuffer i).isSome ↔ i < 1920

/-- All calls return: no assertion fails, and no cell behind the screen is read or written. -/
def StaysOnScreen (s : Vga) (calls : List VgaCall) : Prop :=
  ∃ s', (vgaCalls calls).run ⟨Lock_Clear, s⟩ = .ok ((), ⟨Lock_Clear, s'⟩)

/-- Where the cursor goes, as the number of its row and its place in the row. A tab goes straight down, because the number
of the row is compared with the width. -/
def movedCursor (cursor : Nat × Nat) (c : Byte) : Nat × Nat :=
  if c = newline then (cursor.1 + 1, 0)
  else if c = tab then (cursor.1 + 1, cursor.2)
  else if cursor.2 + 1 = 80 then (cursor.1 + 1, 0)
  else (cursor.1, cursor.2 + 1)

/-- Where it is then. Below the last row the screen scrolls. -/
def nextCursor (cursor : Nat × Nat) (c : Byte) : Nat × Nat :=
  if (movedCursor cursor c).1 = 24 then (23, 0) else movedCursor cursor c

/-- No tab is written in the last three places of the screen. -/
def TabsFit (cursor : Nat × Nat) : List Byte → Prop
  | [] => True
  | c :: rest => (c = tab → ¬ (cursor.1 = 23 ∧ 77 ≤ cursor.2)) ∧ TabsFit (nextCursor cursor c) rest

instance decidableTabsFit : ∀ (cursor : Nat × Nat) (bytes : List Byte), Decidable (TabsFit cursor bytes)
  | _, [] => inferInstanceAs (Decidable True)
  | cursor, c :: rest => @instDecidableAnd _ _ inferInstance (decidableTabsFit (nextCursor cursor c) rest)

end KernelOfTruth.Spec
