import KernelOfTruth.Code.Lock
import Mathlib.Logic.Function.Basic

/-!
# `kernel/device/vga.c`

The console after `vga_init` has mapped the framebuffer. An access to a cell that is not mapped is a page fault. The names
of the two variables for the cursor are swapped: `VGA_Cursor_Row` is the place in the row, and `VGA_Cursor_Column` is the
number of the row.
-/

namespace KernelOfTruth.Code

def VGA_Tab_Size : Nat := 4
def VGA_Height : Nat := 24
def VGA_Width : Nat := 80

structure Vga where
  VGA_Framebuffer : Nat → Option (BitVec 16)
  VGA_Cursor_Row : Nat
  VGA_Cursor_Column : Nat

/-! ## Cells -/

def VGA_Black : BitVec 8 := 0
def VGA_White : BitVec 8 := 15

/-- The colors are never changed. -/
def VGA_Current_Background : BitVec 8 := VGA_Black
def VGA_Current_Foreground : BitVec 8 := VGA_White

def vga_entry_color (fg bg : BitVec 8) : BitVec 8 := fg ||| bg <<< 4

def vga_entry (uc : Byte) (fg bg : BitVec 8) : BitVec 16 := uc.setWidth 16 ||| (vga_entry_color fg bg).setWidth 16 <<< 8

/-- An entry in the current colors. -/
def entryOf (c : Byte) : BitVec 16 := vga_entry c VGA_Current_Foreground VGA_Current_Background

def newline : Byte := 0x0a
def tab : Byte := 0x09
def space : Byte := 0x20

def loadCell (i : Nat) : Kernel Vga (BitVec 16) := do
  match (← get).VGA_Framebuffer i with
  | some v => pure v
  | none => throw .page_fault

def storeCell (i : Nat) (v : BitVec 16) : Kernel Vga Unit := do
  match (← get).VGA_Framebuffer i with
  | some _ => modify fun s => { s with VGA_Framebuffer := Function.update s.VGA_Framebuffer i (some v) }
  | none => throw .page_fault

/-- A loop that stores a space to `n` cells from number `i` on. -/
def clearCells : Nat → Nat → Kernel Vga Unit
  | 0, _ => pure ()
  | n + 1, i => do
    storeCell i (entryOf space)
    clearCells n (i + 1)

def vga_framebuffer_clear : Kernel (Locked Vga) Unit := do
  acquireLock
  onState (clearCells (VGA_Width * VGA_Height) 0)
  releaseLock

/-! ## Characters -/

def setCursor (row column : Nat) : Kernel Vga Unit :=
  modify fun s => { s with VGA_Cursor_Row := row, VGA_Cursor_Column := column }

/-- The inner loop of `vga_scroll_up_line`, with `n` cells of row number `y` left from number `x` on. -/
def scrollRowLoop (y : Nat) : Nat → Nat → Kernel Vga Unit
  | 0, _ => pure ()
  | n + 1, x => do
    storeCell (x + y * VGA_Width) (← loadCell (x + (y + 1) * VGA_Width))
    scrollRowLoop y n (x + 1)

/-- The outer loop, with `n` rows left. -/
def scrollLoop : Nat → Nat → Kernel Vga Unit
  | 0, _ => pure ()
  | n + 1, y => do
    scrollRowLoop y VGA_Width 0
    scrollLoop n (y + 1)

def vga_scroll_up_line : Kernel Vga Unit := do
  setCursor 0 (VGA_Height - 1)
  scrollLoop (VGA_Height - 1) 0
  clearCells VGA_Width (VGA_Width * (VGA_Height - 1))

/-- The part of `vga_putc_unlocked` that depends on the character. -/
def putCharacter (c : Byte) (row column index : Nat) : Kernel Vga Unit :=
  if c = newline then setCursor 0 (column + 1)
  else if c = tab then do
    if column + VGA_Tab_Size < VGA_Width then do
      clearCells VGA_Tab_Size index
      setCursor row (column + 1)
    else setCursor 0 (column + 1)
  else do
    storeCell index (entryOf c)
    let next := (row + 1) % VGA_Width
    setCursor next (if next = 0 then column + 1 else column)

def vga_putc_unlocked (c : Byte) : Kernel Vga Unit := do
  let s ← get
  let index := s.VGA_Cursor_Column * VGA_Width + s.VGA_Cursor_Row
  assert "vga_putc_unlocked" (index < VGA_Width * VGA_Height)
  putCharacter c s.VGA_Cursor_Row s.VGA_Cursor_Column index
  if (← get).VGA_Cursor_Column = VGA_Height then vga_scroll_up_line else pure ()

def vga_putc (c : Byte) : Kernel (Locked Vga) Unit := do
  acquireLock
  onState (vga_putc_unlocked c)
  releaseLock

/-- The loop of `vga_write`. -/
def writeLoop : List Byte → Kernel Vga Unit
  | [] => pure ()
  | c :: rest => do
    vga_putc_unlocked c
    writeLoop rest

def vga_write (bytes : List Byte) : Kernel (Locked Vga) Status := do
  acquireLock
  onState (writeLoop bytes)
  releaseLock
  pure .Ok

end KernelOfTruth.Code
