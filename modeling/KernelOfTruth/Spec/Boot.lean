import KernelOfTruth.Code.Boot
import KernelOfTruth.Spec.Separation

/-!
# The memory that is mapped at boot
-/

open KernelOfTruth.Code KernelOfTruth.Code.Boot

namespace KernelOfTruth.Spec

/-- What `link.ld` says about the sections. Each of them has a page at least, and all of them are below 2 MiB. -/
structure Linked (l : BootLayout) : Prop where
  text_start : l.text_start = 0x100000
  data_start : l.data_start = l.text_end
  rodata_start : l.rodata_start = l.data_end
  bss_start : l.bss_start = l.rodata_end
  text_end : l.text_end.toNat % 4096 = 0
  data_end : l.data_end.toNat % 4096 = 0
  rodata_end : l.rodata_end.toNat % 4096 = 0
  bss_end : l.bss_end.toNat % 4096 = 0
  text : 0x100000 < l.text_end.toNat
  data : l.text_end.toNat < l.data_end.toNat
  rodata : l.data_end.toNat < l.rodata_end.toNat
  bss : l.rodata_end.toNat < l.bss_end.toNat
  fits : l.bss_end.toNat ≤ 0x200000
  tables : l.init_pl4.toNat % 4096 = 0
  below : l.init_pl4.toNat + 0xa000 ≤ l.bss_end.toNat

/-- `.bss` is clear, and so the four tables are. -/
def TablesClear (l : BootLayout) (mem : Word → Index → Word) : Prop :=
  ∀ f ∈ [l.init_pl4, l.init_pl3, l.init_pl2, l.init_pl1], ∀ i, mem (f.setWidth 64) i = 0

/-- Only the text can be executed, and only the text and the constants cannot be written. -/
def sectionPermissions (l : BootLayout) (address : Nat) : Word :=
  if address < 0x100000 then Memory_Present ||| Memory_Writable
  else if address < l.text_end.toNat then Memory_Present
  else if address < l.data_end.toNat then Memory_Present ||| Memory_Writable
  else if address < l.rodata_end.toNat then Memory_Present ||| Memory_No_Execute
  else Memory_Present ||| Memory_Writable

/-- The page of physical memory with the number `k`, from the second page to the end of the kernel. -/
def bootPage (l : BootLayout) (k : Nat) : Option (Word × Word) :=
  if 0 < k ∧ 4096 * k < l.bss_end.toNat then some (BitVec.ofNat 64 (4096 * k), sectionPermissions l (4096 * k)) else none

/-- Physical memory is at four places: at 0, at `Kernel_Space_Start`, and where only one of the two upper levels is that of
the other place. -/
def bootWalk (l : BootLayout) : List Index → Option (Word × Word)
  | [i1, i2, i3, i4] => if i2 = 0 ∧ (i3 = 0 ∨ i3 = 510) ∧ (i4 = 0 ∨ i4 = 511) then bootPage l i1.toNat else none
  | _ => none

def bootTables (l : BootLayout) : PivotTables := ⟨l.init_pl3.setWidth 64, l.init_pl2.setWidth 64, l.init_pl1.setWidth 64⟩

end KernelOfTruth.Spec
