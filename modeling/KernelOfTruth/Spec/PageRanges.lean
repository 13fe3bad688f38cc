import KernelOfTruth.Spec.Paging

/-!
# Ranges of pages

`map_range` and `unmap_range` go through the pages of a range one by one.
-/

open KernelOfTruth.Lib KernelOfTruth.Code

namespace KernelOfTruth.Spec

/-- The address of page `i` of the range that starts at `a`. -/
def pageAt (a : Word) (i : Nat) : Word := a + BitVec.ofNat 64 (i * 4096)

/-- The page is one of the `count` pages from `virt` on. -/
def InRange (virt : Word) (count : Nat) (page : List Index) : Prop := ∃ i < count, page = pagePath (pageAt virt i)

/-- No page of the range is in the recursive window, or is the pivot page. -/
def Avoids (img : KernelImage) (virt : Word) (count : Nat) : Prop :=
  ∀ i < count, index4 (pageAt virt i) ≠ fractal ∧ pagePath (pageAt virt i) ≠ pivotPage img

/-- The pages of the range are mapped to the frames from `phys` on, and no others have changed. -/
structure RangeMapped (img : KernelImage) (virt phys : Word) (count : Nat) (attrs : Word) (m m' : Machine) : Prop where
  mapped : ∀ i < count, walk m' (pagePath (pageAt virt i)) = some (pageAt phys i, attrs ||| Memory_Present)
  others : ∀ page, PagePath page → page ≠ pivotPage img → ¬ InRange virt count page → walk m' page = walk m page

/-- No translation has changed. -/
def SameWalks (img : KernelImage) (m m' : Machine) : Prop :=
  ∀ page, PagePath page → page ≠ pivotPage img → walk m' page = walk m page

/-! ## What `unmap_range` passes to `physical_free` -/

/-- The frames that the present entries of the range hold, page by page. -/
def leafFrames (m : Machine) : Word → Nat → List Word
  | _, 0 => []
  | virt, count + 1 => ((walk m (pagePath virt)).map Prod.fst).toList ++ leafFrames m (virt + Page_Small) count

/-- `physical_free` leaves the page tables alone, but for the pivot page. What it has been given so far shows in its
own variable. -/
def Records (img : KernelImage) (push : Word → Word → Word) (physical_free : Word → Kernel Machine Unit) : Prop :=
  ∀ (m : Machine) (f : Word), Tree m → wp (physical_free f)
    (fun _ m' => MovesPivot img m m' ∧ m'.physical_page = push m.physical_page f) (fun _ => False) m

/-- After the call no page of the range is mapped, `physical_free` was given exactly the frames of the present entries,
each one once, and no other translation has changed. -/
def FreesMapped (img : KernelImage) (virt : Word) (count : Nat) (m : Machine) : Prop :=
  (leafFrames m virt count).Nodup ∧ ∀ push physical_free, Records img push physical_free →
    wp (unmap_range physical_free virt count true) (fun _ m' =>
      (∀ page, InRange virt count page → walk m' page = none) ∧
      m'.physical_page = (leafFrames m virt count).foldl push m.physical_page ∧
      ∀ page, PagePath page → page ≠ pivotPage img → ¬ InRange virt count page → walk m' page = walk m page)
      (fun _ => False) m

end KernelOfTruth.Spec
