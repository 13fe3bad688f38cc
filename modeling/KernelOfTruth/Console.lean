import KernelOfTruth.Code.Strings
import KernelOfTruth.Lib.Scan
import KernelOfTruth.Lib.Update
import KernelOfTruth.Rules
import KernelOfTruth.Spec.Console

/-!
# The console

Text without tabs is laid out as it should be, and the screen scrolls when a row is full. A tab clears four cells wherever
the cursor is.
-/

open KernelOfTruth.Lib KernelOfTruth.Code KernelOfTruth.Spec KernelOfTruth.Rules

namespace KernelOfTruth.Console

variable {E : Halt → Prop} {fb : Nat → Option (BitVec 16)} {row column : Nat} {Q : Unit → Vga → Prop}

/-! ## Cells -/

theorem wp_loadCell {i : Nat} {Q : BitVec 16 → Vga → Prop} :
    wp (loadCell i) Q E ⟨fb, row, column⟩ ↔
      Guarded (fb i).isSome (Q ((fb i).getD 0) ⟨fb, row, column⟩) (E .page_fault) := by
  unfold loadCell
  rw [wp_bind, wp_get]
  cases h : fb i with
  | none => simp [Guarded, h]
  | some v => simp [Guarded, h]

theorem wp_storeCell {i : Nat} {v : BitVec 16} : wp (storeCell i v) Q E ⟨fb, row, column⟩ ↔
    Guarded (fb i).isSome (Q () ⟨Function.update fb i (some v), row, column⟩) (E .page_fault) := by
  unfold storeCell
  rw [wp_bind, wp_get]
  cases h : fb i with
  | none => simp [Guarded, h]
  | some w => simp [Guarded, h]

/-- The framebuffer with `n` cleared cells from number `i` on. -/
def clearedFrom (fb : Nat → Option (BitVec 16)) (i n : Nat) : Nat → Option (BitVec 16) := fun k =>
  if i ≤ k ∧ k < i + n then some (entryOf space) else fb k

theorem clearedFrom_succ (i n : Nat) :
    clearedFrom (Function.update fb i (some (entryOf space))) (i + 1) n = clearedFrom fb i (n + 1) :=
  ite_update fun k => by omega

theorem wp_clearCells {n i : Nat} : wp (clearCells n i) Q E ⟨fb, row, column⟩ ↔
    Guarded (∀ k, i ≤ k → k < i + n → (fb k).isSome) (Q () ⟨clearedFrom fb i n, row, column⟩) (E .page_fault) := by
  induction n generalizing fb i with
  | zero =>
    have hnone : ∀ k, i ≤ k → k < i + 0 → (fb k).isSome := fun k hk hk' => by omega
    have hsame : clearedFrom fb i 0 = fb := by
      funext k
      exact if_neg (by omega)
    rw [guarded_of hnone, hsame]
    exact wp_pure ..
  | succ n ih =>
    have hmapped : (∀ k, i ≤ k → k < i + (n + 1) → (fb k).isSome) ↔ (fb i).isSome ∧
        ∀ k, i + 1 ≤ k → k < i + 1 + n → (Function.update fb i (some (entryOf space)) k).isSome := by
      rw [forall_from_succ]
      refine and_congr_right fun _ => forall₃_congr fun k hk _ => ?_
      rw [Function.update_of_ne (by omega)]
    unfold clearCells
    rw [wp_bind, wp_storeCell, ih, guarded_guarded, ← hmapped, clearedFrom_succ]

theorem wp_setCursor {row' column' : Nat} :
    wp (setCursor row' column') Q E ⟨fb, row, column⟩ ↔ Q () ⟨fb, row', column'⟩ := wp_modify ..

/-! ## Scrolling -/

/-- The framebuffer when `n` cells have been moved up by a row. -/
def movedUp (fb : Nat → Option (BitVec 16)) (n : Nat) : Nat → Option (BitVec 16) := fun k => if k < n then fb (k + 80) else fb k

theorem movedUp_succ {n : Nat} {v : BitVec 16} (hv : fb (n + 80) = some v) :
    Function.update (movedUp fb n) n (some v) = movedUp fb (n + 1) := by
  rw [← hv]
  exact update_ite fun _ => Nat.lt_succ_iff_lt_or_eq

/-- The framebuffer after a scroll. -/
def scrolled (fb : Nat → Option (BitVec 16)) : Nat → Option (BitVec 16) := clearedFrom (movedUp fb 1840) 1840 80

section Scroll

variable (hmapped : ∀ i < 1920, (fb i).isSome)
include hmapped

theorem wp_scrollRowLoop {y n x : Nat} (hy : y < 23) (hx : x + n = 80) :
    wp (scrollRowLoop y n x) Q E ⟨movedUp fb (x + y * 80), row, column⟩ ↔ Q () ⟨movedUp fb ((y + 1) * 80), row, column⟩ := by
  induction n generalizing x with
  | zero =>
    rw [show x + y * 80 = (y + 1) * 80 by omega]
    exact wp_pure ..
  | succ n ih =>
    obtain ⟨v, hv⟩ := Option.isSome_iff_exists.mp (hmapped (x + y * 80 + 80) (by omega))
    have hload : movedUp fb (x + y * 80) (x + (y + 1) * VGA_Width) = some v := by
      rw [show x + (y + 1) * VGA_Width = x + y * 80 + 80 by unfold VGA_Width; omega, ← hv]
      exact if_neg (by omega)
    have hstore : (movedUp fb (x + y * 80) (x + y * VGA_Width)).isSome := by
      have hhere : movedUp fb (x + y * 80) (x + y * 80) = fb (x + y * 80) := if_neg (lt_irrefl _)
      exact hhere ▸ hmapped _ (by omega)
    unfold scrollRowLoop
    rw [wp_bind, wp_loadCell, guarded_of (by rw [hload]; rfl), wp_bind, wp_storeCell, guarded_of hstore, hload, Option.getD_some]
    have hmoved : Function.update (movedUp fb (x + y * 80)) (x + y * VGA_Width) (some v) = movedUp fb (x + 1 + y * 80) := by
      rw [show x + 1 + y * 80 = x + y * 80 + 1 by omega]
      exact movedUp_succ hv
    rw [hmoved]
    exact ih (by omega)

theorem wp_scrollLoop {n y : Nat} (hy : y + n = 23) :
    wp (scrollLoop n y) Q E ⟨movedUp fb (y * 80), row, column⟩ ↔ Q () ⟨movedUp fb 1840, row, column⟩ := by
  induction n generalizing y with
  | zero =>
    rw [show y * 80 = 1840 by omega]
    exact wp_pure ..
  | succ n ih =>
    unfold scrollLoop
    rw [wp_bind, show y * 80 = 0 + y * 80 by omega]
    exact (wp_scrollRowLoop hmapped (by omega) rfl).trans (ih (by omega))

theorem wp_vga_scroll_up_line :
    wp vga_scroll_up_line Q E ⟨fb, row, column⟩ ↔ Q () ⟨scrolled fb, 0, 23⟩ := by
  have hstart : fb = movedUp fb (0 * 80) := by
    funext k
    exact (if_neg (by omega)).symm
  have hlast : ∀ k, 1840 ≤ k → k < 1840 + 80 → (movedUp fb 1840 k).isSome := fun k hk hk' => by
    have hhere : movedUp fb 1840 k = fb k := if_neg (by omega)
    exact hhere ▸ hmapped k hk'
  unfold vga_scroll_up_line
  rw [wp_bind, wp_setCursor, wp_bind]
  nth_rewrite 1 [hstart]
  refine (wp_scrollLoop hmapped rfl).trans ?_
  rw [wp_clearCells]
  exact guarded_of hlast

end Scroll

/-! ## Characters -/

/-- The number of the cell under the cursor. -/
def place (s : Vga) : Nat := s.VGA_Cursor_Column * 80 + s.VGA_Cursor_Row

/-- The console after a character, before it scrolls. -/
def placed (s : Vga) (c : Byte) : Vga :=
  if c = newline then ⟨s.VGA_Framebuffer, 0, s.VGA_Cursor_Column + 1⟩
  else if c = tab then ⟨clearedFrom s.VGA_Framebuffer (place s) 4, s.VGA_Cursor_Row, s.VGA_Cursor_Column + 1⟩
  else ⟨Function.update s.VGA_Framebuffer (place s) (some (entryOf c)), (s.VGA_Cursor_Row + 1) % 80,
    if (s.VGA_Cursor_Row + 1) % 80 = 0 then s.VGA_Cursor_Column + 1 else s.VGA_Cursor_Column⟩

theorem placed_newline (s : Vga) : placed s newline = ⟨s.VGA_Framebuffer, 0, s.VGA_Cursor_Column + 1⟩ := if_pos rfl

theorem placed_tab (s : Vga) :
    placed s tab = ⟨clearedFrom s.VGA_Framebuffer (place s) 4, s.VGA_Cursor_Row, s.VGA_Cursor_Column + 1⟩ := by
  unfold placed
  rw [if_neg (by decide), if_pos rfl]

theorem placed_plain (s : Vga) {c : Byte} (hnewline : c ≠ newline) (htab : c ≠ tab) :
    placed s c = ⟨Function.update s.VGA_Framebuffer (place s) (some (entryOf c)), (s.VGA_Cursor_Row + 1) % 80,
      if (s.VGA_Cursor_Row + 1) % 80 = 0 then s.VGA_Cursor_Column + 1 else s.VGA_Cursor_Column⟩ := by
  unfold placed
  rw [if_neg hnewline, if_neg htab]

/-- The console scrolls when its cursor is below the last row. -/
def settled (s : Vga) : Vga := if s.VGA_Cursor_Column = 24 then ⟨scrolled s.VGA_Framebuffer, 0, 23⟩ else s

/-- The cursor is on the screen, and so much of the framebuffer is mapped. -/
structure OnScreen (s : Vga) : Prop where
  mapped : ∀ i < 1920, (s.VGA_Framebuffer i).isSome
  row : s.VGA_Cursor_Row < 80
  column : s.VGA_Cursor_Column < 24

theorem place_lt {s : Vga} (h : OnScreen s) : place s < 1920 := by
  have hrow := h.row
  have hcolumn := h.column
  unfold place
  omega

/-- The cells that a tab clears are mapped. -/
def TabMapped (s : Vga) : Prop := ∀ k, place s ≤ k → k < place s + 4 → (s.VGA_Framebuffer k).isSome

theorem wp_putCharacter {s : Vga} {c : Byte} (h : OnScreen s) :
    wp (putCharacter c s.VGA_Cursor_Row s.VGA_Cursor_Column (place s)) Q E s ↔
      Guarded (c = tab → TabMapped s) (Q () (placed s c)) (E .page_fault) := by
  unfold putCharacter
  by_cases hnewline : c = newline
  · have htab : c ≠ tab := by rw [hnewline]; decide
    rw [if_pos hnewline, wp_setCursor, guarded_of (fun h => absurd h htab), hnewline, placed_newline]
  · rw [if_neg hnewline]
    by_cases htab : c = tab
    · have hfits : s.VGA_Cursor_Column + VGA_Tab_Size < VGA_Width := by
        have hcolumn := h.column
        unfold VGA_Tab_Size VGA_Width
        omega
      rw [if_pos htab, if_pos hfits, wp_bind, wp_clearCells, wp_setCursor, htab, placed_tab]
      exact guarded_congr ⟨fun hmapped _ => hmapped, fun hmapped => hmapped rfl⟩ Iff.rfl
    · rw [if_neg htab, guarded_of (fun h => absurd h htab), wp_bind, wp_storeCell, guarded_of (h.mapped _ (place_lt h)),
        wp_setCursor, placed_plain s hnewline htab]
      rfl

theorem placed_mapped {s : Vga} {c : Byte} (h : OnScreen s) : ∀ i < 1920, ((placed s c).VGA_Framebuffer i).isSome := by
  intro i hi
  by_cases hnewline : c = newline
  · rw [hnewline, placed_newline]
    exact h.mapped i hi
  · by_cases htab : c = tab
    · rw [htab, placed_tab]
      simp only [clearedFrom]
      split
      · rfl
      · exact h.mapped i hi
    · rw [placed_plain s hnewline htab]
      by_cases hplace : i = place s
      · simp [hplace]
      · simp only [Function.update_of_ne hplace]
        exact h.mapped i hi

theorem wp_vga_putc_unlocked {s : Vga} {c : Byte} (h : OnScreen s) :
    wp (vga_putc_unlocked c) Q E s ↔ Guarded (c = tab → TabMapped s) (Q () (settled (placed s c))) (E .page_fault) := by
  have hindex : s.VGA_Cursor_Column * VGA_Width + s.VGA_Cursor_Row < VGA_Width * VGA_Height := place_lt h
  unfold vga_putc_unlocked settled
  rw [wp_bind, wp_get, wp_bind, wp_assert_decide hindex, wp_bind]
  refine (wp_putCharacter h).trans ?_
  rw [wp_bind, wp_get, wp_ite]
  by_cases hlast : (placed s c).VGA_Cursor_Column = 24
  · rw [if_pos (show _ = VGA_Height from hlast), if_pos hlast]
    exact guarded_congr Iff.rfl (wp_vga_scroll_up_line (placed_mapped h))
  · rw [if_neg (show _ ≠ VGA_Height from hlast), if_neg hlast, wp_pure]

theorem scrolled_mapped {i : Nat} (hmapped : ∀ i < 1920, (fb i).isSome) (hi : i < 1920) : (scrolled fb i).isSome := by
  unfold scrolled clearedFrom movedUp
  split
  · rfl
  · split
    · exact hmapped _ (by omega)
    · exact hmapped i hi

/-- The cursor as the number of its row and its place in the row. -/
def cursorOf (s : Vga) : Nat × Nat := (s.VGA_Cursor_Column, s.VGA_Cursor_Row)

theorem cursorOf_placed {s : Vga} {c : Byte} (h : OnScreen s) : cursorOf (placed s c) = movedCursor (cursorOf s) c := by
  have hrow := h.row
  unfold movedCursor
  by_cases hnewline : c = newline
  · rw [if_pos hnewline, hnewline, placed_newline]
    rfl
  · rw [if_neg hnewline]
    by_cases htab : c = tab
    · rw [if_pos htab, htab, placed_tab]
      rfl
    · rw [if_neg htab, placed_plain s hnewline htab]
      unfold cursorOf
      by_cases hwrap : s.VGA_Cursor_Row + 1 = 80
      · simp [hwrap]
      · have hmod : (s.VGA_Cursor_Row + 1) % 80 = s.VGA_Cursor_Row + 1 := Nat.mod_eq_of_lt (by omega)
        simp [hwrap, hmod]

theorem cursorOf_settled {s : Vga} {c : Byte} (h : OnScreen s) :
    cursorOf (settled (placed s c)) = nextCursor (cursorOf s) c := by
  unfold settled nextCursor
  rw [← cursorOf_placed h]
  by_cases hlast : (placed s c).VGA_Cursor_Column = 24
  · rw [if_pos hlast, if_pos (show (cursorOf (placed s c)).1 = 24 from hlast)]
    rfl
  · rw [if_neg hlast, if_neg (show (cursorOf (placed s c)).1 ≠ 24 from hlast)]

theorem settled_onScreen {s : Vga} {c : Byte} (h : OnScreen s) : OnScreen (settled (placed s c)) := by
  have hcursor : cursorOf (settled (placed s c)) = _ := cursorOf_settled h
  have hrow := h.row
  have hcolumn := h.column
  have hbounds : (nextCursor (cursorOf s) c).1 < 24 ∧ (nextCursor (cursorOf s) c).2 < 80 := by
    unfold nextCursor movedCursor cursorOf
    dsimp only
    split_ifs <;> omega
  refine ⟨fun i hi => ?_, ?_, ?_⟩
  · unfold settled
    split
    · exact scrolled_mapped (placed_mapped h) hi
    · exact placed_mapped h i hi
  · exact (congrArg Prod.snd hcursor).trans_lt hbounds.2
  · exact (congrArg Prod.fst hcursor).trans_lt hbounds.1

/-! ## Texts -/

/-- The console after some characters. -/
def afterBytes (s : Vga) (bytes : List Byte) : Vga := bytes.foldl (fun s c => settled (placed s c)) s

/-- Whatever tabs clear is mapped. -/
def TabsMapped (s : Vga) : List Byte → Prop
  | [] => True
  | c :: rest => (c = tab → TabMapped s) ∧ TabsMapped (settled (placed s c)) rest

theorem afterBytes_onScreen {s : Vga} (h : OnScreen s) (bytes : List Byte) : OnScreen (afterBytes s bytes) := by
  induction bytes generalizing s with
  | nil => exact h
  | cons c rest ih => exact ih (settled_onScreen h)

theorem afterBytes_append (s : Vga) (bytes rest : List Byte) :
    afterBytes s (bytes ++ rest) = afterBytes (afterBytes s bytes) rest := List.foldl_append ..

theorem tabsMapped_append {s : Vga} {bytes rest : List Byte} :
    TabsMapped s (bytes ++ rest) ↔ TabsMapped s bytes ∧ TabsMapped (afterBytes s bytes) rest := by
  induction bytes generalizing s with
  | nil => exact ⟨fun h => ⟨trivial, h⟩, fun h => h.2⟩
  | cons c bytes ih =>
    rw [List.cons_append, TabsMapped, TabsMapped, ih, and_assoc]
    rfl

theorem wp_writeLoop {s : Vga} (h : OnScreen s) {bytes : List Byte} :
    wp (writeLoop bytes) Q E s ↔ Guarded (TabsMapped s bytes) (Q () (afterBytes s bytes)) (E .page_fault) := by
  induction bytes generalizing s with
  | nil =>
    rw [guarded_of (show TabsMapped s [] from trivial)]
    exact wp_pure ..
  | cons c rest ih =>
    unfold writeLoop TabsMapped
    rw [wp_bind, wp_vga_putc_unlocked h, ih (settled_onScreen h), guarded_guarded]
    rfl

theorem wp_vga_write {s : Vga} (h : OnScreen s) {bytes : List Byte} {Q : Status → Locked Vga → Prop} :
    wp (vga_write bytes) Q E ⟨Lock_Clear, s⟩ ↔
      Guarded (TabsMapped s bytes) (Q .Ok ⟨Lock_Clear, afterBytes s bytes⟩) (E .page_fault) := by
  unfold vga_write
  rw [wp_bind, wp_acquireLock, wp_bind, wp_onState, wp_writeLoop h, wp_bind, wp_releaseLock, wp_pure]

theorem wp_vga_putc {s : Vga} (h : OnScreen s) {c : Byte} {Q : Unit → Locked Vga → Prop} :
    wp (vga_putc c) Q E ⟨Lock_Clear, s⟩ ↔
      Guarded (TabsMapped s [c]) (Q () ⟨Lock_Clear, afterBytes s [c]⟩) (E .page_fault) := by
  have htab : TabsMapped s [c] ↔ (c = tab → TabMapped s) := ⟨fun h => h.1, fun h => ⟨h, trivial⟩⟩
  unfold vga_putc
  rw [wp_bind, wp_acquireLock, wp_bind, wp_onState, wp_vga_putc_unlocked h, wp_releaseLock, htab]
  rfl

theorem wp_vgaCalls {s : Vga} (h : OnScreen s) {calls : List VgaCall} {Q : Unit → Locked Vga → Prop} :
    wp (vgaCalls calls) Q E ⟨Lock_Clear, s⟩ ↔ Guarded (TabsMapped s (calls.flatMap VgaCall.bytes))
      (Q () ⟨Lock_Clear, afterBytes s (calls.flatMap VgaCall.bytes)⟩) (E .page_fault) := by
  induction calls generalizing s with
  | nil =>
    have hnone : TabsMapped s (List.flatMap VgaCall.bytes []) := trivial
    rw [guarded_of hnone]
    exact wp_pure ..
  | cons call calls ih =>
    rw [List.flatMap_cons, afterBytes_append, tabsMapped_append, ← guarded_guarded]
    cases call with
    | write bytes =>
      unfold vgaCalls
      rw [wp_bind, wp_vga_write h, ih (afterBytes_onScreen h _)]
      rfl
    | putc c =>
      unfold vgaCalls
      rw [wp_bind, wp_vga_putc h, ih (afterBytes_onScreen h _)]
      rfl

/-! ## The end of the screen -/

section Screen

variable {s : Vga} {c : Byte} (h : OnScreen s) (honly : OnlyScreen s)
include h honly

theorem tabMapped_iff : TabMapped s ↔ ¬ (s.VGA_Cursor_Column = 23 ∧ 77 ≤ s.VGA_Cursor_Row) := by
  have hrow := h.row
  have hcolumn := h.column
  constructor
  · rintro hmapped ⟨hlast, hend⟩
    have hcell := (honly _).mp (hmapped (place s + 3) (by omega) (by omega))
    unfold place at hcell
    omega
  · intro hnot k hk hk'
    unfold place at hk hk'
    exact (honly k).mpr (by omega)

theorem onlyScreen_placed (htab : c = tab → TabMapped s) (i : Nat) (hi : 1920 ≤ i) : (placed s c).VGA_Framebuffer i = none := by
  have hnone : s.VGA_Framebuffer i = none := by
    rw [← Option.not_isSome_iff_eq_none, honly i]
    omega
  by_cases hnewline : c = newline
  · rw [hnewline, placed_newline]
    exact hnone
  · by_cases htabbed : c = tab
    · rw [htabbed, placed_tab]
      refine (if_neg ?_).trans hnone
      rintro ⟨hfrom, hto⟩
      have hcell := (honly i).mp (htab htabbed i hfrom hto)
      omega
    · have hplace := place_lt h
      rw [placed_plain s hnewline htabbed]
      exact (Function.update_of_ne (by omega) _ _).trans hnone

theorem onlyScreen_settled (htab : c = tab → TabMapped s) : OnlyScreen (settled (placed s c)) := by
  intro i
  refine ⟨fun hsome => ?_, fun hi => (settled_onScreen h).mapped i hi⟩
  by_contra hnot
  have hnone := onlyScreen_placed h honly htab i (by omega)
  have hsettled : (settled (placed s c)).VGA_Framebuffer i = none := by
    unfold settled
    split
    · unfold scrolled clearedFrom movedUp
      dsimp only
      rw [if_neg (by omega), if_neg (by omega), hnone]
    · exact hnone
  rw [hsettled] at hsome
  cases hsome

end Screen

theorem tabsMapped_iff {s : Vga} {bytes : List Byte} (h : OnScreen s) (honly : OnlyScreen s) :
    TabsMapped s bytes ↔ TabsFit (cursorOf s) bytes := by
  induction bytes generalizing s with
  | nil => exact Iff.rfl
  | cons c rest ih =>
    unfold TabsMapped TabsFit
    rw [← cursorOf_settled h]
    have hfirst : (c = tab → TabMapped s) ↔ (c = tab → ¬ ((cursorOf s).1 = 23 ∧ 77 ≤ (cursorOf s).2)) :=
      imp_congr_right fun _ => tabMapped_iff h honly
    rw [← hfirst]
    exact and_congr_right fun htab => ih (settled_onScreen h) (onlyScreen_settled h honly htab)

theorem onScreen_start {s : Vga} (honly : OnlyScreen s) (hcursor : cursorOf s = (0, 0)) : OnScreen s := by
  have hrow : s.VGA_Cursor_Row = 0 := congrArg Prod.snd hcursor
  have hcolumn : s.VGA_Cursor_Column = 0 := congrArg Prod.fst hcursor
  exact ⟨fun i hi => (honly i).mpr hi, by omega, by omega⟩

/-- From the start on, output stays on the screen exactly if no tab is written in its last three places. -/
theorem stays_on_screen_iff {s : Vga} {calls : List VgaCall} (honly : OnlyScreen s) (hcursor : cursorOf s = (0, 0)) :
    StaysOnScreen s calls ↔ TabsFit (0, 0) (calls.flatMap VgaCall.bytes) := by
  have h := onScreen_start honly hcursor
  rw [← hcursor, ← tabsMapped_iff h honly]
  constructor
  · rintro ⟨s', hrun⟩
    exact (guarded_false.mp ((wp_vgaCalls h).mp (run_eq_ok_iff.mp hrun))).1
  · intro htabs
    exact ⟨_, run_eq_ok_iff.mpr ((wp_vgaCalls h).mpr ((guarded_of htabs).mpr ⟨rfl, rfl⟩))⟩

/-- The console after `vga_framebuffer_clear`. -/
def blankScreen : Vga := ⟨fun i => if i < 1920 then some (entryOf space) else none, 0, 0⟩

theorem blankScreen_only : OnlyScreen blankScreen := by
  intro i
  unfold blankScreen
  by_cases hi : i < 1920
  · simp [hi]
  · simp [hi]

theorem tab_at_start_fits : OnlyScreen blankScreen ∧ StaysOnScreen blankScreen [.putc tab, .write [newline, tab]] :=
  ⟨blankScreen_only, (stays_on_screen_iff blankScreen_only rfl).mpr (by decide)⟩

/-- A text that goes to the place number 77 of the last row, and a tab. -/
def tabAtEnd : List Byte := List.replicate 23 newline ++ List.replicate 77 0x61 ++ [tab]

theorem tab_leaves_screen : OnlyScreen blankScreen ∧
    (vgaCalls [.write tabAtEnd]).run ⟨Lock_Clear, blankScreen⟩ = .error .page_fault ∧
    ¬ StaysOnScreen blankScreen [.write tabAtEnd] := by
  have hstart := onScreen_start blankScreen_only rfl
  have hnot : ¬ TabsMapped blankScreen ([VgaCall.write tabAtEnd].flatMap VgaCall.bytes) := by
    rw [tabsMapped_iff hstart blankScreen_only]
    decide +kernel
  have hrun : (vgaCalls [.write tabAtEnd]).run ⟨Lock_Clear, blankScreen⟩ = .error .page_fault :=
    run_eq_error_iff.mpr ((wp_vgaCalls hstart).mpr ⟨fun h => hnot h, fun _ => rfl⟩)
  refine ⟨blankScreen_only, hrun, ?_⟩
  rintro ⟨s', hrun'⟩
  rw [hrun] at hrun'
  cases hrun'

/-! ## What is on the screen -/

/-- Nothing has been written from the cursor on. -/
structure Tidy (l : Layout) : Prop where
  column : l.column < 80
  blank : ∀ row column, l.row < row ∨ row = l.row ∧ l.column ≤ column → l.cell row column = space

theorem write_of_ne {l : Layout} {c : Byte} {row column : Nat} (hne : row = l.row → column ≠ l.column) :
    (l.write c).cell row column = l.cell row column := by
  unfold Layout.write
  dsimp only
  by_cases hrow : row = l.row
  · rw [hrow, Function.update_self, Function.update_of_ne (hne hrow)]
  · rw [Function.update_of_ne hrow]

theorem write_self (l : Layout) (c : Byte) : (l.write c).cell l.row l.column = c := by
  unfold Layout.write
  dsimp only
  rw [Function.update_self, Function.update_self]

theorem tidy_put {l : Layout} {c : Byte} (h : Tidy l) : Tidy (l.put c) := by
  have hcolumn := h.column
  unfold Layout.put
  split
  · exact ⟨Nat.succ_pos 79, fun row column hlater => h.blank row column (by dsimp only at hlater; omega)⟩
  · unfold Layout.advance
    split
    · refine ⟨Nat.succ_pos 79, fun row column hlater => ?_⟩
      have hrow : (l.write c).row = l.row := rfl
      dsimp only at hlater ⊢
      rw [write_of_ne (by omega)]
      exact h.blank row column (by omega)
    · rename_i hnot
      have hrow : (l.write c).row = l.row := rfl
      have hplace : (l.write c).column = l.column := rfl
      refine ⟨by dsimp only; omega, fun row column hlater => ?_⟩
      dsimp only at hlater ⊢
      rw [write_of_ne (by omega)]
      exact h.blank row column (by omega)

theorem shows_onScreen {l : Layout} {s : Vga} (h : Shows l s) (htidy : Tidy l) : OnScreen s := by
  refine ⟨fun i hi => ?_, by rw [h.column]; exact htidy.column, by rw [h.row]; omega⟩
  have hcell := h.cells (i / 80) (by omega) (i % 80) (by omega)
  rw [show i % 80 + i / 80 * 80 = i by omega] at hcell
  rw [hcell]
  rfl

/-- A new row below the others, which may have to scroll. -/
theorem shows_newRow {l : Layout} {fb : Nat → Option (BitVec 16)} {row : Nat} (htidy : Tidy ⟨l.cell, l.row + 1, 0⟩)
    (hcells : ∀ y < 24, ∀ x < 80, fb (x + y * 80) = some (entryOf (l.cell (l.row - 23 + y) x)))
    (hrow : row = min l.row 23) : Shows ⟨l.cell, l.row + 1, 0⟩ (settled ⟨fb, 0, row + 1⟩) := by
  by_cases hlast : l.row < 23
  · have hstay : settled ⟨fb, 0, row + 1⟩ = ⟨fb, 0, row + 1⟩ := if_neg (by dsimp only; omega)
    rw [hstay]
    refine ⟨fun y hy x hx => ?_, by dsimp only; omega, rfl⟩
    dsimp only
    rw [hcells y hy x hx, show l.row - 23 + y = l.row + 1 - 23 + y by omega]
  · have hscroll : settled ⟨fb, 0, row + 1⟩ = ⟨scrolled fb, 0, 23⟩ := if_pos (by dsimp only; omega)
    rw [hscroll]
    refine ⟨fun y hy x hx => ?_, by dsimp only; omega, rfl⟩
    dsimp only
    unfold scrolled clearedFrom movedUp
    by_cases hbottom : y = 23
    · -- the last row is the new one
      have hblank := htidy.blank (l.row + 1) x (.inr ⟨rfl, Nat.zero_le _⟩)
      dsimp only at hblank
      rw [if_pos (by omega), show l.row + 1 - 23 + y = l.row + 1 by omega, hblank]
    · rw [if_neg (by omega), if_pos (by omega), show x + y * 80 + 80 = x + (y + 1) * 80 by omega,
        hcells (y + 1) (by omega) x hx, show l.row - 23 + (y + 1) = l.row + 1 - 23 + y by omega]

theorem shows_put {l : Layout} {s : Vga} {c : Byte} (h : Shows l s) (htidy : Tidy l) (htab : c ≠ tab) :
    Shows (l.put c) (settled (placed s c)) := by
  have hnext := tidy_put (c := c) htidy
  by_cases hnewline : c = newline
  · have hput : l.put newline = ⟨l.cell, l.row + 1, 0⟩ := if_pos rfl
    rw [hnewline, hput] at hnext
    rw [hnewline, hput, placed_newline]
    exact shows_newRow hnext h.cells h.row
  · have hcolumn := htidy.column
    have hput : l.put c = (l.write c).advance := if_neg hnewline
    -- the character is in the framebuffer and in the layout
    have hcells : ∀ y < 24, ∀ x < 80, Function.update s.VGA_Framebuffer (place s) (some (entryOf c)) (x + y * 80) =
        some (entryOf ((l.write c).cell (l.row - 23 + y) x)) := by
      intro y hy x hx
      have hplace : place s = l.column + min l.row 23 * 80 := by
        unfold place
        rw [h.row, h.column, Nat.add_comm]
      by_cases hhere : y = min l.row 23 ∧ x = l.column
      · rw [hhere.1, hhere.2, hplace, Function.update_self, show l.row - 23 + min l.row 23 = l.row by omega, write_self]
      · rw [Function.update_of_ne (by omega), h.cells y hy x hx, write_of_ne (by omega)]
    rw [placed_plain s hnewline htab, h.column]
    rw [hput] at hnext ⊢
    by_cases hwrap : l.column + 1 = 80
    · have hadvance : (l.write c).advance = ⟨(l.write c).cell, (l.write c).row + 1, 0⟩ := if_pos hwrap
      rw [hadvance] at hnext ⊢
      simp only [hwrap, Nat.mod_self, if_true]
      exact shows_newRow hnext hcells h.row
    · have hadvance : (l.write c).advance = ⟨(l.write c).cell, l.row, l.column + 1⟩ := if_neg hwrap
      have hmod : (l.column + 1) % 80 = l.column + 1 := Nat.mod_eq_of_lt (by omega)
      have hstay : ∀ fb, settled ⟨fb, l.column + 1, s.VGA_Cursor_Column⟩ = ⟨fb, l.column + 1, s.VGA_Cursor_Column⟩ :=
        fun fb => if_neg (by dsimp only; rw [h.row]; omega)
      rw [hadvance, hmod, if_neg (Nat.succ_ne_zero _), hstay]
      exact ⟨hcells, h.row, rfl⟩

theorem shows_bytes {l : Layout} {s : Vga} {bytes : List Byte} (h : Shows l s) (htidy : Tidy l) (htabs : tab ∉ bytes) :
    Shows (bytes.foldl Layout.put l) (afterBytes s bytes) ∧ Tidy (bytes.foldl Layout.put l) := by
  induction bytes generalizing l s with
  | nil => exact ⟨h, htidy⟩
  | cons c rest ih =>
    obtain ⟨hne, hrest⟩ := not_or.mp (mt List.mem_cons.mpr htabs)
    exact ih (shows_put h htidy (Ne.symm hne)) (tidy_put htidy) hrest

theorem tabsMapped_of_not_mem {s : Vga} {bytes : List Byte} (htabs : tab ∉ bytes) : TabsMapped s bytes := by
  induction bytes generalizing s with
  | nil => trivial
  | cons c rest ih =>
    obtain ⟨hne, hrest⟩ := not_or.mp (mt List.mem_cons.mpr htabs)
    exact ⟨fun heq => absurd heq.symm hne, ih hrest⟩

theorem wp_vgaWrites {l : Layout} {s : Vga} {writes : List (List Byte)} (h : Shows l s) (htidy : Tidy l)
    (htabs : ∀ bytes ∈ writes, tab ∉ bytes) : wp (vgaWrites writes) (fun statuses s' =>
      statuses = List.replicate writes.length .Ok ∧ s'.lock = Lock_Clear ∧
        Shows (writes.flatten.foldl Layout.put l) s'.state) E ⟨Lock_Clear, s⟩ := by
  induction writes generalizing l s with
  | nil => exact (wp_pure ..).mpr ⟨rfl, rfl, h⟩
  | cons bytes writes ih =>
    have hbytes := htabs bytes (List.mem_cons_self ..)
    obtain ⟨hshows, htidy'⟩ := shows_bytes h htidy hbytes
    unfold vgaWrites
    rw [wp_bind, wp_vga_write (shows_onScreen h htidy), guarded_of (tabsMapped_of_not_mem hbytes), wp_bind]
    refine wp_imp (ih hshows htidy' fun b hb => htabs b (List.mem_cons_of_mem _ hb)) ?_
    rintro statuses s' ⟨rfl, hlock, hshows'⟩
    refine (wp_pure ..).mpr ⟨rfl, hlock, ?_⟩
    rw [List.flatten_cons, List.foldl_append]
    exact hshows'

/-- `vga_framebuffer_clear` makes the start of the layout, when the cursor is at its initial place. -/
theorem framebuffer_clear_cleared (hmapped : ∀ i < 1920, (fb i).isSome) :
    ∃ s', vga_framebuffer_clear.run ⟨Lock_Clear, fb, 0, 0⟩ = .ok ((), ⟨Lock_Clear, s'⟩) ∧ Cleared s' := by
  have hcells : ∀ k, 0 ≤ k → k < 0 + 1920 → (fb k).isSome := fun k _ hk => hmapped k (by omega)
  refine ⟨⟨clearedFrom fb 0 1920, 0, 0⟩, ?_, fun i hi => if_pos (by omega), rfl, rfl⟩
  rw [run_eq_ok_iff]
  unfold vga_framebuffer_clear
  rw [wp_bind, wp_acquireLock, wp_bind, wp_onState, wp_clearCells]
  refine (guarded_of hcells).mpr ?_
  rw [wp_releaseLock]
  exact ⟨rfl, rfl⟩

theorem shows_cleared {s : Vga} (h : Cleared s) : Shows emptyLayout s :=
  ⟨fun y hy x hx => h.cells _ (by omega), h.column, h.row⟩

theorem tidy_empty : Tidy emptyLayout := ⟨by decide, fun _ _ _ => rfl⟩

/-- Any writes without tabs leave the end of the whole text on the screen, and the cursor behind it. -/
theorem console_shows_text {s : Vga} {writes : List (List Byte)} (h : Cleared s) (htabs : ∀ bytes ∈ writes, tab ∉ bytes) :
    ∃ s', (vgaWrites writes).run ⟨Lock_Clear, s⟩ = .ok (List.replicate writes.length .Ok, ⟨Lock_Clear, s'⟩) ∧
      Shows (layout writes.flatten) s' := by
  obtain ⟨statuses, ⟨lock, s'⟩, hrun, rfl, rfl, hshows⟩ := wp_total (wp_vgaWrites (shows_cleared h) tidy_empty htabs)
  exact ⟨s', hrun, hshows⟩

theorem blankScreen_cleared : Cleared blankScreen := ⟨fun _ hi => if_pos hi, rfl, rfl⟩

theorem two_writes_shown : Cleared blankScreen ∧ ∃ s',
    (vgaWrites [ascii "Kernel", newline :: ascii "of Truth"]).run ⟨Lock_Clear, blankScreen⟩ =
      .ok ([.Ok, .Ok], ⟨Lock_Clear, s'⟩) ∧ Shows (layout (ascii "Kernel" ++ newline :: ascii "of Truth")) s' :=
  ⟨blankScreen_cleared, console_shows_text blankScreen_cleared (by decide)⟩

end KernelOfTruth.Console
