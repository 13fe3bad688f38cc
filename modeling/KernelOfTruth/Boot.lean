import KernelOfTruth.PhysicalAllocator
import KernelOfTruth.Spec.Boot
import KernelOfTruth.WindowWalk

/-! # The page tables that the kernel boots with -/

open KernelOfTruth.Lib KernelOfTruth.Code KernelOfTruth.Code.Boot KernelOfTruth.Spec KernelOfTruth.Bits KernelOfTruth.Tables
  KernelOfTruth.Window

namespace KernelOfTruth.Boot

variable {l : BootLayout} {s : BootState} {f : Word} {i : Index}

/-! ## Entries -/

theorem setHalf_setHalf (w : Word) (low high : BitVec 32) : setHalf (setHalf w false low) true high = high ++ low := by
  have hlow : BitVec.extractLsb' 0 32 (w.extractLsb' 32 32 ++ low) = low := BitVec.extractLsb'_append_eq_right
  unfold setHalf
  simp only [Bool.false_eq_true, if_false, if_true]
  rw [hlow]

/-- An address of a page with flags in its low bits. -/
theorem page_append (k : Nat) {b : Nat} (hb : b < 4096) :
    BitVec.ofNat 32 (4096 * k + b) = (BitVec.ofNat 20 k ++ BitVec.ofNat 12 b : BitVec 32) := by
  apply BitVec.eq_of_toNat_eq
  have hlow : b % 2 ^ 12 < 2 ^ 12 := Nat.mod_lt _ (by decide)
  rw [BitVec.toNat_append, BitVec.toNat_ofNat, BitVec.toNat_ofNat, BitVec.toNat_ofNat, ← Nat.shiftLeft_add_eq_or_of_lt hlow,
    Nat.shiftLeft_eq]
  omega

theorem page_and (k : Nat) {b : Nat} (hb : b < 4096) (mask : BitVec 12) :
    BitVec.ofNat 32 (4096 * k + b) &&& (BitVec.allOnes 20 ++ mask : BitVec 32) =
      (BitVec.ofNat 20 k ++ (BitVec.ofNat 12 b &&& mask) : BitVec 32) := by
  rw [page_append k hb]
  exact BitVec.and_append.trans (by rw [BitVec.and_allOnes])

theorem page_unwritable (k : Nat) :
    BitVec.ofNat 32 (4096 * k + 3) &&& Asm_Memory_Writable_Mask = BitVec.ofNat 32 (4096 * k + 1) := by
  rw [page_append k (b := 1) (by decide)]
  exact page_and k (by decide) 0xffd

theorem page_writable (k : Nat) :
    BitVec.ofNat 32 (4096 * k + 1) ||| Asm_Memory_Writable = BitVec.ofNat 32 (4096 * k + 3) := by
  rw [page_append k (b := 1) (by decide), page_append k (b := 3) (by decide)]
  have hmask : Asm_Memory_Writable = (0#20 ++ 2#12 : BitVec 32) := by decide
  rw [hmask, BitVec.or_append, BitVec.or_zero]
  rfl

theorem present_eq (e : Word) : present e = e.getLsbD 0 := by
  have hmask : Memory_Present = 1#64 := by decide
  unfold present
  rw [hmask, BitVec.and_one_eq_setWidth_ofBool_getLsbD]
  cases e.getLsbD 0 <;> rfl

/-- The high half of an entry has one flag at most. -/
def HighHalf (high : BitVec 32) : Prop := high = 0 ∨ high = Page_Execute_Disable_High

section Entry

variable {high : BitVec 32} {k b : Nat}

theorem present_entry (hodd : b % 2 = 1) : present (high ++ BitVec.ofNat 32 (4096 * k + b)) = true := by
  rw [present_eq, BitVec.getLsbD_append, if_pos (by decide), BitVec.getLsbD_ofNat]
  simp [Nat.testBit_zero]
  omega

theorem entry_phys (h : HighHalf high) (hk : k < 2 ^ 20) (hb : b < 4096) :
    page_entry_to_phys (high ++ BitVec.ofNat 32 (4096 * k + b)) = BitVec.ofNat 64 (4096 * k) := by
  have hmask : Phys_Addr_Mask = (0xfffff#32 ++ (BitVec.allOnes 20 ++ 0#12 : BitVec 32) : BitVec 64) := by decide
  have hhigh : high &&& 0xfffff#32 = 0#32 := by
    rcases h with rfl | rfl <;> decide
  have hlow : (BitVec.ofNat 20 k ++ (BitVec.ofNat 12 b &&& 0#12) : BitVec 32) = BitVec.ofNat 32 (4096 * k) := by
    rw [BitVec.and_zero]
    exact (page_append k (by decide)).symm
  unfold page_entry_to_phys
  rw [hmask]
  refine BitVec.and_append.trans ?_
  rw [hhigh, page_and k hb, hlow]
  apply BitVec.eq_of_toNat_eq
  simp only [BitVec.toNat_append, BitVec.toNat_ofNat, Nat.zero_mod, Nat.zero_shiftLeft, Nat.zero_or]
  omega

theorem entry_permissions (h : HighHalf high) (hb : b < 4096) :
    (high ++ BitVec.ofNat 32 (4096 * k + b) : Word) &&& Memory_Permissions_Mask = high ++ BitVec.ofNat 32 b := by
  have hmask : Memory_Permissions_Mask = (0x80000000#32 ++ (0#20 ++ BitVec.allOnes 12 : BitVec 32) : BitVec 64) := by decide
  have hhigh : high &&& 0x80000000#32 = high := by
    rcases h with rfl | rfl <;> decide
  have hlow : BitVec.ofNat 32 (4096 * k + b) &&& (0#20 ++ BitVec.allOnes 12 : BitVec 32) = BitVec.ofNat 32 b := by
    rw [page_append k hb]
    refine BitVec.and_append.trans ?_
    rw [BitVec.and_allOnes, BitVec.and_zero]
    have hzero := page_append 0 hb
    rw [Nat.mul_zero, Nat.zero_add] at hzero
    exact hzero.symm
  rw [hmask]
  refine BitVec.and_append.trans ?_
  rw [hhigh, hlow]

theorem leafValue_entry (h : HighHalf high) (hk : k < 2 ^ 20) (hb : b < 4096) (hodd : b % 2 = 1) :
    leafValue (high ++ BitVec.ofNat 32 (4096 * k + b)) = some (BitVec.ofNat 64 (4096 * k), high ++ BitVec.ofNat 32 b) := by
  unfold leafValue
  rw [if_pos (present_entry hodd), entry_phys h hk hb, entry_permissions h hb]

end Entry

/-- The address is one of the two halves of entry `j` of the table at `base`. -/
structure HalfAt (base : BitVec 32) (j : Nat) (high : Bool) (address : BitVec 32) : Prop where
  aligned : base.toNat % 4096 = 0
  lt : j < 512
  address : address.toNat = base.toNat + 8 * j + if high then 4 else 0

variable {base address v : BitVec 32} {j : Nat} {high : Bool}

theorem HalfAt.frame (h : HalfAt base j high address) : (address >>> 12 <<< 12).setWidth 64 = base.setWidth 64 := by
  have haligned := h.aligned
  have hlt := h.lt
  have haddress := h.address
  have hhalf : (if high then 4 else 0) ≤ 4 := by split <;> omega
  congr 1
  apply BitVec.eq_of_toNat_eq
  rw [BitVec.toNat_shiftLeft, BitVec.toNat_ushiftRight, Nat.shiftRight_eq_div_pow, Nat.shiftLeft_eq]
  have := base.isLt
  omega

theorem HalfAt.index (h : HalfAt base j high address) : address.extractLsb' 3 9 = BitVec.ofNat 9 j := by
  have haligned := h.aligned
  have hlt := h.lt
  have haddress := h.address
  have hhalf : (if high then 4 else 0) ≤ 4 := by split <;> omega
  apply BitVec.eq_of_toNat_eq
  rw [BitVec.extractLsb'_toNat, BitVec.toNat_ofNat, Nat.shiftRight_eq_div_pow]
  omega

theorem HalfAt.half (h : HalfAt base j high address) : address.getLsbD 2 = high := by
  have haligned := h.aligned
  have haddress := h.address
  rw [BitVec.getLsbD, Nat.testBit_eq_decide_div_mod_eq]
  cases high <;> simp at haddress ⊢ <;> omega

theorem HalfAt.movl (h : HalfAt base j high address) : (s.movl v address).mem f i =
    if f = base.setWidth 64 ∧ i = BitVec.ofNat 9 j then setHalf (s.mem f i) high v else s.mem f i := by
  unfold BootState.movl
  dsimp only
  rw [h.frame, h.index, h.half, setWord]
  split
  · rename_i heq
    rw [heq.1, heq.2]
  · rfl

/-! ## The loops -/

/-- The loops are at page `k`, which is entry `k` of the last table, with the flags `b`. -/
structure AtPage (l : BootLayout) (k b : Nat) (s : BootState) : Prop where
  edi : s.edi.toNat = l.init_pl1.toNat + 8 * k
  esi : s.esi = BitVec.ofNat 32 (4096 * k + b)

/-- The last table is a page of the kernel. -/
structure LastTable (l : BootLayout) : Prop where
  aligned : l.init_pl1.toNat % 4096 = 0
  lt : l.init_pl1.toNat + 4096 < 2 ^ 32

section Loops

variable {k b n : Nat}

theorem mapPage_mem (ht : LastTable l) (h : AtPage l k b s) (hk : k < 512) : s.mapPage.mem f i =
    if f = l.init_pl1.setWidth 64 ∧ i = BitVec.ofNat 9 k then s.edx ++ s.esi else s.mem f i := by
  have hlow : HalfAt l.init_pl1 k false s.edi := ⟨ht.aligned, hk, by simpa using h.edi⟩
  have hhigh : HalfAt l.init_pl1 k true (s.edi + 4) := by
    have hlt := ht.lt
    have hedi := h.edi
    refine ⟨ht.aligned, hk, ?_⟩
    rw [BitVec.toNat_add, if_pos rfl, hedi]
    exact Nat.mod_eq_of_lt (by simp; omega)
  unfold BootState.mapPage
  refine hhigh.movl.trans ?_
  simp only [hlow.movl]
  split
  · exact setHalf_setHalf ..
  · rfl

theorem AtPage.mapPage (ht : LastTable l) (h : AtPage l k b s) (hk : k < 512) : AtPage l (k + 1) b s.mapPage := by
  constructor
  · have hlt := ht.lt
    have hedi : (s.edi + 4 + 4).toNat = l.init_pl1.toNat + 8 * (k + 1) := by
      rw [BitVec.add_assoc, BitVec.toNat_add, h.edi]
      exact (Nat.mod_eq_of_lt (by simp; omega)).trans (by simp; omega)
    exact hedi
  · have hesi : s.esi + 0x1000 = BitVec.ofNat 32 (4096 * (k + 1) + b) := by
      rw [h.esi, show 4096 * (k + 1) + b = 4096 * k + b + 0x1000 by omega, BitVec.ofNat_add _ 0x1000]
      rfl
    exact hesi

theorem mapPages_spec (ht : LastTable l) (h : AtPage l k b s) (hn : k + n ≤ 512) :
    AtPage l (k + n) b (mapPages n s) ∧ (mapPages n s).cr3 = s.cr3 ∧ ∀ f i, (mapPages n s).mem f i =
      if f = l.init_pl1.setWidth 64 ∧ k ≤ i.toNat ∧ i.toNat < k + n then s.edx ++ BitVec.ofNat 32 (4096 * i.toNat + b)
      else s.mem f i := by
  induction n generalizing k s with
  | zero => exact ⟨h, rfl, fun f i => (if_neg (by omega)).symm⟩
  | succ n ih =>
    obtain ⟨hat, hcr3, hmem⟩ := ih (h.mapPage ht (by omega)) (by omega)
    rw [Nat.add_right_comm] at hat
    refine ⟨hat, hcr3, fun f i => ?_⟩
    have hindex : i = BitVec.ofNat 9 k ↔ i.toNat = k := by
      rw [← BitVec.toNat_inj, BitVec.toNat_ofNat, Nat.mod_eq_of_lt (by omega)]
    rw [mapPages, hmem, mapPage_mem ht h (by omega)]
    by_cases hf : f = l.init_pl1.setWidth 64
    · by_cases hi : i.toNat = k
      · rw [if_neg (by omega), if_pos ⟨hf, hindex.mpr hi⟩, if_pos ⟨hf, by omega⟩, h.esi, hi]
      · have hnot : ¬(f = l.init_pl1.setWidth 64 ∧ i = BitVec.ofNat 9 k) := fun hand => hi (hindex.mp hand.2)
        have hedx : s.mapPage.edx = s.edx := rfl
        rw [if_neg hnot, hedx]
        exact if_congr (and_congr_right fun _ => by omega) rfl rfl
    · rw [if_neg fun hand => hf hand.1, if_neg fun hand => hf hand.1, if_neg fun hand => hf hand.1]

theorem AtPage.unwritable (h : AtPage l k 3 s) : AtPage l k 1 { s with esi := s.esi &&& Asm_Memory_Writable_Mask } :=
  ⟨h.edi, by rw [h.esi]; exact page_unwritable k⟩

theorem AtPage.writable (h : AtPage l k 1 s) : AtPage l k 3 { s with esi := s.esi ||| Asm_Memory_Writable } :=
  ⟨h.edi, by rw [h.esi]; exact page_writable k⟩

/-- What one loop does: the pages `k` to `k + n` are mapped, with the flags `b` and the high half `high`. -/
structure SectionMapped (l : BootLayout) (k n b : Nat) (high : BitVec 32) (s s' : BootState) : Prop where
  at_page : AtPage l (k + n) b s'
  cr3 : s'.cr3 = s.cr3
  mem : ∀ f i, s'.mem f i =
    if f = l.init_pl1.setWidth 64 ∧ k ≤ i.toNat ∧ i.toNat < k + n then high ++ BitVec.ofNat 32 (4096 * i.toNat + b)
    else s.mem f i

theorem mapped_loop (ht : LastTable l) (h : AtPage l k b s) (hpos : 0 < n) (hn : k + n ≤ 512)
    (hecx : s.ecx = BitVec.ofNat 32 n) : SectionMapped l k n b s.edx s s.loop := by
  have hcount : (s.ecx - 1).toNat + 1 = n := by
    rw [hecx]
    bv_omega
  have hspec := mapPages_spec ht h hn
  unfold BootState.loop
  rw [hcount]
  exact ⟨⟨hspec.1.edi, hspec.1.esi⟩, hspec.2.1, hspec.2.2⟩

theorem mapped_section (high start stop : BitVec 32) (ht : LastTable l) (h : AtPage l k b s) (hpos : 0 < n) (hn : k + n ≤ 512)
    (hstart : start.toNat = 4096 * k) (hstop : stop.toNat = 4096 * (k + n)) :
    SectionMapped l k n b high s (s.mapSection high start stop) := by
  have hecx : (stop - start) >>> 12 = BitVec.ofNat 32 n := by
    apply BitVec.eq_of_toNat_eq
    rw [BitVec.toNat_ushiftRight, Nat.shiftRight_eq_div_pow, BitVec.toNat_ofNat]
    have hsub : (stop - start).toNat = 4096 * n := by bv_omega
    omega
  have hloop := mapped_loop (s := { s with edx := high, ecx := (stop - start) >>> 12 }) ht ⟨h.edi, h.esi⟩ hpos hn hecx
  exact ⟨hloop.at_page, hloop.cr3, hloop.mem⟩

end Loops

/-! ## The sections -/

def sectionHigh (l : BootLayout) (address : Nat) : BitVec 32 :=
  if 0x100000 ≤ address ∧ address < l.text_end.toNat then 0 else Page_Execute_Disable_High

def sectionFlags (l : BootLayout) (address : Nat) : Nat :=
  if address < 0x100000 then 3
  else if address < l.text_end.toNat then 1
  else if address < l.data_end.toNat then 3
  else if address < l.rodata_end.toNat then 1
  else 3

theorem sectionHigh_spec (l : BootLayout) (address : Nat) : HighHalf (sectionHigh l address) := by
  unfold sectionHigh
  split
  · exact .inl rfl
  · exact .inr rfl

theorem sectionFlags_spec (l : BootLayout) (address : Nat) : sectionFlags l address = 1 ∨ sectionFlags l address = 3 := by
  unfold sectionFlags
  split_ifs <;> simp

theorem sectionPermissions_eq (l : BootLayout) (address : Nat) :
    sectionPermissions l address = sectionHigh l address ++ BitVec.ofNat 32 (sectionFlags l address) := by
  unfold sectionPermissions sectionHigh sectionFlags
  split_ifs <;> first | omega | decide

theorem lastTable_of_linked (h : Linked l) : LastTable l := by
  have hbelow := h.below
  have hfits := h.fits
  have htables := h.tables
  have hpl1 : l.init_pl1.toNat = l.init_pl4.toNat + 0x3000 := by
    unfold BootLayout.init_pl1
    bv_omega
  constructor <;> omega

/-- The entry for the page `k`. -/
def pageEntry (l : BootLayout) (k : Nat) : Word :=
  sectionHigh l (4096 * k) ++ BitVec.ofNat 32 (4096 * k + sectionFlags l (4096 * k))

/-- The pages below `k` are mapped as their sections want it, and no other entry of any table has changed. -/
structure Filled (l : BootLayout) (k : Nat) (s s' : BootState) : Prop where
  cr3 : s'.cr3 = s.cr3
  mem : ∀ f i, s'.mem f i =
    if f = l.init_pl1.setWidth 64 ∧ 0 < i.toNat ∧ i.toNat < k then pageEntry l i.toNat else s.mem f i

theorem Filled.extend {k n b : Nat} {high : BitVec 32} {s₀ s' : BootState} (h : Filled l k s₀ s) (hk : 0 < k)
    (hm : SectionMapped l k n b high s s')
    (hsection : ∀ j, k ≤ j → j < k + n → sectionHigh l (4096 * j) = high ∧ sectionFlags l (4096 * j) = b) :
    Filled l (k + n) s₀ s' := by
  refine ⟨hm.cr3.trans h.cr3, fun f i => ?_⟩
  rw [hm.mem, h.mem]
  by_cases hf : f = l.init_pl1.setWidth 64
  · by_cases hi : k ≤ i.toNat ∧ i.toNat < k + n
    · obtain ⟨hhigh, hflags⟩ := hsection i.toNat hi.1 hi.2
      rw [if_pos ⟨hf, hi⟩, if_pos ⟨hf, by omega⟩, pageEntry, hhigh, hflags]
    · rw [if_neg fun hand => hi hand.2]
      exact if_congr (and_congr_right fun _ => by omega) rfl rfl
  · rw [if_neg fun hand => hf hand.1, if_neg fun hand => hf hand.1, if_neg fun hand => hf hand.1]

theorem Filled.flags {k : Nat} {esi : BitVec 32} {s₀ : BootState} (h : Filled l k s₀ s) : Filled l k s₀ { s with esi := esi } :=
  ⟨h.cr3, h.mem⟩

theorem mapMemory_spec (h : Linked l) : Filled l (l.bss_end.toNat / 4096) s (s.mapMemory l) := by
  have ht := lastTable_of_linked h
  obtain ⟨t, htext⟩ := Nat.dvd_of_mod_eq_zero h.text_end
  obtain ⟨d, hdata⟩ := Nat.dvd_of_mod_eq_zero h.data_end
  obtain ⟨r, hrodata⟩ := Nat.dvd_of_mod_eq_zero h.rodata_end
  obtain ⟨z, hbss⟩ := Nat.dvd_of_mod_eq_zero h.bss_end
  have h256 := h.text
  have htd := h.data
  have hdr := h.rodata
  have hrz := h.bss
  have h512 := h.fits
  have a₀ : AtPage l 1 3 { s with
      edi := l.init_pl1 + 8, esi := 0x1000 ||| Page_Present ||| Page_Write, edx := Page_Execute_Disable_High, ecx := 0xff } := by
    refine ⟨?_, rfl⟩
    have hlt := ht.lt
    show (l.init_pl1 + 8).toNat = _
    bv_omega
  have f₀ : Filled l 1 s { s with
      edi := l.init_pl1 + 8, esi := 0x1000 ||| Page_Present ||| Page_Write, edx := Page_Execute_Disable_High, ecx := 0xff } :=
    ⟨rfl, fun f i => (if_neg (by omega)).symm⟩
  -- each section starts where the one before it ends
  obtain ⟨n₁, rfl⟩ : ∃ n, t = 256 + n := ⟨t - 256, by omega⟩
  obtain ⟨n₂, rfl⟩ : ∃ n, d = 256 + n₁ + n := ⟨d - (256 + n₁), by omega⟩
  obtain ⟨n₃, rfl⟩ : ∃ n, r = 256 + n₁ + n₂ + n := ⟨r - (256 + n₁ + n₂), by omega⟩
  obtain ⟨n₄, rfl⟩ : ∃ n, z = 256 + n₁ + n₂ + n₃ + n := ⟨z - (256 + n₁ + n₂ + n₃), by omega⟩
  have m₁ := mapped_loop (n := 255) ht a₀ (by decide) (by decide) rfl
  have f₁ := f₀.extend (by decide) m₁ fun j hle hlt => by
    rw [sectionHigh, sectionFlags, if_neg (by omega), if_pos (by omega)]
    exact ⟨rfl, rfl⟩
  have m₂ := mapped_section (n := n₁) 0 l.text_start l.text_end ht m₁.at_page.unwritable (by omega) (by omega)
    (by rw [h.text_start]; rfl) htext
  have f₂ := f₁.flags.extend (by decide) m₂ fun j hle hlt => by
    rw [sectionHigh, sectionFlags, if_pos (by omega), if_neg (by omega), if_pos (by omega)]
    exact ⟨rfl, rfl⟩
  have m₃ := mapped_section (n := n₂) Page_Execute_Disable_High l.data_start l.data_end ht m₂.at_page.writable
    (by omega) (by omega) (by rw [h.data_start]; exact htext) hdata
  have f₃ := f₂.flags.extend (by omega) m₃ fun j hle hlt => by
    rw [sectionHigh, sectionFlags, if_neg (by omega), if_neg (by omega), if_neg (by omega), if_pos (by omega)]
    exact ⟨rfl, rfl⟩
  have m₄ := mapped_section (n := n₃) Page_Execute_Disable_High l.rodata_start l.rodata_end ht m₃.at_page.unwritable
    (by omega) (by omega) (by rw [h.rodata_start]; exact hdata) hrodata
  have f₄ := f₃.flags.extend (by omega) m₄ fun j hle hlt => by
    rw [sectionHigh, sectionFlags, if_neg (by omega), if_neg (by omega), if_neg (by omega), if_neg (by omega), if_pos (by omega)]
    exact ⟨rfl, rfl⟩
  have m₅ := mapped_section (n := n₄) Page_Execute_Disable_High l.bss_start l.bss_end ht m₄.at_page.writable
    (by omega) (by omega) (by rw [h.bss_start]; exact hrodata) hbss
  have f₅ := f₄.flags.extend (by omega) m₅ fun j hle hlt => by
    rw [sectionHigh, sectionFlags, if_neg (by omega), if_neg (by omega), if_neg (by omega), if_neg (by omega), if_neg (by omega)]
    exact ⟨rfl, rfl⟩
  rw [hbss, Nat.mul_div_cancel_left _ (by decide)]
  exact f₅

/-! ## The tables -/

/-- The tables and the top page of the stack are the pages from `init_pl4` on. -/
theorem page_toNat (h : Linked l) {k : Nat} (hk : k < 10) :
    (l.init_pl4 + BitVec.ofNat 32 (4096 * k)).toNat = l.init_pl4.toNat + 4096 * k := by
  have hbelow := h.below
  have hfits := h.fits
  rw [BitVec.toNat_add, BitVec.toNat_ofNat]
  omega

theorem page_inj (h : Linked l) {j k : Nat} (hj : j < 10) (hk : k < 10) :
    (l.init_pl4 + BitVec.ofNat 32 (4096 * j)).setWidth 64 = (l.init_pl4 + BitVec.ofNat 32 (4096 * k)).setWidth 64 ↔ j = k := by
  have hbelow := h.below
  have hfits := h.fits
  rw [← BitVec.toNat_inj, BitVec.toNat_setWidth, BitVec.toNat_setWidth, page_toNat h hj, page_toNat h hk]
  omega

/-- The address is one half of entry `j` of the page `k` from `init_pl4` on. -/
structure EntryHalf (l : BootLayout) (k j : Nat) (high : Bool) (address : BitVec 32) : Prop where
  page_lt : k < 10
  entry_lt : j < 512
  address : address = l.init_pl4 + BitVec.ofNat 32 (4096 * k + 8 * j + if high then 4 else 0)

theorem EntryHalf.halfAt {k j : Nat} (h : Linked l) (hhalf : EntryHalf l k j high address) :
    HalfAt (l.init_pl4 + BitVec.ofNat 32 (4096 * k)) j high address := by
  have hbelow := h.below
  have hfits := h.fits
  have htables := h.tables
  have hk := hhalf.page_lt
  have hj := hhalf.entry_lt
  have hpage := page_toNat h hk
  refine ⟨by omega, hj, ?_⟩
  rw [hpage, hhalf.address, BitVec.toNat_add, BitVec.toNat_ofNat]
  split <;> omega

/-- The frame of the page `k` from `init_pl4` on. -/
def tableFrame (l : BootLayout) (k : Nat) : Word := (l.init_pl4 + BitVec.ofNat 32 (4096 * k)).setWidth 64

theorem EntryHalf.movl {k j : Nat} (h : Linked l) (hhalf : EntryHalf l k j high address) :
    (s.movl v address).mem (tableFrame l k) i =
      if i = BitVec.ofNat 9 j then setHalf (s.mem (tableFrame l k) i) high v else s.mem (tableFrame l k) i := by
  rw [(hhalf.halfAt h).movl]
  exact if_congr (and_iff_right rfl) rfl rfl

theorem EntryHalf.movl_other {k j n : Nat} (h : Linked l) (hhalf : EntryHalf l k j high address) (hn : n < 10) (hne : n ≠ k) :
    (s.movl v address).mem (tableFrame l n) i = s.mem (tableFrame l n) i := by
  rw [(hhalf.halfAt h).movl]
  exact if_neg fun hand => hne ((page_inj h hn hhalf.page_lt).mp hand.1)

theorem link_pl4_first : EntryHalf l 0 0 false l.init_pl4 := ⟨by decide, by decide, (BitVec.add_zero _).symm⟩
theorem link_pl4_last : EntryHalf l 0 511 false (l.init_pl4 + 511 * 8) := ⟨by decide, by decide, rfl⟩
theorem link_pl3_first : EntryHalf l 1 0 false l.init_pl3 := ⟨by decide, by decide, rfl⟩
theorem link_pl3_kernel : EntryHalf l 1 510 false (l.init_pl3 + 510 * 8) := ⟨by decide, by decide, BitVec.add_assoc _ _ _⟩
theorem link_pl2_first : EntryHalf l 2 0 false l.init_pl2 := ⟨by decide, by decide, rfl⟩
theorem link_fractal_low : EntryHalf l 0 256 false (l.init_pl4 + 256 * 8) := ⟨by decide, by decide, rfl⟩
theorem link_fractal_high : EntryHalf l 0 256 true (l.init_pl4 + 256 * 8 + 4) := ⟨by decide, by decide, BitVec.add_assoc _ _ _⟩
theorem pushed_high : EntryHalf l 9 511 true (l._init_stack_top - 4) :=
  ⟨by decide, by decide, by rw [BootLayout._init_stack_top, BitVec.sub_eq_add_neg, BitVec.add_assoc]; rfl⟩
theorem pushed_low : EntryHalf l 9 511 false (l._init_stack_top - 4 - 4) :=
  ⟨by decide, by decide, by
    rw [BootLayout._init_stack_top, BitVec.sub_eq_add_neg, BitVec.sub_eq_add_neg, BitVec.add_assoc, BitVec.add_assoc]; rfl⟩

/-- The link to another table. -/
def link (high table flags : BitVec 32) : Word := high ++ (table + flags)

theorem user_flags : Page_User ||| Page_Write ||| Page_Present = 7 := by decide

theorem kernel_flags : Page_Write ||| Page_Present = 3 := by decide

theorem setHalf_zero (v : BitVec 32) : setHalf 0 false v = 0#32 ++ v := rfl

/-- The entries of the four tables. -/
structure Booted (l : BootLayout) (mem : Word → Index → Word) : Prop where
  root : ∀ i, mem (tableFrame l 0) i = if i = 0#9 ∨ i = 511#9 then link 0 l.init_pl3 7
    else if i = 256#9 then link Page_Execute_Disable_High l.init_pl4 3 else 0
  third : ∀ i, mem (tableFrame l 1) i = if i = 0#9 ∨ i = 510#9 then link 0 l.init_pl2 7 else 0
  second : ∀ i, mem (tableFrame l 2) i = if i = 0#9 then link 0 l.init_pl1 3 else 0
  first : ∀ i, mem (tableFrame l 3) i =
    if 0 < i.toNat ∧ i.toNat < l.bss_end.toNat / 4096 then pageEntry l i.toNat else 0

section Link

variable (h : Linked l) (hclear : ∀ k < 4, ∀ i, s.mem (tableFrame l k) i = 0)
include h hclear

theorem linkTables_root (i : Index) : (s.linkTables l).mem (tableFrame l 0) i = if i = 0#9 ∨ i = 511#9 then link 0 l.init_pl3 7
    else if i = 256#9 then link Page_Execute_Disable_High l.init_pl4 3 else 0 := by
  unfold BootState.linkTables
  dsimp only
  rw [link_fractal_high.movl h, link_fractal_low.movl h, link_pl2_first.movl_other h (by decide) (by decide),
    link_pl3_kernel.movl_other h (by decide) (by decide), link_pl3_first.movl_other h (by decide) (by decide),
    link_pl4_last.movl h, link_pl4_first.movl h, hclear 0 (by decide), user_flags, kernel_flags]
  by_cases h256 : i = 256#9
  · have hother : ¬(i = 0#9 ∨ i = 511#9) := by
      rw [h256]
      decide
    rw [if_pos h256, if_pos h256, if_neg hother, if_pos h256]
    exact setHalf_setHalf ..
  · rw [if_neg h256, if_neg h256, if_neg h256]
    by_cases h511 : i = 511#9
    · have h0 : ¬i = 0#9 := by
        rw [h511]
        decide
      rw [if_pos h511, if_neg h0, if_pos (.inr h511)]
      exact setHalf_zero _
    · rw [if_neg h511]
      exact if_congr (or_iff_left h511).symm (setHalf_zero _) rfl

theorem linkTables_third (i : Index) : (s.linkTables l).mem (tableFrame l 1) i =
    if i = 0#9 ∨ i = 510#9 then link 0 l.init_pl2 7 else 0 := by
  unfold BootState.linkTables
  dsimp only
  rw [link_fractal_high.movl_other h (by decide) (by decide), link_fractal_low.movl_other h (by decide) (by decide),
    link_pl2_first.movl_other h (by decide) (by decide), link_pl3_kernel.movl h, link_pl3_first.movl h,
    link_pl4_last.movl_other h (by decide) (by decide), link_pl4_first.movl_other h (by decide) (by decide), hclear 1 (by decide),
    user_flags]
  by_cases h510 : i = 510#9
  · have h0 : ¬i = 0#9 := by
      rw [h510]
      decide
    rw [if_pos h510, if_neg h0, if_pos (.inr h510)]
    exact setHalf_zero _
  · rw [if_neg h510]
    exact if_congr (or_iff_left h510).symm (setHalf_zero _) rfl

theorem linkTables_second (i : Index) : (s.linkTables l).mem (tableFrame l 2) i = if i = 0#9 then link 0 l.init_pl1 3 else 0 := by
  unfold BootState.linkTables
  dsimp only
  rw [link_fractal_high.movl_other h (by decide) (by decide), link_fractal_low.movl_other h (by decide) (by decide),
    link_pl2_first.movl h, link_pl3_kernel.movl_other h (by decide) (by decide),
    link_pl3_first.movl_other h (by decide) (by decide), link_pl4_last.movl_other h (by decide) (by decide),
    link_pl4_first.movl_other h (by decide) (by decide), hclear 2 (by decide), kernel_flags]
  exact if_congr Iff.rfl (setHalf_zero _) rfl

theorem linkTables_first (i : Index) : (s.linkTables l).mem (tableFrame l 3) i = 0 := by
  unfold BootState.linkTables
  dsimp only
  rw [link_fractal_high.movl_other h (by decide) (by decide), link_fractal_low.movl_other h (by decide) (by decide),
    link_pl2_first.movl_other h (by decide) (by decide), link_pl3_kernel.movl_other h (by decide) (by decide),
    link_pl3_first.movl_other h (by decide) (by decide), link_pl4_last.movl_other h (by decide) (by decide),
    link_pl4_first.movl_other h (by decide) (by decide), hclear 3 (by decide)]

end Link

/-- The stack is not in the tables. -/
theorem pushes_mem (h : Linked l) (ebx : BitVec 32) {k : Nat} (hk : k < 4) :
    (({ s with esp := l._init_stack_top }.pushl 0).pushl ebx).mem (tableFrame l k) i = s.mem (tableFrame l k) i := by
  have hfirst : ({ s with esp := l._init_stack_top }.movl 0 (l._init_stack_top - 4)).mem (tableFrame l k) i = s.mem (tableFrame l k) i :=
    pushed_high.movl_other h (by omega) (by omega)
  have hsecond : (({ s with esp := l._init_stack_top }.pushl 0).movl ebx (l._init_stack_top - 4 - 4)).mem (tableFrame l k) i =
      ({ s with esp := l._init_stack_top }.pushl 0).mem (tableFrame l k) i :=
    pushed_low.movl_other h (by omega) (by omega)
  exact hsecond.trans hfirst

theorem start_booted (h : Linked l) (hclear : TablesClear l s.mem) (ebx : BitVec 32) :
    (_start l ebx s).cr3 = l.init_pl4 ∧ Booted l (_start l ebx s).mem := by
  have hframes (k : Nat) (hk : k < 4) (i : Index) : s.mem (tableFrame l k) i = 0 := by
    refine hclear (l.init_pl4 + BitVec.ofNat 32 (4096 * k)) ?_ i
    interval_cases k <;> simp [BootLayout.init_pl3, BootLayout.init_pl2, BootLayout.init_pl1]
  obtain ⟨s₁, hs₁⟩ : ∃ s₁ : BootState, s₁ = { ({ s with esp := l._init_stack_top }.pushl 0).pushl ebx with
    edi := l.init_pl4, cr3 := l.init_pl4 } := ⟨_, rfl⟩
  have hpushed (k : Nat) (hk : k < 4) (i : Index) : s₁.mem (tableFrame l k) i = 0 := by
    have hmem : s₁.mem = (({ s with esp := l._init_stack_top }.pushl 0).pushl ebx).mem := by rw [hs₁]
    rw [hmem, pushes_mem h ebx hk]
    exact hframes k hk i
  have hfilled := mapMemory_spec (s := s₁.linkTables l) h
  have hstart : _start l ebx s = (s₁.linkTables l).mapMemory l := by
    rw [hs₁]
    rfl
  have hkept (k : Nat) (hk : k < 3) (i : Index) : (_start l ebx s).mem (tableFrame l k) i = (s₁.linkTables l).mem (tableFrame l k) i := by
    rw [hstart, hfilled.mem]
    refine if_neg fun hand => ?_
    have heq : k = 3 := (page_inj h (by omega) (by decide)).mp hand.1
    omega
  refine ⟨?_, fun i => ?_, fun i => ?_, fun i => ?_, fun i => ?_⟩
  · rw [hstart, hfilled.cr3, hs₁]
    rfl
  · rw [hkept 0 (by decide), linkTables_root h hpushed]
  · rw [hkept 1 (by decide), linkTables_third h hpushed]
  · rw [hkept 2 (by decide), linkTables_second h hpushed]
  · rw [hstart, hfilled.mem, linkTables_first h hpushed]
    exact if_congr (and_iff_right rfl) rfl rfl

/-! ## The walk -/

theorem link_spec {table flags : BitVec 32} (hhigh : HighHalf v) (haligned : table.toNat % 4096 = 0) (hflags : flags.toNat < 4096)
    (hodd : flags.toNat % 2 = 1) :
    present (link v table flags) = true ∧ page_entry_to_phys (link v table flags) = table.setWidth 64 := by
  have htable : table + flags = BitVec.ofNat 32 (4096 * (table.toNat / 4096) + flags.toNat) := by
    apply BitVec.eq_of_toNat_eq
    rw [BitVec.toNat_add, BitVec.toNat_ofNat]
    omega
  have hframe : BitVec.ofNat 64 (4096 * (table.toNat / 4096)) = table.setWidth 64 := by
    apply BitVec.eq_of_toNat_eq
    rw [BitVec.toNat_ofNat, BitVec.toNat_setWidth]
    omega
  unfold link
  rw [htable, ← hframe]
  exact ⟨present_entry hodd, entry_phys hhigh (by have := table.isLt; omega) hflags⟩

theorem page_aligned (h : Linked l) {k : Nat} (hk : k < 10) : (l.init_pl4 + BitVec.ofNat 32 (4096 * k)).toNat % 4096 = 0 := by
  have htables := h.tables
  rw [page_toNat h hk]
  omega

theorem tableFrame_zero : tableFrame l 0 = l.init_pl4.setWidth 64 := by
  simp [tableFrame]

variable {m : Machine} {path : List Index}

theorem table_link {table flags : BitVec 32} (hp : m.table path = some f) (hentry : m.mem f i = link v table flags)
    (hlink : present (link v table flags) = true ∧ page_entry_to_phys (link v table flags) = table.setWidth 64) :
    m.table (i :: path) = some (table.setWidth 64) := by
  rw [table_cons_some hp, hentry, if_pos hlink.1, hlink.2]

theorem table_zero (hp : m.table path = some f) (hentry : m.mem f i = 0) : m.table (i :: path) = none := by
  rw [table_cons_some hp, hentry]
  rfl

theorem walk_of_none {i : Index} (hp : m.table path = none) : walk m (i :: path) = none := by
  unfold walk entry
  dsimp only
  rw [hp]
  rfl

section Walk

variable (h : Linked l) (hcr3 : m.cr3 = tableFrame l 0) (hb : Booted l m.mem) {i1 i2 i3 i4 : Index}
include h hcr3 hb

theorem selfMapped_booted : SelfMapped m := by
  have hentry : m.mem m.cr3 fractal = link Page_Execute_Disable_High l.init_pl4 3 := by
    rw [hcr3, hb.root]
    rfl
  unfold SelfMapped
  rw [hentry, hcr3, tableFrame_zero]
  exact link_spec (.inr rfl) h.tables (by decide) (by decide)

theorem table_third (h4 : i4 = 0 ∨ i4 = 511) : m.table [i4] = some (tableFrame l 1) := by
  have hroot : m.table [] = some (tableFrame l 0) := congrArg some hcr3
  exact table_link hroot ((hb.root i4).trans (if_pos h4))
    (link_spec (.inl rfl) (page_aligned h (k := 1) (by decide)) (by decide) (by decide))

theorem table_second (h4 : i4 = 0 ∨ i4 = 511) (h3 : i3 = 0 ∨ i3 = 510) : m.table [i3, i4] = some (tableFrame l 2) :=
  table_link (table_third h hcr3 hb h4) ((hb.third i3).trans (if_pos h3))
    (link_spec (.inl rfl) (page_aligned h (k := 2) (by decide)) (by decide) (by decide))

theorem table_first (h4 : i4 = 0 ∨ i4 = 511) (h3 : i3 = 0 ∨ i3 = 510) (h2 : i2 = 0) :
    m.table [i2, i3, i4] = some (tableFrame l 3) :=
  table_link (table_second h hcr3 hb h4 h3) ((hb.second i2).trans (if_pos h2))
    (link_spec (.inl rfl) (page_aligned h (k := 3) (by decide)) (by decide) (by decide))

/-- No other table. -/
theorem table_other (hoff : i4 ≠ fractal) (hother : ¬(i2 = 0 ∧ (i3 = 0 ∨ i3 = 510) ∧ (i4 = 0 ∨ i4 = 511))) :
    m.table [i2, i3, i4] = none := by
  have hroot : m.table [] = some (tableFrame l 0) := congrArg some hcr3
  by_cases h4 : i4 = 0 ∨ i4 = 511
  · by_cases h3 : i3 = 0 ∨ i3 = 510
    · have h2 : ¬i2 = 0 := fun h2 => hother ⟨h2, h3, h4⟩
      exact table_zero (table_second h hcr3 hb h4 h3) ((hb.second i2).trans (if_neg h2))
    · exact table_cons_none (table_zero (table_third h hcr3 hb h4) ((hb.third i3).trans (if_neg h3)))
  · have hzero : m.mem (tableFrame l 0) i4 = 0 := ((hb.root i4).trans (if_neg h4)).trans (if_neg hoff)
    exact table_cons_none (table_cons_none (table_zero hroot hzero))

theorem walk_booted {page : List Index} (hpage : PagePath page) : walk m page = bootWalk l page := by
  obtain ⟨i1, i2, i3, i4, rfl⟩ : ∃ i1 i2 i3 i4, page = [i1, i2, i3, i4] := by
    have hlength := hpage.length_eq
    match page, hlength with
    | [i1, i2, i3, i4], _ => exact ⟨i1, i2, i3, i4, rfl⟩
  have hoff : i4 ≠ fractal := fun heq => hpage.outside (by rw [heq]; rfl)
  have hend := Nat.div_add_mod l.bss_end.toNat 4096
  have hbss := h.bss_end
  unfold bootWalk
  dsimp only
  by_cases hpath : i2 = 0 ∧ (i3 = 0 ∨ i3 = 510) ∧ (i4 = 0 ∨ i4 = 511)
  · obtain ⟨h2, h3, h4⟩ := hpath
    rw [if_pos ⟨h2, h3, h4⟩, walk, entry_cons_some (table_first h hcr3 hb h4 h3 h2), Option.bind_some, hb.first, bootPage]
    by_cases hpage : 0 < i1.toNat ∧ i1.toNat < l.bss_end.toNat / 4096
    · have hflags := sectionFlags_spec l (4096 * i1.toNat)
      rw [if_pos hpage, if_pos (by omega), pageEntry, sectionPermissions_eq,
        leafValue_entry (sectionHigh_spec ..) (by omega) (by omega) (by omega)]
    · rw [if_neg hpage, if_neg (by omega)]
      rfl
  · rw [if_neg hpath]
    exact walk_of_none (table_other h hcr3 hb hoff hpath)

theorem pivotReady_booted {img : KernelImage} (himg : img.kernel_start = 0xffffffff80100000) :
    PivotReady img (bootTables l) m := by
  have hpivot : Kernel_Pivot_Page img = 0xffffffff800ff000 := by
    unfold Kernel_Pivot_Page
    rw [himg]
    rfl
  have hfirst : (bootTables l).f1 = tableFrame l 3 := rfl
  refine ⟨selfMapped_booted h hcr3 hb, ?_, ?_, ?_, ?_, ?_, ?_⟩
  · rw [hpivot]
    exact table_third h hcr3 hb (.inr rfl)
  · rw [hpivot]
    exact table_second h hcr3 hb (.inr rfl) (.inr rfl)
  · rw [hpivot]
    exact table_first h hcr3 hb (.inr rfl) (.inr rfl) rfl
  · rw [hfirst, hcr3]
    exact mt (page_inj h (by decide) (by decide)).mp (by decide)
  · exact mt (page_inj h (j := 3) (k := 1) (by decide) (by decide)).mp (by decide)
  · exact mt (page_inj h (j := 3) (k := 2) (by decide) (by decide)).mp (by decide)

end Walk

theorem allowed_section (i4 : Index) (l : BootLayout) (address : Nat) : Allowed i4 (sectionPermissions l address) := by
  unfold sectionPermissions
  split_ifs <;> exact ⟨by decide, fun _ => by decide⟩

/-- The first state of the physical allocator. Memory is mapped as the sections want it, at four places. -/
theorem start_maps_kernel {img : KernelImage} (himg : img.kernel_start = 0xffffffff80100000) (h : Linked l)
    (hclear : TablesClear l s.mem) (ebx : BitVec 32) :
    World.Start img (bootTables l) ⟨(_start l ebx s).machine, ∅, ∅⟩ ∧ Separated (_start l ebx s).machine ∧
      ∀ page, PagePath page → walk (_start l ebx s).machine page = bootWalk l page := by
  obtain ⟨hcr3, hb⟩ := start_booted h hclear ebx
  have hroot : (_start l ebx s).machine.cr3 = tableFrame l 0 := by
    rw [tableFrame_zero, ← hcr3]
    rfl
  have hwalk (page : List Index) (hpage : PagePath page) : walk (_start l ebx s).machine page = bootWalk l page :=
    walk_booted h hroot hb hpage
  refine ⟨⟨rfl, pivotReady_booted h hroot hb himg, rfl, rfl⟩, ?_, hwalk⟩
  intro i1 i2 i3 i4 frame perms hpage hleaf
  rw [hwalk _ hpage, bootWalk, bootPage] at hleaf
  split_ifs at hleaf
  obtain ⟨-, rfl⟩ := Prod.mk.inj (Option.some.inj hleaf)
  exact allowed_section i4 l _

/-- A kernel of one page for each section but `.bss`. -/
def smallLayout : BootLayout :=
  ⟨0x103000, 0x100000, 0x101000, 0x101000, 0x102000, 0x102000, 0x103000, 0x103000, 0x110000⟩

theorem start_maps_kernel_small :
    World.Start linkedImage (bootTables smallLayout) ⟨(_start smallLayout 0 ⟨fun _ _ => 0, 0, 0, 0, 0, 0, 0⟩).machine, ∅, ∅⟩ ∧
    Separated (_start smallLayout 0 ⟨fun _ _ => 0, 0, 0, 0, 0, 0, 0⟩).machine ∧
      ∀ page, PagePath page →
        walk (_start smallLayout 0 ⟨fun _ _ => 0, 0, 0, 0, 0, 0, 0⟩).machine page = bootWalk smallLayout page :=
  start_maps_kernel rfl (by constructor <;> decide) (fun _ _ _ => rfl) 0

end KernelOfTruth.Boot
