import KernelOfTruth.Elf

/-!
# What is read of a module before its signature is checked
-/

open KernelOfTruth.Lib KernelOfTruth.Code KernelOfTruth.Spec KernelOfTruth.Strings KernelOfTruth.Elf

namespace KernelOfTruth.ModuleBounds

variable {start : Word} {image : List Byte}

theorem mapped_header (start : Word) (hlen : image.length < 2 ^ 64) (hsize : headerSize < BitVec.ofNat 64 image.length) :
    Mapped (imageAt start image) start 64 := by
  have hbig : 64 < image.length := by
    have h := BitVec.lt_def.mp hsize
    rwa [BitVec.toNat_ofNat, Nat.mod_eq_of_lt hlen] at h
  have hmapped := mapped_image start (k := 0) (n := 64) (by omega) hlen.le
  rwa [BitVec.add_zero] at hmapped

/-! ## `module_verify` -/

/-- Where the kernel expects the magic of an image of this length. -/
def magicAddress (start : Word) (length : Nat) : Word :=
  start + (BitVec.ofNat 64 length - crypto_sign_ed25519_BYTES - signatureMagicSize)

theorem magicAddress_of_room {n : Nat} (hroom : 95 ≤ n) : magicAddress start n = start + BitVec.ofNat 64 (n - 95) := by
  unfold magicAddress crypto_sign_ed25519_BYTES signatureMagicSize
  bv_omega

theorem magicAddress_sub {n : Nat} (hshort : n < 95) : (magicAddress start n - start).toNat = 2 ^ 64 - 95 + n := by
  unfold magicAddress crypto_sign_ed25519_BYTES signatureMagicSize
  bv_omega

/-- The first character of the magic is read in any case, and an image without room for it has none. -/
theorem magic_mapped_iff (start : Word) (hlen : image.length < 2 ^ 64) :
    (∀ k < signatureMagicSize.toNat, ComesTo (charAt (imageAt start image) (magicAddress start image.length))
        (fun k => SIGNATURE_MAGIC_STRING.getD k 0) k →
      ((imageAt start image) (magicAddress start image.length + BitVec.ofNat 64 k)).isSome ∧ True) ↔ 95 ≤ image.length := by
  constructor
  · intro h
    by_contra hshort
    have hfirst := (h 0 (by decide) fun j hj => by omega).1
    rw [BitVec.add_zero, imageAt, magicAddress_sub (by omega), List.getElem?_eq_none (by omega)] at hfirst
    exact absurd hfirst (by decide)
  · intro hroom k hk _
    rw [magicAddress_of_room hroom]
    have hk' : k < 31 := hk
    exact ⟨mapped_image start (n := 31) (by omega) hlen.le k hk', trivial⟩

section Verify

variable {verify : Word → Word → Word → Kernel Memory Int}
  (hverify : ∀ signature message size m, (verify signature message size).run m ≠ .error .page_fault)
include hverify

theorem wp_module_verify_avoids (hlen : image.length < 2 ^ 64) :
    wp (module_verify verify start (BitVec.ofNat 64 image.length)) (fun _ _ => True) (· ≠ .page_fault)
      (imageAt start image) ↔ 95 ≤ image.length := by
  have hmagic := magic_mapped_iff start hlen
  unfold magicAddress at hmagic
  unfold module_verify
  rw [wp_bind, wp_strncmp (reads_pointer _) (reads_constant _), hmagic]
  refine ⟨fun h => by_contra fun hshort => h.2 hshort rfl, fun hroom => (guarded_of hroom).mpr ?_⟩
  rw [wp_ite]
  split
  · exact (wp_pure ..).mpr trivial
  · rw [wp_bind]
    refine wp_imp (wp_avoids.mpr (hverify _ _ _ _)) fun _ _ _ => ?_
    rw [wp_ite]
    split <;> exact (wp_pure ..).mpr trivial

/-- The kernel reads only bytes of the image before it checks the signature exactly when it refuses the image at once,
or there is room for a signature and the way to the name of the module stays inside of the image. -/
theorem reads_inside_iff (start : Word) (image : List Byte) (hlen : image.length < 2 ^ 64) :
    (loadVerified verify start (BitVec.ofNat 64 image.length)).run (imageAt start image) ≠ .error .page_fault ↔
      (Verified (imageAt start image) start (BitVec.ofNat 64 image.length) → 95 ≤ image.length ∧
        (IsRelocatable (imageAt start image) start ∨
          NameInside (imageAt start image) start (BitVec.ofNat 64 image.length))) := by
  have hheader := mapped_header start hlen
  rw [← wp_avoids]
  unfold loadVerified
  rw [wp_bind, wp_elf_verify hheader, wp_ite]
  by_cases hverified : Verified (imageAt start image) start (BitVec.ofNat 64 image.length)
  · simp only [hverified, decide_true, Bool.not_true, Bool.false_eq_true, if_false, true_implies, wp_bind, wp_pure]
    rw [wp_elf_get_shared_object_name hverified (hheader hverified.1), wp_module_verify_avoids hverify hlen]
    simp only [ne_eq, not_true_eq_false, guarded_false]
    exact and_comm
  · simp only [hverified, decide_false, Bool.not_false, if_true, false_implies, iff_true]
    exact (wp_pure ..).mpr trivial

end Verify

/-- An image of 65 bytes with the header of an object file and no section. -/
def shortImage : List Byte :=
  [0x7f, 0x45, 0x4c, 0x46, 2] ++ List.replicate 11 0 ++ [1, 0, 62, 0, 1] ++ List.replicate 44 0

/-- It passes `elf_verify`, and has no room for a signature: the magic is expected before the first byte. -/
theorem shortImage_read_outside :
    shortImage.length = 65 ∧ Verified (imageAt 0x1000 shortImage) 0x1000 65 ∧
      (loadVerified (fun _ _ _ => pure 0) 0x1000 65).run (imageAt 0x1000 shortImage) = .error .page_fault := by
  refine ⟨rfl, by decide, rfl⟩

def paddedImage : List Byte := shortImage ++ List.replicate 30 0

theorem paddedImage_read_inside :
    (loadVerified (fun _ _ _ => pure 0) 0x1000 (BitVec.ofNat 64 paddedImage.length)).run (imageAt 0x1000 paddedImage) ≠
      .error .page_fault :=
  (reads_inside_iff (fun _ _ _ _ h => by cases h) 0x1000 paddedImage (by decide)).mpr fun _ => ⟨by decide, .inl rfl⟩

end KernelOfTruth.ModuleBounds
