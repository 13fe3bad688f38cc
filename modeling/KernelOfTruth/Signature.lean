import KernelOfTruth.Strings
import KernelOfTruth.Spec.Signature
import Mathlib.Data.List.GetD

/-!
# What the tool signs, the kernel accepts
-/

open KernelOfTruth.Lib KernelOfTruth.Code KernelOfTruth.Spec KernelOfTruth.Strings

namespace KernelOfTruth.Signature

/-! ## `module_verify` -/

/-- The texts are compared to the end when one of them has its NUL there. -/
theorem sameText_iff {f g : Nat → Byte} {n : Nat} (hg : ∀ k < n, g k ≠ 0) :
    SameText f g (n + 1) ↔ ∀ k < n + 1, f k = g k := by
  constructor
  · intro h k
    induction k using Nat.strong_induction_on with
    | _ k ih =>
      intro hk
      refine h k hk fun j hj => ?_
      rw [ih j hj (by omega)]
      exact hg j (by omega)
  · exact fun h k hk _ => h k hk

theorem magic_length : signatureMagic.length = 31 := rfl

theorem magic_getD (k : Nat) : SIGNATURE_MAGIC_STRING.getD k 0 = signatureMagic.getD k 0 := by
  unfold signatureMagic
  rcases Nat.lt_trichotomy k 30 with hlt | rfl | hgt
  · rw [List.getD_append _ _ _ _ hlt]
  · rfl
  · rw [List.getD_eq_default _ _ hgt.le, List.getD_eq_default _ _ hgt]

theorem magic_ne_zero : ∀ k < 30, SIGNATURE_MAGIC_STRING.getD k 0 ≠ 0 := by decide

theorem sameText_magic (start : Word) {image : List Byte} (hsize : 95 ≤ image.length) (hlen : image.length < 2 ^ 64) :
    SameText (charAt (imageAt start image) (start + BitVec.ofNat 64 (image.length - 95)))
      (fun k => SIGNATURE_MAGIC_STRING.getD k 0) 31 ↔ (image.drop (image.length - 95)).take 31 = signatureMagic := by
  rw [sameText_iff magic_ne_zero]
  constructor
  · intro h
    apply List.ext_getElem
    · rw [magic_length, List.length_take, List.length_drop]
      omega
    · intro k hk hk'
      rw [magic_length] at hk'
      have hchar := h k hk'
      rw [charAt_image start hlen.le (by omega)] at hchar
      rw [List.getElem_take, List.getElem_drop, hchar, magic_getD, List.getD_eq_getElem]
  · intro h k hk
    have hmagic : signatureMagic.getD k 0 = image[image.length - 95 + k] := by
      rw [← h, List.getD_eq_getElem _ _ (by rw [List.length_take, List.length_drop]; omega), List.getElem_take,
        List.getElem_drop]
    rw [charAt_image start hlen.le (by omega), magic_getD, hmagic]

theorem wp_check (ed : Ed25519) (public_key : List Byte) {m : Memory} {signature message size : Word}
    {Q : Int → Memory → Prop} {E : Halt → Prop} :
    wp (ed.check public_key signature message size) Q E m ↔ Guarded (Mapped m signature 64 ∧ Mapped m message size.toNat)
      (Q (ed.verify_detached (bytesAt m 64 signature) (bytesAt m size.toNat message) public_key) m) (E .page_fault) := by
  unfold Ed25519.check
  simp only [wp_bind, wp_loadBytes, wp_pure, guarded_guarded]
  rfl

/-- What `module_verify` does with an image that has room for a signature. -/
theorem wp_module_verify (ed : Ed25519) (public_key : List Byte) (start : Word) {image : List Byte}
    (hsize : 95 ≤ image.length) (hlen : image.length < 2 ^ 64) :
    wp (module_verify (ed.check public_key) start (BitVec.ofNat 64 image.length))
      (fun status m => m = imageAt start image ∧ (status = .Ok ↔
        (image.drop (image.length - 95)).take 31 = signatureMagic ∧
        ed.verify_detached (image.drop (image.length - 64)) (image.take (image.length - 95)) public_key = 0))
      (fun _ => False) (imageAt start image) := by
  have hverify : BitVec.ofNat 64 image.length - crypto_sign_ed25519_BYTES - signatureMagicSize =
      BitVec.ofNat 64 (image.length - 95) := by
    unfold crypto_sign_ed25519_BYTES signatureMagicSize
    bv_omega
  have hsignature : start + BitVec.ofNat 64 image.length - crypto_sign_ed25519_BYTES =
      start + BitVec.ofNat 64 (image.length - 64) := by
    unfold crypto_sign_ed25519_BYTES
    bv_omega
  have hmagicMapped := mapped_image start (k := image.length - 95) (n := 31) (by omega) hlen.le
  have hsigMapped := mapped_image start (k := image.length - 64) (n := 64) (by omega) hlen.le
  have hmsgMapped := mapped_image start (k := 0) (n := image.length - 95) (by omega) hlen.le
  have hsigBytes := bytesAt_image start (k := image.length - 64) (n := 64) (by omega) hlen.le
  have hmsgBytes := bytesAt_image start (k := 0) (n := image.length - 95) (by omega) hlen.le
  simp only [BitVec.add_zero, List.drop_zero] at hmsgMapped hmsgBytes
  rw [List.take_of_length_le (by rw [List.length_drop]; omega)] at hsigBytes
  have hcompare := strncmpValue_zero.trans (sameText_magic start hsize hlen)
  unfold module_verify
  simp only [hverify, hsignature]
  rw [wp_bind, wp_strncmp (reads_pointer _) (reads_constant _), guarded_of fun k hk _ => ⟨hmagicMapped k hk, trivial⟩,
    wp_ite]
  split
  · rename_i hnot
    exact (wp_pure ..).mpr ⟨rfl, by simp, fun h => absurd (hcompare.mpr h.1) hnot⟩
  · rename_i hsame
    have hmagic := hcompare.mp (not_not.mp hsame)
    have hnat : (BitVec.ofNat 64 (image.length - 95)).toNat = image.length - 95 := by
      rw [BitVec.toNat_ofNat, Nat.mod_eq_of_lt (by omega)]
    rw [wp_bind, wp_check, hnat, guarded_of ⟨hsigMapped, hmsgMapped⟩, hsigBytes, hmsgBytes, wp_ite]
    split
    · rename_i hbad
      exact (wp_pure ..).mpr ⟨rfl, by simp, fun h => absurd h.2 hbad⟩
    · rename_i hgood
      exact (wp_pure ..).mpr ⟨rfl, fun _ => ⟨hmagic, not_not.mp hgood⟩, fun _ => rfl⟩

theorem accepts_iff (ed : Ed25519) (public_key : List Byte) (start : Word) {image : List Byte}
    (hsize : 95 ≤ image.length) (hlen : image.length < 2 ^ 64) : Accepts ed public_key start image ↔
      (image.drop (image.length - 95)).take 31 = signatureMagic ∧
      ed.verify_detached (image.drop (image.length - 64)) (image.take (image.length - 95)) public_key = 0 := by
  constructor
  · intro h
    exact (wp_ok (wp_module_verify ed public_key start hsize hlen) h).2.mp rfl
  · intro h
    unfold Accepts
    obtain ⟨status, m, hrun, rfl, hstatus⟩ := wp_total (wp_module_verify ed public_key start hsize hlen)
    rw [hrun, hstatus.mpr h]

/-! ## `sign_file` -/

section Sign

variable {ed : Ed25519} {secret_key_file target_file : HostFile}

theorem sign_file_working (hkey : secretKeySize ≤ secret_key_file.bytes.length) (hfile : target_file.bytes ≠ [])
    (hsign : (ed.detached target_file.bytes (secret_key_file.bytes.take secretKeySize)).1 = 0) :
    sign_file ed (workingHost secret_key_file target_file) = .ok (0, target_file.bytes ++ signatureMagic ++
      (ed.detached target_file.bytes (secret_key_file.bytes.take secretKeySize)).2) := by
  unfold sign_file workingHost
  simp [hfile, hsign, Nat.not_lt.mpr hkey, signatureMagic]
  rfl

theorem else_of_ok {c : Prop} [Decidable c] {written out : List Byte} {rest : Except Halt (Int × List Byte)}
    (h : (if c then pure (-1, written) else rest) = .ok (0, out)) : ¬ c ∧ rest = .ok (0, out) := by
  split at h
  · injection h with h
    injection h with h
    exact absurd h (by decide)
  · rename_i hc
    exact ⟨hc, h⟩

/-- A run that returns 0 was one in which everything worked. -/
theorem sign_file_ok {host : SignHost} {out : List Byte} (h : sign_file ed host = .ok (0, out)) :
    ∃ secret_key_file target_file, host.secret_key_file = some secret_key_file ∧ host.target_file = some target_file ∧
      secretKeySize ≤ secret_key_file.bytes.length ∧ target_file.bytes ≠ [] ∧
      out = target_file.bytes ++ signatureMagic ++
        (ed.detached target_file.bytes (secret_key_file.bytes.take secretKeySize)).2 := by
  unfold sign_file at h
  split at h
  · rename_i secret_key_file target_file hsecret htarget _
    obtain ⟨-, h⟩ := else_of_ok h
    obtain ⟨-, h⟩ := else_of_ok h
    obtain ⟨hkey, h⟩ := else_of_ok h
    obtain ⟨hfile, h⟩ := else_of_ok h
    obtain ⟨-, h⟩ := else_of_ok h
    obtain ⟨-, h⟩ := else_of_ok h
    obtain ⟨-, h⟩ := else_of_ok h
    obtain ⟨-, h⟩ := else_of_ok h
    injection h with h
    injection h with _ hout
    exact ⟨secret_key_file, target_file, hsecret, htarget, Nat.not_lt.mp fun hlt => hkey (.inl hlt),
      fun hempty => hfile (.inl hempty), hout.symm⟩
  · cases h

end Sign

/-! ## Both ways -/

theorem accepts_signed {ed : Ed25519} {public_key message signature : List Byte} (start : Word) (hsig : signature.length = 64)
    (hlen : message.length < 2 ^ 63) (hverify : ed.verify_detached signature message public_key = 0) :
    Accepts ed public_key start (message ++ signatureMagic ++ signature) := by
  have hmagic := magic_length
  rw [accepts_iff _ _ _ (by simp only [List.length_append]; omega) (by simp only [List.length_append]; omega)]
  have h95 : (message ++ signatureMagic ++ signature).length - 95 = message.length := by
    simp only [List.length_append]
    omega
  have h64 : (message ++ signatureMagic ++ signature).length - 64 = (message ++ signatureMagic).length := by
    simp only [List.length_append]
    omega
  rw [h95, h64, List.drop_left]
  rw [List.append_assoc, List.drop_left, List.take_left]
  exact ⟨List.take_left' hmagic, hverify⟩

/-- The tool and the kernel agree on the format of a signed module: the kernel accepts what the tool has made of a
file that is not empty, and everything that it accepts is a message, the magic and a valid signature of the message. -/
theorem signed_module_round_trip {ed : Ed25519} {Valid : List Byte → List Byte → List Byte → Prop}
    {KeyPair : List Byte → List Byte → Prop} (hed : Spec.Ed25519.Correct ed Valid KeyPair) :
    (∀ secret_key_file target_file, secretKeySize ≤ secret_key_file.bytes.length → target_file.bytes ≠ [] →
      ∃ out, sign_file ed (workingHost secret_key_file target_file) = .ok (0, out)) ∧
    (∀ host secret_key_file public_key out, sign_file ed host = .ok (0, out) →
      host.secret_key_file = some secret_key_file →
      KeyPair public_key (secret_key_file.bytes.take secretKeySize) → ∀ start, Accepts ed public_key start out) ∧
    ∀ public_key start image, 95 ≤ image.length → image.length < 2 ^ 64 → Accepts ed public_key start image →
      ∃ message signature, image = message ++ signatureMagic ++ signature ∧ signatureMagic.length = 31 ∧
        signature.length = 64 ∧ Valid signature message public_key := by
  refine ⟨?_, ?_, ?_⟩
  · intro secret_key_file target_file hkey hfile
    exact ⟨_, sign_file_working hkey hfile (hed.detached_ok ..)⟩
  · intro host secret_key_file public_key out hrun hsecret hpair start
    obtain ⟨secret_key_file', target_file, hsecret', -, -, -, rfl⟩ := sign_file_ok hrun
    obtain rfl : secret_key_file = secret_key_file' := Option.some.inj (hsecret.symm.trans hsecret')
    exact accepts_signed start (hed.detached_length ..) target_file.size_lt
      ((hed.verify_iff ..).mpr (hed.detached_valid _ hpair))
  · intro public_key start image hsize hlen haccepts
    obtain ⟨hmagic, hverify⟩ := (accepts_iff _ _ _ hsize hlen).mp haccepts
    refine ⟨image.take (image.length - 95), image.drop (image.length - 64), ?_, magic_length, ?_,
      (hed.verify_iff ..).mp hverify⟩
    · have hdrop : image.drop (image.length - 64) = (image.drop (image.length - 95)).drop 31 := by
        rw [List.drop_drop]
        congr 1
        omega
      rw [← hmagic, hdrop, List.append_assoc, List.take_append_drop, List.take_append_drop]
    · rw [List.length_drop]
      omega

/-! ## The tool's own check -/

/-- A key of 32 bytes is read as 32 items, and the tool takes only one item for a success. -/
theorem verify_file_reading (ed : Ed25519) {public_key_file : HostFile} (test_file : HostFile) (array : List Byte)
    (hkey : public_key_file.bytes.length = publicKeySize) :
    verify_file ed (readingHost public_key_file test_file array) = .ok ⟨-1, []⟩ := by
  unfold verify_file readingHost
  simp only [hkey, Nat.min_self]
  by_cases hsize : test_file.bytes.length < publicKeySize
  · simp only [hsize, if_true]
    rfl
  · simp only [hsize, if_false]
    rfl

/-- The tool and the kernel agree on a file exactly when it is not one that the kernel accepts. -/
theorem verifiers_agree_iff (ed : Ed25519) {public_key_file : HostFile} (test_file : HostFile) (array : List Byte)
    (hkey : public_key_file.bytes.length = publicKeySize) :
    (∃ run, verify_file ed (readingHost public_key_file test_file array) = .ok run ∧
      AgreeOn ed public_key_file test_file run) ↔
    ¬ (95 ≤ test_file.bytes.length ∧
      (test_file.bytes.drop (test_file.bytes.length - 95)).take 31 = signatureMagic ∧
      ed.verify_detached (test_file.bytes.drop (test_file.bytes.length - 64))
        (test_file.bytes.take (test_file.bytes.length - 95)) public_key_file.bytes = 0) := by
  have hrun := verify_file_reading ed test_file array hkey
  have hlen : test_file.bytes.length < 2 ^ 64 := test_file.size_lt.trans (by decide)
  constructor
  · rintro ⟨run, hrun', hagree, -⟩ ⟨hsize, hgood⟩
    rw [hrun] at hrun'
    cases hrun'
    have haccepts := (accepts_iff ed public_key_file.bytes 0 hsize hlen).mpr hgood
    exact absurd ((hagree 0).mpr ⟨hsize, haccepts⟩) (by decide)
  · intro hnot
    refine ⟨_, hrun, fun start => ⟨fun h => absurd h (by decide), ?_⟩, by simp⟩
    rintro ⟨hsize, haccepts⟩
    exact absurd ⟨hsize, (accepts_iff ed public_key_file.bytes start hsize hlen).mp haccepts⟩ hnot

/-! ## A toy scheme -/

/-- The signature is the start of the message and the key, and the two keys of a pair are the same. -/
def tag (message key : List Byte) : List Byte := (message ++ key ++ List.replicate 64 0).take 64

def tagging : Ed25519 where
  detached message secret_key := (0, tag message secret_key)
  verify_detached signature message public_key := if signature = tag message public_key then 0 else -1

theorem tagging_correct : Spec.Ed25519.Correct tagging (fun signature message public_key => signature = tag message public_key)
    (fun public_key secret_key => public_key = secret_key) where
  verify_iff signature message public_key := by simp [tagging]
  detached_ok _ _ := rfl
  detached_length message secret_key := by
    simp only [tagging, tag, List.length_take, List.length_append, List.length_replicate]
    omega
  detached_valid message hpair := by rw [hpair]; rfl

def zeroKey : HostFile := ⟨List.replicate 64 0, by decide⟩

def threeBytes : HostFile := ⟨[1, 2, 3], by decide⟩

theorem threeBytes_accepted : ∃ out, sign_file tagging (workingHost zeroKey threeBytes) = .ok (0, out) ∧
    Accepts tagging zeroKey.bytes 0x1000 out := by
  obtain ⟨hworks, haccepts, -⟩ := signed_module_round_trip tagging_correct
  obtain ⟨out, hrun⟩ := hworks zeroKey threeBytes (by decide) (by decide)
  exact ⟨out, hrun, haccepts _ _ _ _ hrun rfl rfl 0x1000⟩

def zeroPublicKey : HostFile := ⟨List.replicate 32 0, by decide⟩

theorem threeBytes_agree : ∃ run,
    verify_file tagging (readingHost zeroPublicKey threeBytes []) = .ok run ∧ AgreeOn tagging zeroPublicKey threeBytes run :=
  (verifiers_agree_iff tagging threeBytes [] (by decide)).mpr (by decide)

/-- What the tool makes of `threeBytes`, with a secret key that goes with `zeroPublicKey`. -/
def threeBytesSigned : HostFile := ⟨[1, 2, 3] ++ signatureMagic ++ tag [1, 2, 3] (List.replicate 32 0), by decide⟩

/-- The kernel accepts the file, and the tool does not. -/
theorem threeBytesSigned_disagree : 95 ≤ threeBytesSigned.bytes.length ∧
    Accepts tagging zeroPublicKey.bytes 0x1000 threeBytesSigned.bytes ∧
    verify_file tagging (readingHost zeroPublicKey threeBytesSigned []) = .ok ⟨-1, []⟩ := by
  refine ⟨by decide, ?_, rfl⟩
  rw [accepts_iff _ _ _ (by decide) (by decide)]
  decide

end KernelOfTruth.Signature
