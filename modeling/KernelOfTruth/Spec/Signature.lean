import KernelOfTruth.Code.Truesign
import KernelOfTruth.Spec.Strings

/-!
# Signed modules
-/

open KernelOfTruth.Code

namespace KernelOfTruth.Spec

/-- The text between a module and its signature. -/
def signatureMagic : List Byte := SIGNATURE_MAGIC_STRING ++ [0]

/-- A check accepts exactly the valid signatures, and signing makes one for the key that belongs to the secret key. -/
structure Ed25519.Correct (ed : Ed25519) (Valid : (signature message public_key : List Byte) → Prop)
    (KeyPair : (public_key secret_key : List Byte) → Prop) : Prop where
  verify_iff : ∀ signature message public_key,
    ed.verify_detached signature message public_key = 0 ↔ Valid signature message public_key
  detached_ok : ∀ message secret_key, (ed.detached message secret_key).1 = 0
  detached_length : ∀ message secret_key, (ed.detached message secret_key).2.length = 64
  detached_valid : ∀ {public_key secret_key} message, KeyPair public_key secret_key →
    Valid (ed.detached message secret_key).2 message public_key

/-- The host on which every call of the C library works. -/
def workingHost (secret_key_file target_file : HostFile) : SignHost where
  secret_key_file := some secret_key_file
  target_file := some target_file
  out_file_opens := true
  get_file_size := true
  malloc := true
  read_secret_key := true
  read_target := true
  write_contents := true
  write_magic := true
  write_signature := true

/-- The host of `verify_file` on which every call of the C library works. -/
def readingHost (public_key_file test_file : HostFile) (public_key : List Byte) : VerifyHost where
  public_key_file := some public_key_file
  test_file := some test_file
  get_file_size := true
  read_public_key := true
  malloc := true
  read_data := true
  read_magic := true
  read_signature := true
  public_key := public_key

/-- The kernel accepts the image at the address `start`. -/
def Accepts (ed : Ed25519) (public_key : List Byte) (start : Word) (image : List Byte) : Prop :=
  (module_verify (ed.check public_key) start (BitVec.ofNat 64 image.length)).run (imageAt start image) =
    .ok (.Ok, imageAt start image)

/-- The tool's verdict on a file is that of the kernel, and the sizes that it has computed are not below zero. -/
def AgreeOn (ed : Ed25519) (public_key_file test_file : HostFile) (run : VerifyRun) : Prop :=
  (∀ start, run.error = 0 ↔ 95 ≤ test_file.bytes.length ∧ Accepts ed public_key_file.bytes start test_file.bytes) ∧
  ∀ d ∈ run.differences, d.2 ≤ d.1

end KernelOfTruth.Spec
