import KernelOfTruth.Code.Module

/-!
# `tools/truesign.c`

The tool that signs a module runs on the host. What the C library does in a run is given beforehand, and the
result is the number that the tool returns and the bytes in its output file.
-/

namespace KernelOfTruth.Code

/-- A file whose size `ftell` can return. -/
structure HostFile where
  bytes : List Byte
  size_lt : bytes.length < 2 ^ 63

/-- `crypto_sign_ed25519_SECRETKEYBYTES`. -/
def secretKeySize : Nat := 64

/-- What the calls of the C library do in a run of `sign_file`: a file that cannot be opened is `none`, the other
calls work or fail. -/
structure SignHost where
  secret_key_file : Option HostFile
  target_file : Option HostFile
  out_file_opens : Bool
  get_file_size : Bool
  malloc : Bool
  read_secret_key : Bool
  read_target : Bool
  write_contents : Bool
  write_magic : Bool
  write_signature : Bool

def sign_file (ed : Ed25519) (host : SignHost) : Except Halt (Int × List Byte) :=
  -- the way out closes all three files, and has no test for NULL
  match host.secret_key_file, host.target_file, host.out_file_opens with
  | some secret_key_file, some target_file, true => do
    if !host.get_file_size then pure (-1, []) else
    if !host.malloc then pure (-1, []) else
    -- one item of 64 bytes
    if secret_key_file.bytes.length < secretKeySize ∨ !host.read_secret_key then pure (-1, []) else
    let secret_key := secret_key_file.bytes.take secretKeySize
    let file_contents := target_file.bytes
    -- one item of the size of the file, of which there is none when the size is 0
    if file_contents = [] ∨ !host.read_target then pure (-1, []) else
    if !host.write_contents then pure (-1, []) else
    let (error, signature) := ed.detached file_contents secret_key
    if error ≠ 0 then pure (-1, file_contents) else
    if !host.write_magic then pure (-1, file_contents) else
    if !host.write_signature then pure (-1, file_contents ++ (SIGNATURE_MAGIC_STRING ++ [0])) else
    pure (error, file_contents ++ (SIGNATURE_MAGIC_STRING ++ [0]) ++ signature)
  | _, _, _ => throw .page_fault

/-! ## `verify_file` -/

/-- `crypto_sign_ed25519_PUBLICKEYBYTES`. -/
def publicKeySize : Nat := 32

/-- `signature_field_size`. -/
def signatureFieldSize : Word := crypto_sign_ed25519_BYTES + signatureMagicSize

/-- What the calls of the C library do in a run of `verify_file`, and the bytes that are in the array `public_key`
before anything is read into it. -/
structure VerifyHost where
  public_key_file : Option HostFile
  test_file : Option HostFile
  get_file_size : Bool
  read_public_key : Bool
  malloc : Bool
  read_data : Bool
  read_magic : Bool
  read_signature : Bool
  public_key : List Byte

/-- The number that the tool returns, and the differences of sizes that it has computed. -/
structure VerifyRun where
  error : Int
  differences : List (Word × Word)

/-- `fread(buffer, size, 1, file)` with `rest` left of the file: the item and what is left then. -/
def fread (size : Nat) (rest : List Byte) : Option (List Byte × List Byte) :=
  if size = 0 ∨ rest.length < size then none else some (rest.take size, rest.drop size)

/-- The rest of `verify_file`, after the public key has been read. -/
def verifyContents (ed : Ed25519) (host : VerifyHost) (public_key : List Byte) (test_file : HostFile) : VerifyRun :=
  let test_file_size := BitVec.ofNat 64 test_file.bytes.length
  if !host.malloc then ⟨-1, []⟩ else
  let data_size := test_file_size - signatureFieldSize
  let differences := [(test_file_size, signatureFieldSize)]
  match fread data_size.toNat test_file.bytes with
  | none => ⟨-1, differences⟩
  | some (data, rest) =>
    if !host.read_data then ⟨-1, differences⟩ else
    match fread signatureMagicSize.toNat rest with
    | none => ⟨-1, differences⟩
    | some (signature_magic, rest) =>
      if !host.read_magic then ⟨-1, differences⟩ else
      -- the text of the magic has its only NUL at the end, so `strncmp` compares all of it
      if signature_magic ≠ SIGNATURE_MAGIC_STRING ++ [0] then ⟨-1, differences⟩ else
      match fread crypto_sign_ed25519_BYTES.toNat rest with
      | none => ⟨-1, differences⟩
      | some (signature, rest) =>
        if !host.read_signature then ⟨-1, differences⟩ else
        -- `ftell` says how much has been read
        if test_file.bytes.length - rest.length ≠ test_file.bytes.length then ⟨-1, differences⟩ else
        ⟨ed.verify_detached signature data public_key,
          differences ++ [(test_file_size, crypto_sign_ed25519_BYTES),
            (test_file_size - crypto_sign_ed25519_BYTES, signatureMagicSize)]⟩

def verify_file (ed : Ed25519) (host : VerifyHost) : Except Halt VerifyRun :=
  -- the way out closes both files, and has no test for NULL
  match host.public_key_file, host.test_file with
  | some public_key_file, some test_file => do
    if !host.get_file_size then pure ⟨-1, []⟩ else
    if test_file.bytes.length < publicKeySize then pure ⟨-1, []⟩ else
    -- items of one byte, so this is the number of bytes
    let read := min publicKeySize public_key_file.bytes.length
    if read ≠ 1 ∨ !host.read_public_key then pure ⟨-1, []⟩ else
    pure (verifyContents ed host (public_key_file.bytes.take read ++ host.public_key.drop read) test_file)
  | _, _ => throw .page_fault

end KernelOfTruth.Code
