import KernelOfTruth.Code.Elf
import KernelOfTruth.Code.Symbols

/-!
# `kernel/core/module.c`

The check of a signature is a parameter: it gets the address of the signature, and the address and the size of
the message, and checks them with `Kernel_Public_Key`.
-/

namespace KernelOfTruth.Code

/-- The header with the public key defines it, with the text that the signing tool has. -/
def SIGNATURE_MAGIC_STRING : List Byte := ascii "Kernel of Truth truesign 1.0.0"

/-- With the NUL at its end. -/
def signatureMagicSize : Word := 31

def crypto_sign_ed25519_BYTES : Word := 64

/-- The functions of the ed25519 library, on buffers: `crypto_sign_ed25519_detached` with what it returns and the
signature that it writes, and `crypto_sign_ed25519_verify_detached`. -/
structure Ed25519 where
  detached : (message secret_key : List Byte) → Int × List Byte
  verify_detached : (signature message public_key : List Byte) → Int

/-- The check with `Kernel_Public_Key`. -/
def Ed25519.check (ed : Ed25519) (public_key : List Byte) (signature message size : Word) : Kernel Memory Int := do
  let signatureBytes ← Memory.loadBytes crypto_sign_ed25519_BYTES.toNat signature
  let messageBytes ← Memory.loadBytes size.toNat message
  pure (ed.verify_detached signatureBytes messageBytes public_key)

section Verify

variable (crypto_sign_ed25519_verify_detached : Word → Word → Word → Kernel Memory Int)

def module_verify (module_start module_size : Word) : Kernel Memory Status := do
  let verify_size := module_size - crypto_sign_ed25519_BYTES - signatureMagicSize
  let signature_magic := module_start + verify_size
  let signature := module_start + module_size - crypto_sign_ed25519_BYTES
  if (← strncmp (pointer signature_magic) (constant SIGNATURE_MAGIC_STRING) signatureMagicSize.toNat) ≠ 0 then
    pure .Error_Invalid
  else do
  if (← crypto_sign_ed25519_verify_detached signature module_start verify_size) ≠ 0 then
    pure .Error_Invalid
  else pure .Ok

/-- `module_load` up to and with the check of the signature. The name is NULL when there is none. -/
def loadVerified (module_start module_size : Word) : Kernel Memory (Status × Word) := do
  if !(← elf_verify module_start module_size) then pure (.Error_Invalid, 0) else do
  let module_name ← elf_get_shared_object_name module_start module_size
  let status ← module_verify crypto_sign_ed25519_verify_detached module_start module_size
  pure (status, module_name)

end Verify

/-! ## Symbols -/

section Symbols

variable {σ : Type} (kmalloc : Word → Kernel σ Word) (kfree : Word → Kernel σ Unit)

/-- The loop of `module_remove_symbols`, with `n` symbols left from number `i` on. -/
def removeSymbolsLoop (strtab symtab : Word) : Nat → Word → Kernel (SymbolState σ) Unit
  | 0, _ => pure ()
  | n + 1, i => do
    if ELF64_ST_BIND (← inMemory (st_info symtab i)) = STB_GLOBAL then do
      let status ← symbol_remove kmalloc kfree (strtab + (← inMemory (st_name symtab i)))
      assert "module_remove_symbols" (status = .Ok)
      removeSymbolsLoop strtab symtab n (i + 1)
    else removeSymbolsLoop strtab symtab n (i + 1)

def module_remove_symbols (elf size : Word) : Kernel (SymbolState σ) Unit := do
  let (strtab, _) ← inMemory (elf_get_section elf size (ascii ".strtab"))
  if strtab = 0 then pure () else do
  let (symtab, symtab_size) ← inMemory (elf_get_section elf size (ascii ".symtab"))
  if symtab = 0 then pure () else
  removeSymbolsLoop kmalloc kfree strtab symtab (symtab_size / symbolSize).toNat 0

/-- A global function or object. -/
def is_exported (info : Word) : Bool :=
  ELF64_ST_BIND info = STB_GLOBAL && (ELF64_ST_TYPE info = STT_FUNC || ELF64_ST_TYPE info = STT_OBJECT)

/-- The loop of `module_insert_symbols`, with `n` symbols left from number `i` on. -/
def insertSymbolsLoop (elf size strtab symtab : Word) : Nat → Word → Kernel (SymbolState σ) Status
  | 0, _ => pure .Ok
  | n + 1, i => do
    if is_exported (← inMemory (st_info symtab i)) then do
      let header ← inMemory (elf_get_section_index elf size (← inMemory (st_index symtab i)))
      if header = 0 then pure .Error_Invalid else do
      let location := elf + (← inMemory (Memory.load 8 (header + 24))) + (← inMemory (st_value symtab i))
      let status ← symbol_put kmalloc kfree (strtab + (← inMemory (st_name symtab i))) location
      if status ≠ .Ok then pure status else
      insertSymbolsLoop elf size strtab symtab n (i + 1)
    else insertSymbolsLoop elf size strtab symtab n (i + 1)

def module_insert_symbols (elf size : Word) : Kernel (SymbolState σ) Status := do
  let (strtab, _) ← inMemory (elf_get_section elf size (ascii ".strtab"))
  if strtab = 0 then pure .Error_Invalid else do
  let (symtab, symtab_size) ← inMemory (elf_get_section elf size (ascii ".symtab"))
  if symtab = 0 then pure .Error_Invalid else do
  let status ← insertSymbolsLoop kmalloc kfree elf size strtab symtab (symtab_size / symbolSize).toNat 0
  if status ≠ .Ok then do
    module_remove_symbols kmalloc kfree elf size
    pure status
  else pure status

end Symbols

end KernelOfTruth.Code
