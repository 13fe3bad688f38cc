import KernelOfTruth.Code.Strings

/-!
# `kernel/core/elf.c`

A module is an ELF image in memory. All of its structures are read through their address, and all
arithmetic on addresses wraps at 64 bits. A function that returns a pointer returns 0 for NULL.
-/

namespace KernelOfTruth.Code

/-! ## `include/truth/elf.h` -/

def EM_X86_64 : Word := 62
def EV_CURRENT : Word := 1
def ELFCLASS64 : Byte := 2
def ET_REL : Word := 1
def ELFMAG : List Byte := [0x7f, 0x45, 0x4c, 0x46]

/-- `sizeof(struct elf64_header)`. -/
def headerSize : Word := 64

section Header

variable (header : Word)

def e_type : Kernel Memory Word := Memory.load 2 (header + 16)
def e_machine : Kernel Memory Word := Memory.load 2 (header + 18)
def e_version : Kernel Memory Word := Memory.load 4 (header + 20)
def e_shoff : Kernel Memory Word := Memory.load 8 (header + 40)
def e_shentsize : Kernel Memory Word := Memory.load 2 (header + 58)
def e_shnum : Kernel Memory Word := Memory.load 2 (header + 60)
def e_shstrndx : Kernel Memory Word := Memory.load 2 (header + 62)

end Header

def SHT_NULL : Word := 0

/-- `sizeof(struct elf_section_header)`. -/
def sectionHeaderSize : Word := 64

section Section

variable (sections index : Word)

def sectionAt : Word := sections + sectionHeaderSize * index

def sh_name : Kernel Memory Word := Memory.load 4 (sectionAt sections index)
def sh_type : Kernel Memory Word := Memory.load 4 (sectionAt sections index + 4)
def sh_offset : Kernel Memory Word := Memory.load 8 (sectionAt sections index + 24)
def sh_size : Kernel Memory Word := Memory.load 8 (sectionAt sections index + 32)

end Section

def DT_SONAME : Word := 14

/-- `sizeof(struct elf_dyn)`. -/
def dynSize : Word := 16

def d_tag (dynamic index : Word) : Kernel Memory Word := Memory.load 8 (dynamic + dynSize * index)
def d_val (dynamic index : Word) : Kernel Memory Word := Memory.load 8 (dynamic + dynSize * index + 8)

def SHN_UNDEF : Word := 0

/-- `sizeof(struct elf_symbol)`. -/
def symbolSize : Word := 24

section Symbol

variable (symtab index : Word)

def symbolAt : Word := symtab + symbolSize * index

def st_name : Kernel Memory Word := Memory.load 4 (symbolAt symtab index)
def st_info : Kernel Memory Word := Memory.load 1 (symbolAt symtab index + 4)
def st_index : Kernel Memory Word := Memory.load 2 (symbolAt symtab index + 6)
def st_value : Kernel Memory Word := Memory.load 8 (symbolAt symtab index + 8)

end Symbol

def ELF64_ST_BIND (i : Word) : Word := i >>> 4
def ELF64_ST_TYPE (i : Word) : Word := i &&& 0x0f

def STB_GLOBAL : Word := 1
def STT_OBJECT : Word := 1
def STT_FUNC : Word := 2
def STT_FILE : Word := 4

/-- `sizeof(struct elf_rela)`. -/
def relaSize : Word := 24

section Rela

variable (rela index : Word)

def relaAt : Word := rela + relaSize * index

def r_offset : Kernel Memory Word := Memory.load 8 (relaAt rela index)
def r_info : Kernel Memory Word := Memory.load 8 (relaAt rela index + 8)
def r_addend : Kernel Memory Word := Memory.load 8 (relaAt rela index + 16)

end Rela

def ELF64_R_SYM (i : Word) : Word := i >>> 32
def ELF64_R_TYPE (i : Word) : Word := i &&& 0xffffffff

def R_X86_64_64 : Word := 1
def R_X86_64_GLOB_DAT : Word := 6
def R_X86_64_JUMP_SLOT : Word := 7
def R_X86_64_RELATIVE : Word := 8

/-! ## Sections -/

def elf_verify_x86_64_compatible (header : Word) : Kernel Memory Bool := do
  if (← e_machine header) = EM_X86_64 then return (← Memory.loadByte (header + 4)) = ELFCLASS64
  else pure false

def elf_verify_shared_object (header : Word) : Kernel Memory Bool := do
  return (← e_type header) = ET_REL

def elf_verify (start size : Word) : Kernel Memory Bool :=
  if size ≤ headerSize then pure false else do
  if (← memcmp (pointer start) (constant ELFMAG) 4) ≠ 0 then pure false else do
  if (← e_version start) ≠ EV_CURRENT then pure false else do
  if !(← elf_verify_x86_64_compatible start) then pure false else do
  if (← e_shstrndx start) > (← e_shnum start) then pure false else
  pure true

/-- The loop of `elf_get_section`, with `n` sections left from number `i` on. -/
def sectionLoop (start size : Word) (name : List Byte) (sections strtab : Word) : Nat → Word → Kernel Memory (Word × Word)
  | 0, _ => pure (0, 0)
  | n + 1, i => do
    let section_name := strtab + (← sh_name sections i)
    if section_name ≥ start + size then sectionLoop start size name sections strtab n (i + 1) else do
    if (← strncmp (constant name) (pointer section_name) name.length) = 0 then do
      let found := start + (← sh_offset sections i)
      if found > start + size then pure (0, 0) else do
      let section_size ← sh_size sections i
      pure (found, section_size)
    else sectionLoop start size name sections strtab n (i + 1)

/-- The section and its size. The size has no meaning when the section is NULL. -/
def elf_get_section (header size : Word) (name : List Byte) : Kernel Memory (Word × Word) := do
  let sections := header + (← e_shoff header)
  let shnum ← e_shnum header
  if sections + sectionHeaderSize * shnum > header + size then pure (0, 0) else do
  let strtab := header + (← sh_offset sections (← e_shstrndx header))
  if strtab ≥ header + size then pure (0, 0) else
  sectionLoop header size name sections strtab shnum.toNat 0

def elf_get_section_index (header size index : Word) : Kernel Memory Word := do
  let sections := header + (← e_shoff header)
  if sections + sectionHeaderSize * (← e_shnum header) > header + size then pure 0 else
  if sectionAt sections index < header + size then pure (sectionAt sections index) else
  pure 0

/-- The loop of `elf_get_shared_object_name`, with `n` entries of `.dynamic` left from number `i` on. -/
def sonameLoop (dynamic dynstrtab dynstrtab_size : Word) : Nat → Word → Kernel Memory Word
  | 0, _ => pure 0
  | n + 1, i => do
    if (← d_tag dynamic i) = DT_SONAME then do
      let soname := dynstrtab + (← d_val dynamic i)
      if soname > dynstrtab + dynstrtab_size then pure 0 else
      pure soname
    else sonameLoop dynamic dynstrtab dynstrtab_size n (i + 1)

def elf_get_shared_object_name (header size : Word) : Kernel Memory Word := do
  if !(← elf_verify header size) then pure 0 else do
  if ← elf_verify_shared_object header then pure 0 else do
  let (dynamic, dynamic_size) ← elf_get_section header size (ascii ".dynamic")
  if dynamic = 0 ∨ dynamic + dynamic_size > header + size then pure 0 else do
  let (dynstrtab, dynstrtab_size) ← elf_get_section header size (ascii ".dynstr")
  if dynstrtab = 0 ∨ dynstrtab + dynstrtab_size > header + size then pure 0 else
  sonameLoop dynamic dynstrtab dynstrtab_size (dynamic_size / dynSize).toNat 0

/-! ## Symbols and relocations -/

def ELF_BAD_BASE_ADDRESS : Word := 0xffffffffffffffff

/-- The loop of `elf_get_base_address`, with `n` sections left from number `i` on. -/
def baseLoop (sections : Word) : Nat → Word → Word → Kernel Memory Word
  | 0, _, base => pure base
  | n + 1, i, base => do
    if (← sh_type sections i) ≠ SHT_NULL then do
      let offset ← sh_offset sections i
      if offset < base then baseLoop sections n (i + 1) offset
      else baseLoop sections n (i + 1) base
    else baseLoop sections n (i + 1) base

/-- The product of the two 16-bit fields is an `int`. -/
def elf_get_base_address (module_start module_size : Word) : Kernel Memory Word := do
  let sections := module_start + (← e_shoff module_start)
  let shnum ← e_shnum module_start
  let table_size := (((← e_shentsize module_start) * shnum).setWidth 32).signExtend 64
  if sections + table_size > module_start + module_size then pure 0 else do
  let base ← baseLoop sections shnum.toNat 0 ELF_BAD_BASE_ADDRESS
  if base = ELF_BAD_BASE_ADDRESS then pure 0 else
  pure (module_start + base)

section Relocate

variable (symbol_get : Word → Kernel Memory Word) (module_start module_size rela dynsym dynstr base : Word)

/-- The body of the loop of `elf_relocate`, for entry number `i`. It returns `Ok` to go on. -/
def relocateEntry (i : Word) : Kernel Memory Status := do
  let info ← r_info rela i
  let r_type := ELF64_R_TYPE info
  if r_type = R_X86_64_RELATIVE then do
    let pointer := module_start + (← r_offset rela i)
    let value := base + (← r_addend rela i)
    Memory.store 8 pointer value
    pure .Ok
  else if r_type = R_X86_64_JUMP_SLOT ∨ r_type = R_X86_64_GLOB_DAT ∨ r_type = R_X86_64_64 then do
    let symbol := ELF64_R_SYM info
    if symbolAt dynsym symbol + symbolSize > module_start + module_size then pure .Error_Invalid else do
    let pointer := base + (← r_offset rela i)
    if (← st_index dynsym symbol) = SHN_UNDEF then do
      let name ← st_name dynsym symbol
      if symbolAt dynsym name > module_start + module_size then pure .Error_Invalid else do
      let value ← symbol_get (dynstr + name)
      if value = 0 then pure .Error_Invalid else do
      Memory.store 8 pointer value
      pure .Ok
    else if r_type = R_X86_64_64 then do
      let value := base + (← st_value dynsym symbol) + (← r_addend rela i)
      Memory.store 8 pointer value
      pure .Ok
    else do
      let value := base + (← st_value dynsym symbol)
      Memory.store 8 pointer value
      pure .Ok
  else pure .Error_Invalid

/-- The loop of `elf_relocate`, with `n` entries left from number `i` on. -/
def relocateLoop : Nat → Word → Kernel Memory Status
  | 0, _ => pure .Ok
  | n + 1, i => bubble (relocateEntry symbol_get module_start module_size rela dynsym dynstr base i)
    (relocateLoop n (i + 1))

end Relocate

def elf_relocate (symbol_get : Word → Kernel Memory Word) (module_start module_size : Word) : Kernel Memory Status := do
  let (dynstr, _) ← elf_get_section module_start module_size (ascii ".dynstr")
  if dynstr = 0 then pure .Error_Invalid else do
  let (rela, _) ← elf_get_section module_start module_size (ascii ".rela.dyn")
  if rela = 0 then pure .Error_Invalid else do
  let (dynsym, _) ← elf_get_section module_start module_size (ascii ".dynsym")
  if dynsym = 0 then pure .Error_Invalid else do
  let (rela, rela_size) ← elf_get_section module_start module_size (ascii ".rela.dyn")
  if rela = 0 then pure .Error_Invalid else do
  let base ← elf_get_base_address module_start module_size
  if base = 0 then pure .Error_Invalid else
  relocateLoop symbol_get module_start module_size rela dynsym dynstr base (rela_size / relaSize).toNat 0

/-- The loop of `elf_get_symbol_address`, with `n` symbols left from number `i` on. -/
def symbolLoop (elf size : Word) (name : List Byte) (strtab symtab base : Word) : Nat → Word → Kernel Memory Word
  | 0, _ => pure 0
  | n + 1, i => do
    if ELF64_R_TYPE (← st_info symtab i) ≠ STT_FILE then do
      let symbol_name := strtab + (← st_name symtab i)
      if symbol_name > elf + size then pure 0 else do
      let header ← elf_get_section_index elf size (← st_index symtab i)
      if header = 0 then pure 0 else do
      if (← strncmp (pointer symbol_name) (constant name) name.length) = 0 then do
        let location := base + (← st_value symtab i)
        if location > elf + size then pure 0 else
        pure location
      else symbolLoop elf size name strtab symtab base n (i + 1)
    else symbolLoop elf size name strtab symtab base n (i + 1)

def elf_get_symbol_address (elf size : Word) (name : List Byte) : Kernel Memory Word := do
  let (strtab, _) ← elf_get_section elf size (ascii ".strtab")
  if strtab = 0 then pure 0 else do
  let (symtab, symtab_size) ← elf_get_section elf size (ascii ".symtab")
  if symtab = 0 then pure 0 else do
  let base ← elf_get_base_address elf size
  if base = 0 then pure 0 else
  symbolLoop elf size name strtab symtab base (symtab_size / symbolSize).toNat 0

end KernelOfTruth.Code
