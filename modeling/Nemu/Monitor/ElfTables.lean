/-
  Nemu.Monitor.ElfTables

  `load_elf_tables` and `getValue` of `monitor/debug/elf.c` over the bytes of the executable.
  `malloc` finds room, and file offsets have 64 bits.
-/

import Nemu.Monitor.Expr.Eval

namespace Nemu.Elf

/-! ## Buffers -/

def byteIn (buf : List Byte) (i : Nat) : Except Abort Byte :=
  match buf[i]? with
  | some b => .ok b
  | none => .error .outOfBounds

def halfIn (buf : List Byte) (i : Nat) : Except Abort (BitVec 16) := do
  let low ← byteIn buf i
  let high ← byteIn buf (i + 1)
  return high ++ low

def wordIn (buf : List Byte) (i : Nat) : Except Abort (BitVec 32) := do
  let low ← halfIn buf i
  let high ← halfIn buf (i + 2)
  return high ++ low

/-- `fseek` to `offset`, `ret = fread(buf, size, 1, fp)` and `assert(ret == 1)`; no item of size
    0 is ever read. -/
def freadAt (file : List Byte) (offset size : Nat) : Except Abort (List Byte) := do
  let got := (file.drop offset).take size
  cAssert (decide (size ≠ 0 ∧ got.length = size))
  return got

/-- `strcmp(buf + i, str) == 0`. -/
def strcmpEq (buf : List Byte) : Nat → List Byte → Except Abort Bool
  | i, [] => do return (← byteIn buf i) == 0
  | i, c :: str => do
      if (← byteIn buf i) = c then strcmpEq buf (i + 1) str else return false

/-! ## The file -/

-- `sizeof(Elf32_Ehdr)`, `sizeof(Elf32_Shdr)`, `sizeof(Elf32_Sym)`
def sizeofEhdr : Nat := 52

def sizeofShdr : Nat := 40

def sizeofSym : Nat := 16

def magic : List Byte := [0x7f, 0x45, 0x4c, 0x46]

/-- The assertions on the header. -/
def checkHeader (elf : List Byte) : Except Abort Unit := do
  cAssert (elf.take 4 == magic)
  cAssert ((← byteIn elf 4) == 1)        -- `ELFCLASS32`
  cAssert ((← byteIn elf 5) == 1)        -- `ELFDATA2LSB`
  cAssert ((← byteIn elf 6) == 1)        -- `EV_CURRENT`
  let osabi ← byteIn elf 7
  cAssert (osabi == 0 || osabi == 3)     -- `ELFOSABI_SYSV`, `ELFOSABI_LINUX`
  cAssert ((← byteIn elf 8) == 0)
  cAssert ((← halfIn elf 16) == 2)       -- `ET_EXEC`
  cAssert ((← halfIn elf 18) == 3)       -- `EM_386`
  cAssert ((← wordIn elf 20) == 1)       -- `EV_CURRENT`

def SHT_SYMTAB : BitVec 32 := 2

def SHT_STRTAB : BitVec 32 := 3

def bytesOf (s : List Char) : List Byte := s.map fun c => BitVec.ofNat 8 c.toNat

def symtabName : List Byte := bytesOf ['.', 's', 'y', 'm', 't', 'a', 'b']

def strtabName : List Byte := bytesOf ['.', 's', 't', 'r', 't', 'a', 'b']

/-- `symtab`, `strtab` and `nr_symtab_entry` while the sections are gone through. -/
structure Loading where
  symtab : Option (List Byte)
  strtab : Option (List Byte)
  nr_symtab_entry : Nat

section

variable (file sh shstrtab : List Byte)

-- `sh[i].sh_type == type && strcmp(shstrtab + sh[i].sh_name, name) == 0`
def isSection (i : Nat) (type : BitVec 32) (name : List Byte) : Except Abort Bool := do
  if (← wordIn sh (sizeofShdr * i + 4)) = type then
    strcmpEq shstrtab (← wordIn sh (sizeofShdr * i)).toNat name
  else return false

def readSection (i : Nat) : Except Abort (List Byte) := do
  let sh_size ← wordIn sh (sizeofShdr * i + 20)
  let sh_offset ← wordIn sh (sizeofShdr * i + 16)
  freadAt file sh_offset.toNat sh_size.toNat

def loadSection (i : Nat) (t : Loading) : Except Abort Loading := do
  if ← isSection sh shstrtab i SHT_SYMTAB symtabName then
    let symtab ← readSection file sh i
    return { t with symtab := some symtab, nr_symtab_entry := symtab.length / sizeofSym }
  else if ← isSection sh shstrtab i SHT_STRTAB strtabName then
    let strtab ← readSection file sh i
    return { t with strtab := some strtab }
  else return t

/-- `for(i = 0; i < elf->e_shnum; i ++)`, from `i` on. -/
def loadSections : Nat → Nat → Loading → Except Abort Loading
  | 0, _, t => .ok t
  | n + 1, i, t => do
      let t ← loadSection file sh shstrtab i t
      loadSections n (i + 1) t

end

/-- What is there for future use. -/
structure Tables where
  strtab : List Byte
  symtab : List Byte
  nr_symtab_entry : Nat
deriving DecidableEq

/-- `load_elf_tables`; `exec_file` is the file, if it can be opened. -/
def loadElfTables (argc : Nat) (exec_file : Option (List Byte)) : Except Abort Tables := do
  cAssert (argc == 2)
  match exec_file with
  | none => .error .assertion
  | some file => do
      let elf ← freadAt file 0 sizeofEhdr
      checkHeader elf
      let e_shentsize ← halfIn elf 46
      let e_shnum ← halfIn elf 48
      let e_shoff ← wordIn elf 32
      let sh ← freadAt file e_shoff.toNat (e_shentsize.toNat * e_shnum.toNat)
      let e_shstrndx ← halfIn elf 50
      let shstrtab ← readSection file sh e_shstrndx.toNat
      let t ← loadSections file sh shstrtab e_shnum.toNat 0 ⟨none, none, 0⟩
      match t.strtab, t.symtab with
      | some strtab, some symtab => return ⟨strtab, symtab, t.nr_symtab_entry⟩
      | _, _ => .error .assertion

/-! ## Looking up -/

/-- The loop of `getValue` from entry `i` on. -/
def getValueFrom (t : Tables) (str : List Byte) (success : Bool) :
    Nat → Nat → Except Abort (BitVec 32 × Bool)
  | 0, _ => .ok (0, false)
  | n + 1, i => do
      let st_info ← byteIn t.symtab (sizeofSym * i + 12)
      if st_info &&& 0xf = STT_OBJECT then
        let st_name ← wordIn t.symtab (sizeofSym * i)
        if ← strcmpEq t.strtab st_name.toNat str then
          return (← wordIn t.symtab (sizeofSym * i + 4), success)
        else getValueFrom t str success n (i + 1)
      else getValueFrom t str success n (i + 1)

/-- `getValue`: the value and what it leaves in `*success`. -/
def getValue (t : Tables) (str : List Byte) (success : Bool) : Except Abort (BitVec 32 × Bool) :=
  getValueFrom t str success t.nr_symtab_entry 0

end Nemu.Elf
