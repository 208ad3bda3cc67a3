/-
  Nemu.Cpu.Exec.DataMov

  `cpu/exec/data-mov`, `cpu/exec/string` (one element of a string instruction)
  and `cpu/exec/misc`.
-/

import Nemu.Cpu.Exec.Flags

namespace Nemu

namespace Emu

/-! ## Moves -/

def doMov (w : Width) : EmuM Unit := do
  let dest ← getOp .dest
  let src ← getOp .src
  writeOperand w dest (src.val.setWidth w.bits)

def movA2moffs (w : Width) (eip : Addr) : EmuM Nat := do
  let addr ← instrFetch (eip + 1) 4
  let v ← readReg32 w R_EAX
  memW w addr v
  return 5

def movMoffs2a (w : Width) (eip : Addr) : EmuM Nat := do
  let addr ← instrFetch (eip + 1) 4
  let v ← memR w addr
  writeReg w R_EAX (v.setWidth w.bits)
  return 5

/-- The common body of `movzb`, `movsb` and `movsw`: `from_` is the width of the
    source operand, `ext` its extension to 32 bits. -/
def movExt (from_ : Width) (ext : BitVec from_.bits → BitVec 32) (w : Width) (eip : Addr) :
    EmuM Nat := do
  let len ← decodeRm2r from_ (eip + 1)
  let dest ← getOp .dest
  let src ← getOp .src
  let i ← regOf dest
  writeReg w i ((ext (src.val.setWidth from_.bits)).setWidth w.bits)
  return len + 1

def movzb : Width → Addr → EmuM Nat := movExt .byte (·.setWidth 32)

def movsb : Width → Addr → EmuM Nat := movExt .byte (·.signExtend 32)

def movsw : Width → Addr → EmuM Nat := movExt .word (·.signExtend 32)

-- `REG(R_EDX) = -(MSB(REG(R_EAX)))`
def cltd (w : Width) (_eip : Addr) : EmuM Nat := do
  let a ← readReg w R_EAX
  writeReg w R_EDX (if a.msb then -1 else 0)
  return 1

def lea (eip : Addr) : EmuM Nat := do
  let m ← fetchModRM (eip + 1)
  let len ← loadAddr (eip + 1) m .src
  let src ← getOp .src
  match src.loc with
  | .mem addr =>
      writeRegL m.reg addr
      return 1 + len
  | _ => abort .assertion  -- `load_addr` has just made it a memory operand

/-! ## The stack -/

-- a 1-byte operand is sign-extended first; always a 4-byte slot
def doPush (w : Width) : EmuM Unit := do
  let src ← getOp .src
  let v := if w = .byte then (src.val.setWidth 8).signExtend 32 else src.val
  setVal .src v
  let esp ← readRegL R_ESP
  writeRegL R_ESP (esp - 4)
  swaddrWrite (esp - 4) 4 v

/-- The 16- and 32-bit instances of `pop`; the slot is cleared behind the pop. -/
def doPop (w : Width) : EmuM Unit := do
  let src ← getOp .src
  let sp ← readReg32 w R_ESP
  let v ← memR w sp
  writeOperand w src (v.setWidth w.bits)
  let sp ← readReg32 w R_ESP
  memW w sp 0
  let sp ← readReg w R_ESP
  writeReg w R_ESP (sp + BitVec.ofNat _ w.bytes)

def leave (_eip : Addr) : EmuM Nat := do
  let ebp ← readRegL R_EBP
  writeRegL R_ESP ebp
  let v ← swaddrRead ebp 4
  writeRegL R_EBP v
  writeRegL R_ESP (ebp + 4)
  return 1

/-! ## String instructions -/

-- `r += (cpu.eflags.DF ? -DATA_BYTE : DATA_BYTE)`
def stepIndex (w : Width) (r : RegIdx) : EmuM Unit := do
  let cpu ← getCpu
  let v := cpu.gpr r
  writeRegL r
    (if cpu.eflags.DF then v - BitVec.ofNat 32 w.bytes else v + BitVec.ofNat 32 w.bytes)

def movs (w : Width) (_eip : Addr) : EmuM Nat := do
  let cpu ← getCpu
  let v ← memR w (cpu.gpr R_ESI)
  memW w (cpu.gpr R_EDI) v
  stepIndex w R_ESI
  stepIndex w R_EDI
  return 1

def stos (w : Width) (_eip : Addr) : EmuM Nat := do
  let cpu ← getCpu
  memW w (cpu.gpr R_EDI) ((cpu.reg w R_EAX).setWidth 32)
  stepIndex w R_EDI
  return 1

def scas (w : Width) (_eip : Addr) : EmuM Nat := do
  let dest ← readReg w R_EAX
  let edi ← readRegL R_EDI
  let v ← memR w edi
  let src : BitVec w.bits := v.setWidth w.bits
  let result := dest - src
  updateEflagsPfZfSf (result.signExtend 32)
  setCF (decide (dest < result))
  setOF ((dest ^^^ src) &&& (dest ^^^ result)).msb
  stepIndex w R_EDI
  return 1

/-! ## Miscellaneous -/

def nop (_eip : Addr) : EmuM Nat := pure 1

-- `do_int3` of `monitor/cpu-exec.c`
def doInt3 : EmuM Unit := setNemuState .STOP

def int3 (_eip : Addr) : EmuM Nat := do
  doInt3
  return 1

/-- Invalid opcode: print the bytes at `eip` and fail. -/
def inv (eip : Addr) : EmuM Nat := do
  let _ ← instrFetch eip 4
  let _ ← instrFetch (eip + 4) 4
  abort .assertion

def nemuTrap (_eip : Addr) : EmuM Nat := do
  let eax ← readRegL R_EAX
  if eax = 2 then return 1
  else
    setNemuState .END
    return 1

end Emu

end Nemu
