/-
  Nemu.Cpu.Exec.Control

  `cpu/exec/control`: jumps, calls and returns.  The main loop adds the returned
  length to `cpu.eip` afterwards, so a helper that sets `cpu.eip` has to take the
  length off first.
-/

import Nemu.Cpu.Exec.Flags

namespace Nemu

/-! ## Conditional jumps -/

/-- The conditional jumps. -/
inductive Jcc where
  | je
  | jne
  | ja
  | jbe
  | jg
  | jge
  | jl
  | jle
  | js
  | jns
deriving DecidableEq, Repr

/-- The flag test of each template, as written there. -/
def Jcc.test (f : EFlags) : Jcc → Bool
  | .je => f.ZF == true
  | .jne => f.ZF == false
  | .ja => f.ZF == false && f.CF == false
  | .jbe => f.ZF == true && f.CF == true
  | .jg => f.ZF == false && f.SF == f.OF
  | .jge => f.SF == f.OF
  | .jl => f.SF != f.OF
  | .jle => f.SF != f.OF || f.ZF == true
  | .js => f.SF == true
  | .jns => f.SF == false

namespace Emu

/-- The common body of the conditional jumps; `displacement` is a `DATA_TYPE_S`. -/
def doJcc (j : Jcc) (w : Width) : EmuM Unit := do
  let src ← getOp .src
  let displacement := (src.val.setWidth w.bits).signExtend 32
  let cpu ← getCpu
  if j.test cpu.eflags then setEip (cpu.eip + displacement) else pure ()

-- `j.._i_b`, `j.._i_w`, `j.._i_l`
def jccI (j : Jcc) (w : Width) : Addr → EmuM Nat := idex (decodeI w) (doJcc j w)

/-! ## Jumps and calls -/

def doJmp : EmuM Unit := do
  let src ← getOp .src
  let cpu ← getCpu
  setEip (cpu.eip + src.val)

def jmpSi (w : Width) : Addr → EmuM Nat := idex (decodeSi w) doJmp

def jmpRmL (eip : Addr) : EmuM Nat := do
  let len ← decodeRm .long (eip + 1)
  let src ← getOp .src
  setEip (src.val - BitVec.ofNat 32 (len + 1))
  return len + 1

def callI (w : Width) (eip : Addr) : EmuM Nat := do
  let len ← decodeI w (eip + 1)
  let esp ← readRegL R_ESP
  writeRegL R_ESP (esp - BitVec.ofNat 32 w.bytes)
  let cpu ← getCpu
  memW w (cpu.gpr R_ESP) (cpu.eip + BitVec.ofNat 32 (len + 1))
  -- the displacement is decoded but never added to `cpu.eip`
  return len + 1

def callRm (w : Width) (eip : Addr) : EmuM Nat := do
  let len ← decodeRm w (eip + 1)
  let esp ← readRegL R_ESP
  writeRegL R_ESP (esp - BitVec.ofNat 32 w.bytes)
  let cpu ← getCpu
  memW w (cpu.gpr R_ESP) (cpu.eip + BitVec.ofNat 32 (len + 1))
  let src ← getOp .src
  setEip ((src.val.setWidth w.bits).signExtend 32 - BitVec.ofNat 32 (len + 1))
  return len + 1

/-! ## Returns -/

-- `cpu.eip = MEM_R(reg_l(R_ESP))`, cut to 16 bits in the 16-bit instance
def popEip (w : Width) : EmuM Unit := do
  let esp ← readRegL R_ESP
  let v ← memR w esp
  setEip (if w = .word then v &&& 0xffff#32 else v)

def retN (w : Width) (_eip : Addr) : EmuM Nat := do
  popEip w
  let esp ← readRegL R_ESP
  writeRegL R_ESP (esp + BitVec.ofNat 32 w.bytes)
  return 1

/-- The loop of `ret_i`: store 0 at `REG(R_ESP) + i` for `i < value` in steps of
    `DATA_BYTE`; `n` bounds the iterations left. -/
def clearArgs (w : Width) (value i : Nat) : Nat → EmuM Unit
  | 0 => pure ()
  | n + 1 =>
      if i < value then do
        let sp ← readReg32 w R_ESP
        memW w (sp + BitVec.ofNat 32 i) 0
        clearArgs w value (i + w.bytes) n
      else pure ()

def retI (w : Width) (eip : Addr) : EmuM Nat := do
  let value ← instrFetch (eip + 1) 2
  popEip w
  let sp ← readReg w R_ESP
  writeReg w R_ESP (sp + BitVec.ofNat _ w.bytes)
  -- each iteration advances `i` by at least one, so `value` of them are enough
  clearArgs w value.toNat 0 value.toNat
  let sp ← readReg w R_ESP
  writeReg w R_ESP (sp + value.setWidth w.bits)
  return 1

end Emu

end Nemu
