/-
  Nemu.Cpu.Exec.Arith

  `cpu/exec/arith`: the bodies (`do_execute`) of the arithmetic templates.  In
  each of them `result` is a `DATA_TYPE` and the operand values are 32-bit.
-/

import Nemu.Cpu.Exec.Flags

namespace Nemu

namespace Emu

/-! ## Addition and subtraction -/

def doAdd (w : Width) : EmuM Unit := do
  let dest ← getOp .dest
  let src ← getOp .src
  let result : BitVec w.bits := (dest.val + src.val).setWidth w.bits
  writeOperand w dest result
  updateEflagsPfZfSf (result.signExtend 32)
  setCF (decide (dest.val < result.setWidth 32))
  setOF (msbOf w ((dest.val ^^^ src.val) &&& (dest.val ^^^ result.setWidth 32)))

def doAdc (w : Width) : EmuM Unit := do
  let dest ← getOp .dest
  let src ← getOp .src
  let cpu ← getCpu
  let result : BitVec w.bits :=
    (dest.val + src.val + (BitVec.ofBool cpu.eflags.CF).setWidth 32).setWidth w.bits
  writeOperand w dest result
  updateEflagsPfZfSf (result.signExtend 32)
  setCF (decide (result.setWidth 32 < dest.val))
  setOF (msbOf w (~~~(dest.val ^^^ src.val) &&& (dest.val ^^^ result.setWidth 32)))

def doSub (w : Width) : EmuM Unit := do
  let dest ← getOp .dest
  let src ← getOp .src
  let result : BitVec w.bits := (dest.val - src.val).setWidth w.bits
  writeOperand w dest result
  updateEflagsPfZfSf (result.signExtend 32)
  setCF (decide (dest.val < result.setWidth 32))
  setOF (msbOf w ((dest.val ^^^ src.val) &&& (dest.val ^^^ result.setWidth 32)))

def doSbb (w : Width) : EmuM Unit := do
  let dest ← getOp .dest
  let src ← getOp .src
  let cpu ← getCpu
  let result : BitVec w.bits :=
    (dest.val - (src.val + (BitVec.ofBool cpu.eflags.CF).setWidth 32)).setWidth w.bits
  writeOperand w dest result
  updateEflagsPfZfSf (result.signExtend 32)
  setCF (decide (result.setWidth 32 < dest.val))
  setOF (msbOf w (~~~(dest.val ^^^ src.val) &&& (dest.val ^^^ result.setWidth 32)))

def doCmp (w : Width) : EmuM Unit := do
  let dest ← getOp .dest
  let src ← getOp .src
  let result : BitVec w.bits := (dest.val - src.val).setWidth w.bits
  updateEflagsPfZfSf (result.signExtend 32)
  setCF (decide (dest.val < result.setWidth 32))
  setOF (msbOf w ((dest.val ^^^ src.val) &&& (dest.val ^^^ result.setWidth 32)))

/-! ## Unary operations -/

def doInc (w : Width) : EmuM Unit := do
  let src ← getOp .src
  let result : BitVec w.bits := (src.val + 1).setWidth w.bits
  writeOperand w src result
  updateEflagsPfZfSf (result.signExtend 32)
  setOF (result.setWidth 32 == 0x80000000#32)

def doDec (w : Width) : EmuM Unit := do
  let src ← getOp .src
  let result : BitVec w.bits := (src.val - 1).setWidth w.bits
  writeOperand w src result
  updateEflagsPfZfSf (result.signExtend 32)
  setOF (result.setWidth 32 == 0x7fffffff#32)

-- neg does not update EFLAGS
def doNeg (w : Width) : EmuM Unit := do
  let src ← getOp .src
  writeOperand w src ((-src.val).setWidth w.bits)

/-! ## Multiplication and division -/

/-- The end of `mul` and `imul_rm2a`: a 64-bit product into `AX`, `DX:AX` or
    `EDX:EAX`. -/
def writeProduct (w : Width) (result : BitVec 64) : EmuM Unit := do
  match w with
  | .byte => writeReg .word R_EAX (result.setWidth 16)
  | .word =>
      writeReg .word R_EAX (result.setWidth 16)
      writeReg .word R_EDX ((result.sshiftRight 16).setWidth 16)
  | .long =>
      writeRegL R_EAX (result.setWidth 32)
      writeRegL R_EDX ((result.sshiftRight 32).setWidth 32)

-- the product is unsigned; only its 2n low bits are kept
def doMul (w : Width) : EmuM Unit := do
  let src ← getOp .src
  let a ← readReg w R_EAX
  writeProduct w (a.setWidth 64 * src.val.setWidth 64)

/-- `imul_rm2a`: `(DATA_TYPE_S)REG(R_EAX) * (DATA_TYPE_S)op_src->val`. -/
def imulRm2aBody (w : Width) : EmuM Unit := do
  let src ← getOp .src
  let a ← readReg w R_EAX
  writeProduct w (a.signExtend 64 * (src.val.setWidth w.bits).signExtend 64)

-- `RET_DATA_TYPE` has twice the width of `DATA_TYPE`
def doImul (w : Width) : EmuM Unit := do
  let src ← getOp .src
  let src2 ← getOp .src2
  let dest ← getOp .dest
  let result := src.val.setWidth (2 * w.bits) * src2.val.setWidth (2 * w.bits)
  writeOperand w dest (result.setWidth w.bits)

def doDiv (w : Width) : EmuM Unit := do
  let src ← getOp .src
  let b := (src.val.setWidth w.bits).setWidth 64
  let cpu ← getCpu
  let a : BitVec 64 :=
    match w with
    | .byte => (cpu.reg .word R_EAX).setWidth 64
    | w => ((cpu.reg w R_EDX).setWidth 64 <<< w.bits) ||| (cpu.reg w R_EAX).setWidth 64
  if b = 0 then abort .divideError
  else
    writeReg w R_EAX ((a / b).setWidth w.bits)
    writeReg w R_EDX ((a % b).setWidth w.bits)

def doIdiv (w : Width) : EmuM Unit := do
  let src ← getOp .src
  let b := (src.val.setWidth w.bits).signExtend 64
  let cpu ← getCpu
  let a : BitVec 64 :=
    match w with
    | .byte => (cpu.reg .word R_EAX).signExtend 64
    | w => ((cpu.reg w R_EDX).setWidth 64 <<< w.bits) ||| (cpu.reg w R_EAX).setWidth 64
  if b = 0 ∨ (a = BitVec.intMin 64 ∧ b = -1) then abort .divideError
  else
    writeReg w R_EAX ((a.sdiv b).setWidth w.bits)
    writeReg w R_EDX ((a.srem b).setWidth w.bits)

end Emu

end Nemu
