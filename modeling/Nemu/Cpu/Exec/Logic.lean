/-
  Nemu.Cpu.Exec.Logic

  `cpu/exec/logic`: bitwise operations, `test` and the shifts.
-/

import Nemu.Cpu.Exec.Flags

namespace Nemu

namespace Emu

/-- The common body of `and`, `or` and `xor`. -/
def doBitwise (op : BitVec 32 → BitVec 32 → BitVec 32) (w : Width) : EmuM Unit := do
  let dest ← getOp .dest
  let src ← getOp .src
  let result : BitVec w.bits := (op dest.val src.val).setWidth w.bits
  writeOperand w dest result
  updateEflagsPfZfSf (result.signExtend 32)
  setOF false
  setCF false

def doAnd : Width → EmuM Unit := doBitwise (· &&& ·)

def doOr : Width → EmuM Unit := doBitwise (· ||| ·)

def doXor : Width → EmuM Unit := doBitwise (· ^^^ ·)

def doNot (w : Width) : EmuM Unit := do
  let src ← getOp .src
  writeOperand w src ((~~~src.val).setWidth w.bits)

/-- The parity of `test`: the bits of the value folded together by shifts. -/
def foldParity {n : Nat} (ret : BitVec n) : BitVec n :=
  let ret := ret ^^^ (ret >>> 4)
  let ret := ret ^^^ (ret >>> 2)
  let ret := ret ^^^ (ret >>> 1)
  ret &&& 1

def doTest (w : Width) : EmuM Unit := do
  let dest ← getOp .dest
  let src ← getOp .src
  let ret : BitVec w.bits := (dest.val &&& src.val).setWidth w.bits
  modifyFlags (fun f => { f with SF := ret.msb, ZF := ret == 0, CF := false, OF := false })
  -- PF == 1, even number, PF == 0, odd number
  modifyFlags (fun f => { f with PF := foldParity ret == 0 })
  -- the source then recomputes the flags with the shared helper
  updateEflagsPfZfSf (ret.signExtend 32)
  setOF false
  setCF false

/-! ## Shifts -/

-- `count = src & 0x1f`; the shifted value is promoted to 32 bits and cut back
def doShl (w : Width) : EmuM Unit := do
  let osrc ← getOp .src
  let odest ← getOp .dest
  let count := (osrc.val.setWidth w.bits).toNat % 32
  let dest : BitVec w.bits := ((odest.val.setWidth w.bits).setWidth 32 <<< count).setWidth w.bits
  writeOperand w odest dest
  updateEflagsPfZfSf (dest.setWidth 32)

def doShr (w : Width) : EmuM Unit := do
  let osrc ← getOp .src
  let odest ← getOp .dest
  let count := (osrc.val.setWidth w.bits).toNat % 32
  let dest : BitVec w.bits := odest.val.setWidth w.bits >>> count
  writeOperand w odest dest
  updateEflagsPfZfSf (dest.setWidth 32)

-- the destination is signed here, so the flag helper sees it sign-extended
def doSar (w : Width) : EmuM Unit := do
  let osrc ← getOp .src
  let odest ← getOp .dest
  let count := (osrc.val.setWidth w.bits).toNat % 32
  let dest : BitVec w.bits := (odest.val.setWidth w.bits).sshiftRight count
  writeOperand w odest dest
  updateEflagsPfZfSf (dest.signExtend 32)

/-- The loop of `shrd`: each turn moves the lowest bit of `inp` in at the top of `out`. -/
def shrdLoop {n : Nat} : Nat → BitVec n → BitVec n → BitVec n
  | 0, _, out => out
  | count + 1, inp, out =>
      let out := out >>> 1
      let out := out ||| ((inp &&& 1#n) <<< (n - 1))
      shrdLoop count (inp >>> 1) out

-- the source has this body at 16 and 32 bits only
def doShrd (w : Width) : EmuM Unit := do
  let dest ← getOp .dest
  let src2 ← getOp .src2
  let src ← getOp .src
  let inp : BitVec w.bits := dest.val.setWidth w.bits
  let out : BitVec w.bits := src2.val.setWidth w.bits
  -- `uint8_t count`, then `count &= 0x1f`
  let count := src.val.toNat % 256 % 32
  writeOperand w src2 (shrdLoop count inp out)

/-- `shrdi`: uses `decode_si_rm2r` to read 1 byte immediate. -/
def shrdi (w : Width) (eip : Addr) : EmuM Nat := do
  let len ← decodeSiRm2r w (eip + 1)
  let o ← getOp .dest
  let i ← regOf o
  let v ← readReg32 w i
  setVal .dest v
  doShrd w
  return len + 1

end Emu

end Nemu
