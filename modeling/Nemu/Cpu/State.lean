/-
  Nemu.Cpu.State

  The state of the emulated processor and the primitives its instructions are
  written with: `cpu/reg.h`, `cpu/decode/operand.h`, the memory interface
  `swaddr_read` / `swaddr_write`, and `nemu_state`.

  An instruction helper is a program in `EmuM`: it reads and changes an `Emu` or
  stops the process.  The texts of the decoded instructions (`assembly`, the
  `str` of an operand) are only printed and are left out.
-/

import Mathlib.Logic.Function.Basic
import Nemu.Memory.FlatMem
import Nemu.Lib.Outcome

namespace Nemu

open ByteSeq Outcome

/-! ## Registers -/

/-- A register number; its meaning depends on the operand width. -/
abbrev RegIdx := Fin 8

def R_EAX : RegIdx := 0

def R_ECX : RegIdx := 1

def R_EDX : RegIdx := 2

def R_EBX : RegIdx := 3

def R_ESP : RegIdx := 4

def R_EBP : RegIdx := 5

def R_ESI : RegIdx := 6

def R_EDI : RegIdx := 7

def R_CL : RegIdx := 1

/-- The flags of `cpu.eflags` that instructions read or write. -/
structure EFlags where
  CF : Bool
  PF : Bool
  ZF : Bool
  SF : Bool
  DF : Bool
  OF : Bool
deriving DecidableEq, Repr

/-- `CPU_state`. -/
structure CpuState where
  gpr : RegIdx → BitVec 32
  eip : Addr
  eflags : EFlags

namespace CpuState

-- `index & 0x3` and `index >> 2` of `reg_b`
def byteReg (i : RegIdx) : RegIdx := ⟨i.val % 4, by omega⟩

def byteShift (i : RegIdx) : Nat := 8 * (i.val / 4)

/-- `reg_b`, `reg_w`, `reg_l` as values. -/
def reg (c : CpuState) : (w : Width) → RegIdx → BitVec w.bits
  | .byte, i => (c.gpr (byteReg i) >>> byteShift i).setWidth 8
  | .word, i => (c.gpr i).setWidth 16
  | .long, i => c.gpr i

/-- `reg_b`, `reg_w`, `reg_l` as assignment targets: the rest of the 32-bit
    register stays. -/
def setReg (c : CpuState) : (w : Width) → RegIdx → BitVec w.bits → CpuState
  | .byte, i, v =>
      let r := c.gpr (byteReg i)
      let r' := (r &&& ~~~(0xff#32 <<< byteShift i)) ||| (v.setWidth 32 <<< byteShift i)
      { c with gpr := Function.update c.gpr (byteReg i) r' }
  | .word, i, v =>
      { c with gpr := Function.update c.gpr i ((c.gpr i &&& 0xffff0000#32) ||| v.setWidth 32) }
  | .long, i, v => { c with gpr := Function.update c.gpr i v }

end CpuState

/-! ## Decoded operands -/

/-- The `type` of an `Operand` with the member of its union that belongs to it. -/
inductive OpLoc where
  | reg (i : RegIdx)
  | mem (addr : Addr)
  | imm (v : BitVec 32)
deriving DecidableEq, Repr

structure Operand where
  loc : OpLoc
  size : Nat
  val : BitVec 32
deriving DecidableEq, Repr

/-- `ops_decoded`. -/
structure Operands where
  opcode : BitVec 32
  is_operand_size_16 : Bool
  src : Operand
  dest : Operand
  src2 : Operand

-- `op_src`, `op_src2`, `op_dest` as pointers
inductive OpSel where
  | src
  | src2
  | dest
deriving DecidableEq, Repr

namespace Operands

def get (o : Operands) : OpSel → Operand
  | .src => o.src
  | .src2 => o.src2
  | .dest => o.dest

def set (o : Operands) : OpSel → Operand → Operands
  | .src, x => { o with src := x }
  | .src2, x => { o with src2 := x }
  | .dest, x => { o with dest := x }

end Operands

/-! ## The emulator state -/

/-- `nemu_state`. -/
inductive NemuState where
  | STOP
  | RUNNING
  | END
deriving DecidableEq, Repr

/-- Everything an instruction can read or change. -/
structure Emu where
  cpu : CpuState
  mem : FlatMem
  ops : Operands
  nemuState : NemuState

/-- The emulator as the process starts it over a memory: zero-initialised
    globals. -/
def Emu.zeroed (mem : FlatMem) : Emu :=
  let noOperand : Operand := { loc := .reg 0, size := 0, val := 0 }
  { cpu :=
      { gpr := fun _ => 0
        eip := 0
        eflags := { CF := false, PF := false, ZF := false, SF := false, DF := false, OF := false } }
    mem := mem
    ops :=
      { opcode := 0
        is_operand_size_16 := false
        src := noOperand
        dest := noOperand
        src2 := noOperand }
    nemuState := .STOP }

abbrev EmuM := StateT Emu (Except Abort)

namespace Emu

def abort {α : Type} (a : Abort) : EmuM α := fun _ => .error a

-- `assert` inside a helper
def check (b : Bool) : EmuM Unit := fun s => if b then .ok ((), s) else .error .assertion

def getCpu : EmuM CpuState := fun s => .ok (s.cpu, s)

def modifyCpu (f : CpuState → CpuState) : EmuM Unit :=
  fun s => .ok ((), { s with cpu := f s.cpu })

def getOps : EmuM Operands := fun s => .ok (s.ops, s)

def modifyOps (f : Operands → Operands) : EmuM Unit :=
  fun s => .ok ((), { s with ops := f s.ops })

def setNemuState (n : NemuState) : EmuM Unit := fun s => .ok ((), { s with nemuState := n })

-- `REG(index)`
def readReg (w : Width) (i : RegIdx) : EmuM (BitVec w.bits) :=
  fun s => .ok (s.cpu.reg w i, s)

def writeReg (w : Width) (i : RegIdx) (v : BitVec w.bits) : EmuM Unit :=
  modifyCpu (fun c => c.setReg w i v)

-- `reg_l(index)`
def readRegL (i : RegIdx) : EmuM (BitVec 32) := readReg .long i

def writeRegL (i : RegIdx) (v : BitVec 32) : EmuM Unit := writeReg .long i v

def setEip (a : Addr) : EmuM Unit := modifyCpu (fun c => { c with eip := a })

def getOp (x : OpSel) : EmuM Operand := fun s => .ok (s.ops.get x, s)

def setOp (x : OpSel) (o : Operand) : EmuM Unit := modifyOps (fun os => os.set x o)

def setLoc (x : OpSel) (l : OpLoc) : EmuM Unit :=
  modifyOps (fun os => os.set x { os.get x with loc := l })

def setVal (x : OpSel) (v : BitVec 32) : EmuM Unit :=
  modifyOps (fun os => os.set x { os.get x with val := v })

def setSize (x : OpSel) (n : Nat) : EmuM Unit :=
  modifyOps (fun os => os.set x { os.get x with size := n })

/-- `swaddr_read`; the reading of flat memory does not change it. -/
def swaddrRead (addr : Addr) (len : Nat) : EmuM (BitVec 32) := fun s => do
  cAssert (len == 1 || len == 2 || len == 4)
  let v ← s.mem.read addr len
  return (v, s)

/-- `swaddr_write`. -/
def swaddrWrite (addr : Addr) (len : Nat) (data : BitVec 32) : EmuM Unit := fun s => do
  cAssert (len == 1 || len == 2 || len == 4)
  let m ← s.mem.write addr len data
  return ((), { s with mem := m })

-- `instr_fetch`
def instrFetch (addr : Addr) (len : Nat) : EmuM (BitVec 32) := swaddrRead addr len

-- `MEM_R(addr)` and `MEM_W(addr, data)`
def memR (w : Width) (addr : Addr) : EmuM (BitVec 32) := swaddrRead addr w.bytes

def memW (w : Width) (addr : Addr) (data : BitVec 32) : EmuM Unit := swaddrWrite addr w.bytes data

/-- Run a helper at EIP and add the length it returns, as the loop of `cpu_exec` does. -/
def advance (helper : Addr → EmuM Nat) : EmuM Nat := do
  let cpu ← getCpu
  let instr_len ← helper cpu.eip
  modifyCpu (fun c => { c with eip := c.eip + BitVec.ofNat 32 instr_len })
  return instr_len

/-! ## What the primitives do -/

@[simp] theorem abort_run {α : Type} (a : Abort) (s : Emu) : (abort a : EmuM α) s = .error a := rfl

@[simp] theorem check_true_run (s : Emu) : check true s = .ok ((), s) := rfl

@[simp] theorem getCpu_run (s : Emu) : getCpu s = .ok (s.cpu, s) := rfl

@[simp] theorem modifyCpu_run (f : CpuState → CpuState) (s : Emu) :
    modifyCpu f s = .ok ((), { s with cpu := f s.cpu }) := rfl

@[simp] theorem getOps_run (s : Emu) : getOps s = .ok (s.ops, s) := rfl

@[simp] theorem modifyOps_run (f : Operands → Operands) (s : Emu) :
    modifyOps f s = .ok ((), { s with ops := f s.ops }) := rfl

@[simp] theorem setNemuState_run (n : NemuState) (s : Emu) :
    setNemuState n s = .ok ((), { s with nemuState := n }) := rfl

@[simp] theorem readReg_run (w : Width) (i : RegIdx) (s : Emu) :
    readReg w i s = .ok (s.cpu.reg w i, s) := rfl

@[simp] theorem writeReg_run (w : Width) (i : RegIdx) (v : BitVec w.bits) (s : Emu) :
    writeReg w i v s = .ok ((), { s with cpu := s.cpu.setReg w i v }) := rfl

@[simp] theorem readRegL_run (i : RegIdx) (s : Emu) :
    readRegL i s = .ok (s.cpu.gpr i, s) := rfl

@[simp] theorem writeRegL_run (i : RegIdx) (v : BitVec 32) (s : Emu) :
    writeRegL i v s = .ok ((), { s with cpu := s.cpu.setReg .long i v }) := rfl

@[simp] theorem setEip_run (a : Addr) (s : Emu) :
    setEip a s = .ok ((), { s with cpu := { s.cpu with eip := a } }) := rfl

@[simp] theorem getOp_run (x : OpSel) (s : Emu) : getOp x s = .ok (s.ops.get x, s) := rfl

@[simp] theorem setOp_run (x : OpSel) (o : Operand) (s : Emu) :
    setOp x o s = .ok ((), { s with ops := s.ops.set x o }) := rfl

@[simp] theorem setLoc_run (x : OpSel) (l : OpLoc) (s : Emu) :
    setLoc x l s = .ok ((), { s with ops := s.ops.set x { s.ops.get x with loc := l } }) := rfl

@[simp] theorem setVal_run (x : OpSel) (v : BitVec 32) (s : Emu) :
    setVal x v s = .ok ((), { s with ops := s.ops.set x { s.ops.get x with val := v } }) := rfl

@[simp] theorem setSize_run (x : OpSel) (n : Nat) (s : Emu) :
    setSize x n s = .ok ((), { s with ops := s.ops.set x { s.ops.get x with size := n } }) := rfl

/-- The lengths `swaddr_read` and `swaddr_write` accept. -/
def accessLen (n : Nat) : Bool := n == 1 || n == 2 || n == 4

theorem accessLen_bytes (w : Width) : accessLen w.bytes = true := by cases w <;> rfl

theorem swaddrRead_run {addr : Addr} {len : Nat} {v : BitVec 32} {s : Emu}
    (hlen : accessLen len = true) (hread : s.mem.read addr len = .ok v) :
    swaddrRead addr len s = .ok (v, s) := by
  rw [accessLen] at hlen
  simp [swaddrRead, hlen, hread, pure, Except.pure]

theorem memR_run {w : Width} {addr : Addr} {v : BitVec 32} {s : Emu}
    (hread : s.mem.read addr w.bytes = .ok v) : memR w addr s = .ok (v, s) :=
  swaddrRead_run (accessLen_bytes w) hread

theorem memW_run {w : Width} {addr : Addr} {v : BitVec 32} {s : Emu} {m : FlatMem}
    (hwrite : s.mem.write addr w.bytes v = .ok m) :
    memW w addr v s = .ok ((), { s with mem := m }) := by
  have hlen := accessLen_bytes w
  rw [accessLen] at hlen
  simp [memW, swaddrWrite, hlen, hwrite, pure, Except.pure]

end Emu

end Nemu
