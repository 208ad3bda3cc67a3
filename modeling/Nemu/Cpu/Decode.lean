/-
  Nemu.Cpu.Decode

  `cpu/decode/modrm.c` and `cpu/decode/decode-template.h`: the ModR/M and SIB
  bytes, effective addresses, and the operand decoding helpers, one definition
  per template with the operand width as parameter.

  A decode helper returns the number of bytes it consumed and leaves what it
  found in `ops_decoded`.
-/

import Nemu.Cpu.State

namespace Nemu

open Outcome

namespace Emu

/-! ## ModR/M and SIB bytes -/

structure ModRM where
  val : Byte

namespace ModRM

-- the fields `R_M:3`, `reg:3` (also `opcode:3`) and `mod:2`, lowest first
def rm (m : ModRM) : RegIdx := ⟨m.val.toNat % 8, by omega⟩

def reg (m : ModRM) : RegIdx := ⟨m.val.toNat / 8 % 8, by omega⟩

def mod (m : ModRM) : Nat := m.val.toNat / 64

end ModRM

structure SIB where
  val : Byte

namespace SIB

-- the fields `base:3`, `index:3` and `ss:2`
def base (s : SIB) : RegIdx := ⟨s.val.toNat % 8, by omega⟩

def index (s : SIB) : RegIdx := ⟨s.val.toNat / 8 % 8, by omega⟩

def ss (s : SIB) : Nat := s.val.toNat / 64

end SIB

-- `m.val = instr_fetch(eip, 1)`
def fetchModRM (eip : Addr) : EmuM ModRM := do
  let v ← instrFetch eip 1
  return ⟨v.setWidth 8⟩

def fetchSIB (eip : Addr) : EmuM SIB := do
  let v ← instrFetch eip 1
  return ⟨v.setWidth 8⟩

/-! ## Effective addresses -/

/-- The register part of a memory operand as `load_addr` collects it; `none` is
    the sentinel `-1`. -/
structure AddrForm where
  base_reg : Option RegIdx
  index_reg : Option RegIdx
  scale : Nat
  disp_offset : Nat

/-- The first half of `load_addr`: with or without a SIB byte. -/
def addrForm (eip : Addr) (m : ModRM) : EmuM AddrForm := do
  if m.rm = R_ESP then
    let s ← fetchSIB (eip + 1)
    return { base_reg := some s.base
             index_reg := if s.index ≠ R_ESP then some s.index else none
             scale := s.ss
             disp_offset := 2 }
  else
    -- no SIB
    return { base_reg := some m.rm, index_reg := none, scale := 0, disp_offset := 1 }

/-- The displacement size, and the base register with the displacement-only case
    taken out. -/
def dispSize (m : ModRM) (base_reg : Option RegIdx) : Nat × Option RegIdx :=
  if m.mod = 0 then
    if base_reg = some R_EBP then (4, none) else (0, base_reg)
  else if m.mod = 1 then (1, base_reg)
  else (4, base_reg)

-- `disp`, sign-extended from a byte where it is one
def fetchDisp (eip : Addr) (disp_size : Nat) : EmuM (BitVec 32) := do
  if disp_size ≠ 0 then
    let disp ← instrFetch eip disp_size
    return if disp_size = 1 then (disp.setWidth 8).signExtend 32 else disp
  else
    return 0

/-- `load_addr`. -/
def loadAddr (eip : Addr) (m : ModRM) (rm : OpSel) : EmuM Nat := do
  check (m.mod != 3)
  let f ← addrForm eip m
  let (disp_size, base_reg) := dispSize m f.base_reg
  let disp ← fetchDisp (eip + BitVec.ofNat 32 f.disp_offset) disp_size
  let cpu ← getCpu
  let base := match base_reg with
    | some r => cpu.gpr r
    | none => 0
  let index := match f.index_reg with
    | some r => cpu.gpr r <<< f.scale
    | none => 0
  setLoc rm (.mem (disp + base + index))
  return f.disp_offset + disp_size

-- the value of a register operand of `size` bytes
def readSizedReg (size : Nat) (i : RegIdx) : EmuM (BitVec 32) := do
  match size with
  | 1 => let v ← readReg .byte i; return v.setWidth 32
  | 2 => let v ← readReg .word i; return v.setWidth 32
  | 4 => readRegL i
  | _ => abort .assertion

/-- `read_ModR_M`. -/
def readModRM (eip : Addr) (rm reg : OpSel) : EmuM Nat := do
  let m ← fetchModRM eip
  setLoc reg (.reg m.reg)
  if m.mod = 3 then
    setLoc rm (.reg m.rm)
    let o ← getOp rm
    let v ← readSizedReg o.size m.rm
    setVal rm v
    return 1
  else
    let instr_len ← loadAddr eip m rm
    let o ← getOp rm
    match o.loc with
    | .mem addr =>
        let v ← swaddrRead addr o.size
        setVal rm v
        return instr_len
    | _ => abort .assertion  -- `load_addr` has just made it a memory operand

/-! ## `decode-template.h` -/

-- The register number of an operand that `read_ModR_M` has made a register.
def regOf (o : Operand) : EmuM RegIdx :=
  match o.loc with
  | .reg i => pure i
  | _ => abort .assertion

-- `REG(i)` widened to `uint32_t`
def readReg32 (w : Width) (i : RegIdx) : EmuM (BitVec 32) := do
  let v ← readReg w i
  return v.setWidth 32

/-- Ib, Iv -/
def decodeI (w : Width) (eip : Addr) : EmuM Nat := do
  -- eip here is pointing to the immediate
  let v ← instrFetch eip w.bytes
  setLoc .src (.imm v)
  setVal .src v
  return w.bytes

theorem decodeI_run {w : Width} {eip : Addr} {s : Emu} {v : BitVec 32}
    (hv : s.mem.read eip w.bytes = .ok v) :
    ∃ s', decodeI w eip s = .ok (w.bytes, s') ∧ s'.ops.src.val = v ∧ s'.cpu = s.cpu ∧
      s'.mem = s.mem := by
  have hfetch : instrFetch eip w.bytes s = .ok (v, s) := swaddrRead_run (accessLen_bytes w) hv
  rw [decodeI, run_bind_ok hfetch, run_bind_ok (setLoc_run ..), run_bind_ok (setVal_run ..)]
  exact ⟨_, rfl, rfl, rfl, rfl⟩

/-- Sign immediate: not implemented in the source, which panics here. -/
def decodeSi (_w : Width) (_eip : Addr) : EmuM Nat := abort .assertion

/-- eAX -/
def decodeA (w : Width) (x : OpSel) : EmuM Nat := do
  setLoc x (.reg R_EAX)
  let v ← readReg32 w R_EAX
  setVal x v
  return 0

/-- eXX: eAX, eCX, eDX, eBX, eSP, eBP, eSI, eDI -/
def decodeRInternal (w : Width) (x : OpSel) : EmuM Nat := do
  let os ← getOps
  let i : RegIdx := ⟨os.opcode.toNat % 8, by omega⟩
  setLoc x (.reg i)
  let v ← readReg32 w i
  setVal x v
  return 0

def decodeRmInternal (w : Width) (eip : Addr) (rm reg : OpSel) : EmuM Nat := do
  setSize rm w.bytes
  let len ← readModRM eip rm reg
  let o ← getOp reg
  let i ← regOf o
  let v ← readReg32 w i
  setVal reg v
  return len

/-- Eb <- Gb, Ev <- Gv -/
def decodeR2rm (w : Width) (eip : Addr) : EmuM Nat := decodeRmInternal w eip .dest .src

/-- Gb <- Eb, Gv <- Ev -/
def decodeRm2r (w : Width) (eip : Addr) : EmuM Nat := decodeRmInternal w eip .src .dest

/-- AL <- Ib, eAX <- Iv -/
def decodeI2a (w : Width) (eip : Addr) : EmuM Nat := do
  let _ ← decodeA w .dest
  decodeI w eip

/-- Gv <- EvIb, Gv <- EvIv; use for imul -/
def decodeIRm2r (w : Width) (eip : Addr) : EmuM Nat := do
  let len ← decodeRmInternal w eip .src2 .dest
  let len' ← decodeI w (eip + BitVec.ofNat 32 len)
  return len + len'

/-- Eb <- Ib, Ev <- Iv -/
def decodeI2rm (w : Width) (eip : Addr) : EmuM Nat := do
  let len ← decodeRmInternal w eip .dest .src2
  let len' ← decodeI w (eip + BitVec.ofNat 32 len)
  return len + len'

/-- XX <- Ib, eXX <- Iv -/
def decodeI2r (w : Width) (eip : Addr) : EmuM Nat := do
  let _ ← decodeRInternal w .dest
  decodeI w eip

-- used by unary operations
def decodeRm (w : Width) (eip : Addr) : EmuM Nat := decodeRmInternal w eip .src .src2

def decodeR (w : Width) (_eip : Addr) : EmuM Nat := decodeRInternal w .src

def decodeSi2rm (w : Width) (eip : Addr) : EmuM Nat := do
  let len ← decodeRmInternal w eip .dest .src2
  let len' ← decodeSi .byte (eip + BitVec.ofNat 32 len)
  return len + len'

def decodeSiRm2r (w : Width) (eip : Addr) : EmuM Nat := do
  let len ← decodeRmInternal w eip .src2 .dest
  let len' ← decodeSi .byte (eip + BitVec.ofNat 32 len)
  return len + len'

/-- The panic of `decode_si` is not passed. -/
theorem decodeSiRm2r_stops (w : Width) (eip : Addr) (s : Emu) (r : Nat × Emu) :
    decodeSiRm2r w eip s ≠ .ok r := by
  intro h
  obtain ⟨len, s₁, -, hrest⟩ := run_bind_eq_ok.mp h
  obtain ⟨len', s₂, hsi, -⟩ := run_bind_eq_ok.mp hrest
  cases hsi

-- used by shift instructions
def decodeRm1 (w : Width) (eip : Addr) : EmuM Nat := do
  let len ← decodeR2rm w eip
  setLoc .src (.imm 1)
  setVal .src 1
  return len

def decodeRmCl (w : Width) (eip : Addr) : EmuM Nat := do
  let len ← decodeR2rm w eip
  setLoc .src (.reg R_CL)
  let v ← readReg32 .byte R_CL
  setVal .src v
  return len

def decodeRmImm (w : Width) (eip : Addr) : EmuM Nat := do
  let len ← decodeR2rm w eip
  let len' ← decodeI .byte (eip + BitVec.ofNat 32 len)
  return len + len'

/-- `write_operand_b`, `write_operand_w`, `write_operand_l`. -/
def writeOperand (w : Width) (o : Operand) (src : BitVec w.bits) : EmuM Unit :=
  match o.loc with
  | .reg i => writeReg w i src
  | .mem addr => swaddrWrite addr o.size (src.setWidth 32)
  | .imm _ => abort .assertion

end Emu

end Nemu
