/-
  Nemu.Cpu.Exec.Table

  `cpu/exec/exec.c`, `prefix/prefix.c` and `string/rep.c`: the opcode tables and
  the recursive `exec`.

  The function pointers of the C tables are names here: `Instr` names the
  helpers that decode and execute one instruction, `Entry` adds the helpers that
  dispatch further (opcode groups, the two-byte escape, prefixes).  `Instr.run`
  says which helper a name stands for.  `exec` calls itself through the prefix
  helpers, without a bound in the source; its first argument bounds the depth of
  the calls and the iterations of a loop.
-/

import Nemu.Cpu.Exec.Arith
import Nemu.Cpu.Exec.Logic
import Nemu.Cpu.Exec.DataMov
import Nemu.Cpu.Exec.Control

namespace Nemu

/-! ## Helper names -/

/-- The helpers that appear in the opcode tables and execute one instruction. -/
inductive Instr where
  | inv | nop | int3 | lea | leave | nemuTrap
  | addR2rmV | addRm2rV | addI2aV | addSi2rmV
  | orR2rmV | orRm2rB | orI2aB | orSi2rmV
  | adcR2rmV | sbbR2rmV
  | andR2rmV | andRm2rB | andI2rmB | andI2rmV | andSi2rmV
  | subR2rmV | subRm2rV | subI2rmV | subSi2rmV
  | xorR2rmV
  | cmpR2rmB | cmpR2rmV | cmpRm2rB | cmpRm2rV | cmpI2aB | cmpI2aV
  | cmpI2rmB | cmpI2rmV | cmpSi2rmV
  | incRV | decRV | decRmV
  | pushRV | pushIV | pushRmV | popRV
  | imulIRm2rV | imulSiRm2rV | imulRm2aV | imulRm2rV
  | testR2rmB | testR2rmV | testI2rmB | testI2rmV
  | movR2rmB | movR2rmV | movRm2rB | movRm2rV | movI2rB | movI2rV | movI2rmB | movI2rmV
  | movMoffs2aB | movMoffs2aV | movA2moffsB | movA2moffsV
  | movzbV | movsbV | movswL | cltdV
  | movsB | movsV | stosB | stosV | scasB
  | shlRmImmV | shrRmImmV | sarRmImmV | sarRm1V | shlRmClV
  | notRmV | negRmV | mulRmV | divRmV | idivRmV
  | callIV | callRmV | jmpSiB | jmpSiL | jmpRmL
deriving DecidableEq, Repr

/-- The opcode groups, selected by the `reg` field of the ModR/M byte. -/
inductive OpGroup where
  | group1B | group1V | group1SxV
  | group2IB | group2IV | group21B | group21V | group2ClB | group2ClV
  | group3B | group3V | group4 | group5 | group6 | group7
deriving DecidableEq, Repr

/-- An entry of an opcode table. -/
inductive Entry where
  | instr (i : Instr)
  | group (g : OpGroup)
  | twoByteEsc
  | operandSize
  | rep
  | repnz
deriving DecidableEq, Repr

instance : Coe Instr Entry := ⟨.instr⟩

instance : Coe OpGroup Entry := ⟨.group⟩

/-! ## Tables -/

section Tables

open Instr OpGroup Entry

/-- The `make_group` tables. -/
def OpGroup.table : OpGroup → List Instr
  | group1B => [inv, inv, inv, inv, andI2rmB, inv, inv, cmpI2rmB]
  | group1V => [inv, inv, inv, inv, andI2rmV, subI2rmV, inv, cmpI2rmV]
  | group1SxV => [addSi2rmV, orSi2rmV, inv, inv, andSi2rmV, subSi2rmV, inv, cmpSi2rmV]
  | group2IB => [inv, inv, inv, inv, inv, inv, inv, inv]
  | group2IV => [inv, inv, inv, inv, shlRmImmV, shrRmImmV, inv, sarRmImmV]
  | group21B => [inv, inv, inv, inv, inv, inv, inv, inv]
  | group21V => [inv, inv, inv, inv, inv, inv, inv, sarRm1V]
  | group2ClB => [inv, inv, inv, inv, inv, inv, inv, inv]
  | group2ClV => [inv, inv, inv, inv, shlRmClV, inv, inv, inv]
  | group3B => [testI2rmB, inv, inv, inv, inv, inv, inv, inv]
  | group3V => [testI2rmV, inv, notRmV, negRmV, mulRmV, imulRm2aV, divRmV, idivRmV]
  | group4 => [inv, inv, inv, inv, inv, inv, inv, inv]
  | group5 => [inv, decRmV, callRmV, inv, jmpRmL, inv, pushRmV, inv]
  | group6 => [inv, inv, inv, inv, inv, inv, inv, inv]
  | group7 => [inv, inv, inv, inv, inv, inv, inv, inv]

-- one row of the tables as the source prints them
def row (a b c d : Entry) : List Entry := [a, b, c, d]

def opcodeTable : List Entry := List.flatten [
  /- 0x00 -/ row inv addR2rmV inv addRm2rV,
  /- 0x04 -/ row inv addI2aV inv inv,
  /- 0x08 -/ row inv orR2rmV orRm2rB inv,
  /- 0x0c -/ row orI2aB inv inv twoByteEsc,
  /- 0x10 -/ row inv adcR2rmV inv inv,
  /- 0x14 -/ row inv inv inv inv,
  /- 0x18 -/ row inv sbbR2rmV inv inv,
  /- 0x1c -/ row inv inv inv inv,
  /- 0x20 -/ row inv andR2rmV andRm2rB inv,
  /- 0x24 -/ row inv inv inv inv,
  /- 0x28 -/ row inv subR2rmV inv subRm2rV,
  /- 0x2c -/ row inv inv inv inv,
  /- 0x30 -/ row inv xorR2rmV inv inv,
  /- 0x34 -/ row inv inv inv inv,
  /- 0x38 -/ row cmpR2rmB cmpR2rmV cmpRm2rB cmpRm2rV,
  /- 0x3c -/ row cmpI2aB cmpI2aV inv inv,
  /- 0x40 -/ row incRV incRV incRV incRV,
  /- 0x44 -/ row inv incRV incRV incRV,
  /- 0x48 -/ row decRV decRV decRV decRV,
  /- 0x4c -/ row inv decRV decRV decRV,
  /- 0x50 -/ row pushRV pushRV pushRV pushRV,
  /- 0x54 -/ row pushRV pushRV pushRV pushRV,
  /- 0x58 -/ row popRV popRV popRV popRV,
  /- 0x5c -/ row inv popRV popRV popRV,
  /- 0x60 -/ row inv inv inv inv,
  /- 0x64 -/ row inv inv operandSize inv,
  /- 0x68 -/ row pushIV imulIRm2rV inv imulSiRm2rV,
  /- 0x6c -/ row inv inv inv inv,
  /- 0x70 -/ row inv inv inv inv,
  /- 0x74 -/ row inv inv inv inv,
  /- 0x78 -/ row inv inv inv inv,
  /- 0x7c -/ row inv inv inv inv,
  /- 0x80 -/ row group1B group1V inv group1SxV,
  /- 0x84 -/ row testR2rmB testR2rmV inv inv,
  /- 0x88 -/ row movR2rmB movR2rmV movRm2rB movRm2rV,
  /- 0x8c -/ row inv lea inv inv,
  /- 0x90 -/ row nop inv inv inv,
  /- 0x94 -/ row inv inv inv inv,
  /- 0x98 -/ row inv cltdV inv inv,
  /- 0x9c -/ row inv inv inv inv,
  /- 0xa0 -/ row movMoffs2aB movMoffs2aV movA2moffsB movA2moffsV,
  /- 0xa4 -/ row movsB movsV inv inv,
  /- 0xa8 -/ row inv inv stosB stosV,
  /- 0xac -/ row inv inv scasB inv,
  /- 0xb0 -/ row movI2rB movI2rB movI2rB movI2rB,
  /- 0xb4 -/ row movI2rB movI2rB movI2rB movI2rB,
  /- 0xb8 -/ row movI2rV movI2rV movI2rV movI2rV,
  /- 0xbc -/ row movI2rV movI2rV movI2rV movI2rV,
  /- 0xc0 -/ row group2IB group2IV inv inv,
  /- 0xc4 -/ row inv inv movI2rmB movI2rmV,
  /- 0xc8 -/ row inv leave inv inv,
  /- 0xcc -/ row int3 inv inv inv,
  /- 0xd0 -/ row group21B group21V group2ClB group2ClV,
  /- 0xd4 -/ row inv inv nemuTrap inv,
  /- 0xd8 -/ row inv inv inv inv,
  /- 0xdc -/ row inv inv inv inv,
  /- 0xe0 -/ row inv inv inv inv,
  /- 0xe4 -/ row inv inv inv inv,
  /- 0xe8 -/ row callIV jmpSiL inv jmpSiB,
  /- 0xec -/ row inv inv inv inv,
  /- 0xf0 -/ row inv inv repnz rep,
  /- 0xf4 -/ row inv inv group3B group3V,
  /- 0xf8 -/ row inv inv inv inv,
  /- 0xfc -/ row inv inv group4 group5]

/-- `_2byte_opcode_table`; `none4 n` stands for `n` rows of `inv`. -/
def twoByteOpcodeTable : List Entry :=
  let none4 (n : Nat) : List (List Entry) := List.replicate n (row inv inv inv inv)
  List.flatten (
  /- 0x00 -/ row group6 group7 inv inv ::
  /- 0x04 -/ none4 42 ++
  /- 0xac -/ row inv inv inv imulRm2rV ::
  /- 0xb0 -/ row inv inv inv inv ::
  /- 0xb4 -/ row inv inv movzbV inv ::
  /- 0xb8 -/ row inv inv inv inv ::
  /- 0xbc -/ row inv inv movsbV movswL ::
  /- 0xc0 -/ none4 16)

end Tables

/-! ## Execution -/

namespace Emu

open OpSel

/-- The helper behind a name, as the `make_instr_helper` and `make_helper_v`
    lines of the instruction files define it. -/
def runInstr : Instr → Addr → EmuM Nat
  | .inv => inv
  | .nop => nop
  | .int3 => int3
  | .lea => lea
  | .leave => leave
  | .nemuTrap => nemuTrap
  | .addR2rmV => helperV fun w => idex (decodeR2rm w) (doAdd w)
  | .addRm2rV => helperV fun w => idex (decodeRm2r w) (doAdd w)
  | .addI2aV => helperV fun w => idex (decodeI2a w) (doAdd w)
  | .addSi2rmV => helperV fun w => idex (decodeSi2rm w) (doAdd w)
  | .orR2rmV => helperV fun w => idex (decodeR2rm w) (doOr w)
  | .orRm2rB => idex (decodeRm2r .byte) (doOr .byte)
  | .orI2aB => idex (decodeI2a .byte) (doOr .byte)
  | .orSi2rmV => helperV fun w => idex (decodeSi2rm w) (doOr w)
  | .adcR2rmV => helperV fun w => idex (decodeR2rm w) (doAdc w)
  | .sbbR2rmV => helperV fun w => idex (decodeR2rm w) (doSbb w)
  | .andR2rmV => helperV fun w => idex (decodeR2rm w) (doAnd w)
  | .andRm2rB => idex (decodeRm2r .byte) (doAnd .byte)
  | .andI2rmB => idex (decodeI2rm .byte) (doAnd .byte)
  | .andI2rmV => helperV fun w => idex (decodeI2rm w) (doAnd w)
  | .andSi2rmV => helperV fun w => idex (decodeSi2rm w) (doAnd w)
  | .subR2rmV => helperV fun w => idex (decodeR2rm w) (doSub w)
  | .subRm2rV => helperV fun w => idex (decodeRm2r w) (doSub w)
  | .subI2rmV => helperV fun w => idex (decodeI2rm w) (doSub w)
  | .subSi2rmV => helperV fun w => idex (decodeSi2rm w) (doSub w)
  | .xorR2rmV => helperV fun w => idex (decodeR2rm w) (doXor w)
  | .cmpR2rmB => idex (decodeR2rm .byte) (doCmp .byte)
  | .cmpR2rmV => helperV fun w => idex (decodeR2rm w) (doCmp w)
  | .cmpRm2rB => idex (decodeRm2r .byte) (doCmp .byte)
  | .cmpRm2rV => helperV fun w => idex (decodeRm2r w) (doCmp w)
  | .cmpI2aB => idex (decodeI2a .byte) (doCmp .byte)
  | .cmpI2aV => helperV fun w => idex (decodeI2a w) (doCmp w)
  | .cmpI2rmB => idex (decodeI2rm .byte) (doCmp .byte)
  | .cmpI2rmV => helperV fun w => idex (decodeI2rm w) (doCmp w)
  | .cmpSi2rmV => helperV fun w => idex (decodeSi2rm w) (doCmp w)
  | .incRV => helperV fun w => idex (decodeR w) (doInc w)
  | .decRV => helperV fun w => idex (decodeR w) (doDec w)
  | .decRmV => helperV fun w => idex (decodeRm w) (doDec w)
  | .pushRV => helperV fun w => idex (decodeR w) (doPush w)
  | .pushIV => helperV fun w => idex (decodeI w) (doPush w)
  | .pushRmV => helperV fun w => idex (decodeRm w) (doPush w)
  | .popRV => helperV fun w => idex (decodeR w) (doPop w)
  | .imulIRm2rV => helperV fun w => idex (decodeIRm2r w) (doImul w)
  | .imulSiRm2rV => helperV fun w => idex (decodeSiRm2r w) (doImul w)
  | .imulRm2aV => helperV fun w => idex (decodeRm w) (imulRm2aBody w)
  -- `imul_rm2r` copies the destination operand to `src2` before it executes
  | .imulRm2rV => helperV fun w => idex (decodeRm2r w) (do
      let dest ← getOp dest
      setOp src2 dest
      doImul w)
  | .testR2rmB => idex (decodeR2rm .byte) (doTest .byte)
  | .testR2rmV => helperV fun w => idex (decodeR2rm w) (doTest w)
  | .testI2rmB => idex (decodeI2rm .byte) (doTest .byte)
  | .testI2rmV => helperV fun w => idex (decodeI2rm w) (doTest w)
  | .movR2rmB => idex (decodeR2rm .byte) (doMov .byte)
  | .movR2rmV => helperV fun w => idex (decodeR2rm w) (doMov w)
  | .movRm2rB => idex (decodeRm2r .byte) (doMov .byte)
  | .movRm2rV => helperV fun w => idex (decodeRm2r w) (doMov w)
  | .movI2rB => idex (decodeI2r .byte) (doMov .byte)
  | .movI2rV => helperV fun w => idex (decodeI2r w) (doMov w)
  | .movI2rmB => idex (decodeI2rm .byte) (doMov .byte)
  | .movI2rmV => helperV fun w => idex (decodeI2rm w) (doMov w)
  | .movMoffs2aB => movMoffs2a .byte
  | .movMoffs2aV => helperV movMoffs2a
  | .movA2moffsB => movA2moffs .byte
  | .movA2moffsV => helperV movA2moffs
  | .movzbV => helperV movzb
  | .movsbV => helperV movsb
  | .movswL => movsw .long
  | .cltdV => helperV cltd
  | .movsB => movs .byte
  | .movsV => helperV movs
  | .stosB => stos .byte
  | .stosV => helperV stos
  | .scasB => scas .byte
  | .shlRmImmV => helperV fun w => idex (decodeRmImm w) (doShl w)
  | .shrRmImmV => helperV fun w => idex (decodeRmImm w) (doShr w)
  | .sarRmImmV => helperV fun w => idex (decodeRmImm w) (doSar w)
  | .sarRm1V => helperV fun w => idex (decodeRm1 w) (doSar w)
  | .shlRmClV => helperV fun w => idex (decodeRmCl w) (doShl w)
  | .notRmV => helperV fun w => idex (decodeRm w) (doNot w)
  | .negRmV => helperV fun w => idex (decodeRm w) (doNeg w)
  | .mulRmV => helperV fun w => idex (decodeRm w) (doMul w)
  | .divRmV => helperV fun w => idex (decodeRm w) (doDiv w)
  | .idivRmV => helperV fun w => idex (decodeRm w) (doIdiv w)
  | .callIV => helperV callI
  | .callRmV => helperV callRm
  | .jmpSiB => jmpSi .byte
  | .jmpSiL => jmpSi .long
  | .jmpRmL => jmpRmL

/-- A `make_group` helper. -/
def runGroup (g : OpGroup) (eip : Addr) : EmuM Nat := do
  let m ← fetchModRM (eip + 1)
  runInstr (g.table.getD m.reg.val .inv) eip

/-- Entries of the tables that do not call `exec` again. -/
def runLeaf : Entry → Addr → EmuM Nat
  | .instr i, eip => runInstr i eip
  | .group g, eip => runGroup g eip
  | _, _ => abort .assertion

/-- `_2byte_esc`. -/
def twoByteEsc (eip : Addr) : EmuM Nat := do
  let eip := eip + 1
  let opcode ← instrFetch eip 1
  modifyOps (fun o => { o with opcode := opcode ||| 0x100 })
  let len ← runLeaf (twoByteOpcodeTable.getD opcode.toNat Instr.inv) eip
  return len + 1

-- the opcodes the assertions in `rep` and `repnz` accept
def repOpcodes : List (BitVec 32) := [0xa4, 0xa5, 0xaa, 0xab, 0xa6, 0xa7, 0xae, 0xaf]

def repnzOpcodes : List (BitVec 32) := [0xa6, 0xa7, 0xae, 0xaf]

section Exec

-- `exec'` is the recursive call; `n` bounds the loops.
variable (exec' : Addr → EmuM Nat) (n : Nat)

/-- The loop `while(cpu.ecx)` of `rep` and `repnz`; `stop` is the exit test on
    the flags after an iteration. -/
def repLoop (opcodes : List (BitVec 32)) (stop : EFlags → Bool) (eip : Addr) : Nat → EmuM Unit
  | 0 => abort .outOfFuel
  | k + 1 => do
      let ecx ← readRegL R_ECX
      if ecx = 0 then pure ()
      else
        let _ ← exec' (eip + 1)
        let ecx ← readRegL R_ECX
        writeRegL R_ECX (ecx - 1)
        let os ← getOps
        check (opcodes.contains os.opcode)
        let cpu ← getCpu
        if stop cpu.eflags then pure ()
        else repLoop opcodes stop eip k

/-- `rep`. What `rep` and `repnz` do under `DEBUG` is left out: they add 13 or 15 characters to the
    trace of the last instruction in `temp[80]` and `assembly[80]`, which overflow after six in
    a row with ECX = 0. -/
def rep (eip : Addr) : EmuM Nat := do
  let next ← instrFetch (eip + 1) 1
  if next = 0xc3 then
    -- repz ret
    let _ ← exec' (eip + 1)
    return 0 + 1
  else
    -- the test of ZF is commented out in the source
    repLoop exec' repOpcodes (fun _ => false) eip n
    return 1 + 1

def repnz (eip : Addr) : EmuM Nat := do
  repLoop exec' repnzOpcodes (fun f => f.ZF) eip n
  return 1 + 1

def operandSize (eip : Addr) : EmuM Nat := do
  modifyOps (fun o => { o with is_operand_size_16 := true })
  let instr_len ← exec' (eip + 1)
  modifyOps (fun o => { o with is_operand_size_16 := false })
  return instr_len + 1

/-- The helper behind a table entry. -/
def runEntry : Entry → Addr → EmuM Nat
  | .operandSize, eip => operandSize exec' eip
  | .rep, eip => rep exec' n eip
  | .repnz, eip => repnz exec' n eip
  | .twoByteEsc, eip => twoByteEsc eip
  | .instr i, eip => runInstr i eip
  | .group g, eip => runGroup g eip

end Exec

/-- `exec`; its recursion is cut off at depth `fuel`. -/
def exec : Nat → Addr → EmuM Nat
  | 0, _ => abort .outOfFuel
  | n + 1, eip => do
      let opcode ← instrFetch eip 1
      modifyOps (fun o => { o with opcode := opcode })
      runEntry (exec n) n (opcodeTable.getD opcode.toNat Instr.inv) eip

end Emu

end Nemu
