/-
  Nemu.Cpu.ExecRun

  `exec` run forwards, level by level: the opcode byte selects an entry, a pair of
  opcodes selects a width, the escape byte the second map, and the operand-size prefix
  switches the width.  `ExecLength` takes the same steps apart; here they are put
  together, for instructions known to be there.
-/

import Nemu.Cpu.ExecLength

namespace Nemu

open Outcome FlatMem I386 Emu

-- the opcode `base` is for bytes, the next one for operands of the operand size
def Sized (m : FlatMem) (op16 : Bool) (a : Addr) (base : Nat) (w : Width) : Prop :=
  byteAt m a = base ∧ w = .byte ∨ byteAt m a = base + 1 ∧ w = opWidth op16

namespace Emu

/-! ## One level -/

-- `s` with the opcode byte `b` recorded
def opcodeAt (s : Emu) (b : Nat) : Emu :=
  { s with ops := { s.ops with opcode := BitVec.ofNat 32 b } }

-- a fetched byte, as the number the tables are indexed with
theorem load_one (m : FlatMem) (a : Addr) : ByteSeq.load m a.toNat 1 = byteAt m a := by
  rw [ByteSeq.load, ByteSeq.leNat_succ, ByteSeq.leNat_zero, Nat.mul_zero, Nat.add_zero,
    Nat.add_zero, byteAt]

theorem toNat_byteAt (m : FlatMem) (a : Addr) : (BitVec.ofNat 32 (byteAt m a)).toNat = byteAt m a := by
  have hlt := (m a.toNat).isLt
  rw [BitVec.toNat_ofNat, byteAt]
  omega

/-- One level of `exec`, run: whatever the entry of the opcode byte does. -/
theorem exec_run (k : Nat) {eip : Addr} {s : Emu} (hin : InRange eip 1) :
    exec (k + 1) eip s = runEntry (exec k) k (opcodeTable.getD (byteAt s.mem eip) Instr.inv) eip
      (opcodeAt s (byteAt s.mem eip)) := by
  rw [exec, run_bind_ok (instrFetch_run rfl hin), run_bind_ok (modifyOps_run ..), load_one,
    toNat_byteAt]
  rfl

/-! ## Dispatch -/

section Dispatch

variable {w : Width} {a : Addr} {s : Emu} {base : Nat}

/-- A pair of opcodes reaches one helper at its two widths. -/
theorem exec_sized (k : Nat) (ib iv : Instr) {g : Width → Addr → EmuM Nat}
    (hop : Sized s.mem s.ops.is_operand_size_16 a base w)
    (hb : opcodeTable.getD base Instr.inv = .instr ib)
    (hv : opcodeTable.getD (base + 1) Instr.inv = .instr iv)
    (hib : runInstr ib = g .byte) (hiv : runInstr iv = helperV g) (hin : InRange a 1) :
    exec (k + 1) a s = g w a (opcodeAt s (byteAt s.mem a)) := by
  rw [exec_run k hin]
  rcases hop with ⟨hbyte, rfl⟩ | ⟨hbyte, rfl⟩
  · rw [hbyte, hb]
    exact congrFun (congrFun hib a) _
  · rw [hbyte, hv]
    refine (congrFun (congrFun hiv a) _).trans ?_
    rw [helperV_run]
    rfl

-- `s` with an opcode of the second map recorded
def opcode2At (s : Emu) (b : Nat) : Emu :=
  { s with ops := { s.ops with opcode := BitVec.ofNat 32 b ||| 0x100 } }

theorem exec_twoByte (k : Nat) {i : Instr} (hesc : byteAt s.mem a = 0x0f)
    (htab : twoByteOpcodeTable.getD (byteAt s.mem (a + 1)) Instr.inv = .instr i)
    (hin : InRange a 2) :
    exec (k + 1) a s = (do let len ← runInstr i (a + 1); return len + 1)
      (opcode2At s (byteAt s.mem (a + 1))) := by
  have hin₁ : InRange (a + 1) 1 := hin.part (k := 1) (Nat.le_refl 2)
  have hentry : opcodeTable.getD 0x0f Instr.inv = .twoByteEsc := rfl
  rw [exec_run k (hin.mono (by omega)), hesc, hentry]
  show twoByteEsc a _ = _
  rw [twoByteEsc, run_bind_ok (instrFetch_run rfl hin₁), run_bind_ok (modifyOps_run ..), load_one,
    toNat_byteAt]
  show (runLeaf (twoByteOpcodeTable.getD (byteAt s.mem (a + 1)) Instr.inv) (a + 1) >>= _) _ = _
  rw [htab]
  rfl

-- `s` with 16-bit operands switched on or off
def op16At (s : Emu) (b : Bool) : Emu :=
  { s with ops := { s.ops with is_operand_size_16 := b } }

/-- The operand-size prefix: the instruction behind it with 16-bit operands. -/
theorem exec_operandSize {k n : Nat} {s' : Emu} (hb : isOperandSize (byteAt s.mem a))
    (hin : InRange a 1)
    (hrest : exec k (a + 1) (op16At (opcodeAt s (byteAt s.mem a)) true) = .ok (n, s')) :
    exec (k + 1) a s = .ok (n + 1, op16At s' false) := by
  have hentry : opcodeTable.getD (byteAt s.mem a) Instr.inv = .operandSize :=
    (prefix_entry _ (BitVec.isLt _)).1.mpr hb
  have hset : ∀ s b, modifyOps (fun o => { o with is_operand_size_16 := b }) s
      = .ok ((), op16At s b) := fun _ _ => rfl
  rw [exec_run k hin, hentry]
  show operandSize (exec k) a _ = _
  rw [operandSize, run_bind_ok (hset ..), run_bind_ok hrest, run_bind_ok (hset ..), run_pure]

end Dispatch

end Emu

end Nemu
