/-
  Nemu.Cpu.Exec.Flags

  `cpu/eflags.c`, the instruction skeleton `idex` of `cpu/helper.h`, and the
  width selection of `make_helper_v`.
-/

import Nemu.Cpu.Decode

namespace Nemu

-- `parity_table`, entry by entry
def parityTable : List Bool :=
  [false, true, false, true,
   true, false, true, false,
   false, true, false, true,
   true, false, true, false]

/-- `update_eflags_pf_zf_sf` on the flags. -/
def EFlags.updatePfZfSf (f : EFlags) (result : BitVec 32) : EFlags :=
  let temp := result.toNat % 256
  { f with
    PF := (parityTable.getD (temp % 16) false) ^^ (parityTable.getD (temp / 16) false)
    ZF := result == 0
    SF := result.msb }

/-- `MSB(n)`: the top bit of `n` taken as a `DATA_TYPE`. -/
def msbOf (w : Width) (n : BitVec 32) : Bool := (n.setWidth w.bits).msb

/-! ## Operand values as `n`-bit numbers -/

section ZeroExtended

variable {w : Width}

-- an operand value is its `n` bits, zero-extended
@[simp] theorem setWidth_setWidth_bits (a : BitVec w.bits) :
    (a.setWidth 32).setWidth w.bits = a := by
  rw [BitVec.setWidth_setWidth_of_le _ w.bits_le, BitVec.setWidth_eq]

theorem setWidth_lt_iff (a b : BitVec w.bits) : a.setWidth 32 < b.setWidth 32 ↔ a < b := by
  rw [BitVec.lt_def, BitVec.lt_def, BitVec.toNat_setWidth_of_le w.bits_le,
    BitVec.toNat_setWidth_of_le w.bits_le]

/-- Sign extension keeps the low byte. -/
theorem getLsbD_signExtend_byte (r : BitVec w.bits) {k : Nat} (hk : k < 8) :
    (r.signExtend 32).getLsbD k = r.getLsbD k := by
  have hw := w.le_bits
  rw [BitVec.getLsbD_signExtend, if_pos (by omega), decide_eq_true (by omega), Bool.true_and]

-- truncation is a ring homomorphism
theorem setWidth_sub_bits (x y : BitVec 32) :
    (x - y).setWidth w.bits = x.setWidth w.bits - y.setWidth w.bits := by
  rw [BitVec.sub_eq_add_neg, BitVec.setWidth_add _ _ w.bits_le,
    BitVec.setWidth_neg_of_le w.bits_le, ← BitVec.sub_eq_add_neg]

-- the difference of two zero-extended operands, truncated again
theorem sub_setWidth (a b : BitVec w.bits) :
    (a.setWidth 32 - b.setWidth 32).setWidth w.bits = a - b := by
  rw [setWidth_sub_bits, setWidth_setWidth_bits, setWidth_setWidth_bits]

/-! ## The top bit -/

@[simp] theorem msbOf_setWidth (a : BitVec w.bits) : msbOf w (a.setWidth 32) = a.msb := by
  rw [msbOf, setWidth_setWidth_bits]

theorem msbOf_and (x y : BitVec 32) : msbOf w (x &&& y) = (msbOf w x && msbOf w y) := by
  rw [msbOf, BitVec.setWidth_and, BitVec.msb_and]
  rfl

theorem msbOf_xor (x y : BitVec 32) : msbOf w (x ^^^ y) = (msbOf w x ^^ msbOf w y) := by
  rw [msbOf, BitVec.setWidth_xor, BitVec.msb_xor]
  rfl

theorem msbOf_not (x : BitVec 32) : msbOf w (~~~x) = !msbOf w x := by
  rw [msbOf, BitVec.setWidth_not w.bits_le, BitVec.msb_not, msbOf]
  simp [w.bits_pos]

-- the overflow test of an addition: equal signs in, another sign out
theorem msbOf_sameSign (a b r : BitVec w.bits) :
    msbOf w (~~~(a.setWidth 32 ^^^ b.setWidth 32) &&& (a.setWidth 32 ^^^ r.setWidth 32))
      = (!(a.msb ^^ b.msb) && (a.msb ^^ r.msb)) := by
  rw [msbOf_and, msbOf_not, msbOf_xor, msbOf_xor, msbOf_setWidth, msbOf_setWidth,
    msbOf_setWidth]

-- the overflow test of a subtraction: different signs in, that of the minuend lost
theorem msbOf_otherSign (a b r : BitVec w.bits) :
    msbOf w ((a.setWidth 32 ^^^ b.setWidth 32) &&& (a.setWidth 32 ^^^ r.setWidth 32))
      = ((a.msb ^^ b.msb) && (a.msb ^^ r.msb)) := by
  rw [msbOf_and, msbOf_xor, msbOf_xor, msbOf_setWidth, msbOf_setWidth, msbOf_setWidth]

/-! ## Zero and sign flag of a result -/

theorem toInt_signExtend_bits (r : BitVec w.bits) : (r.signExtend 32).toInt = r.toInt :=
  BitVec.toInt_signExtend_of_le w.bits_le

theorem signExtend_eq_zero_iff (r : BitVec w.bits) : r.signExtend 32 = 0 ↔ r = 0 := by
  rw [← BitVec.toInt_inj, ← BitVec.toInt_inj, toInt_signExtend_bits]
  simp

theorem updatePfZfSf_ZF (f : EFlags) (r : BitVec w.bits) :
    (f.updatePfZfSf (r.signExtend 32)).ZF = decide (r = 0) := by
  rw [EFlags.updatePfZfSf, Bool.eq_iff_iff, beq_iff_eq, decide_eq_true_eq, signExtend_eq_zero_iff]

theorem updatePfZfSf_SF (f : EFlags) (r : BitVec w.bits) :
    (f.updatePfZfSf (r.signExtend 32)).SF = r.msb := by
  rw [EFlags.updatePfZfSf, BitVec.msb_eq_toInt, BitVec.msb_eq_toInt, toInt_signExtend_bits]

end ZeroExtended

/-! ## The parity flag -/

-- an entry of the table looks at two of its four bits
theorem parityTable_getD :
    ∀ n < 16, parityTable.getD n false = (n.testBit 0 ^^ n.testBit 2) := by decide

/-- PF as it is stored: the even-numbered bits of the low byte. -/
theorem updatePfZfSf_PF (f : EFlags) (r : BitVec 32) : (f.updatePfZfSf r).PF
    = ((r.getLsbD 0 ^^ r.getLsbD 2) ^^ (r.getLsbD 4 ^^ r.getLsbD 6)) := by
  have hlo : r.toNat % 256 % 16 < 16 := Nat.mod_lt _ (by decide)
  have hhi : r.toNat % 256 / 16 < 16 := by omega
  have hbit : ∀ k, r.getLsbD k = r.toNat.testBit k := fun k => (BitVec.testBit_toNat r).symm
  have h256 : r.toNat % 256 = r.toNat % 2 ^ 8 := rfl
  have hmod : ∀ n : Nat, n % 16 = n % 2 ^ 4 := fun _ => rfl
  have hdiv : ∀ n : Nat, n / 16 = n / 2 ^ 4 := fun _ => rfl
  show (parityTable.getD (r.toNat % 256 % 16) false ^^ parityTable.getD (r.toNat % 256 / 16) false)
    = _
  rw [parityTable_getD _ hlo, parityTable_getD _ hhi, h256, hmod, hdiv]
  simp only [hbit, Nat.testBit_mod_two_pow, Nat.testBit_div_two_pow]
  rfl

namespace Emu

def modifyFlags (f : EFlags → EFlags) : EmuM Unit :=
  modifyCpu (fun c => { c with eflags := f c.eflags })

def updateEflagsPfZfSf (result : BitVec 32) : EmuM Unit :=
  modifyFlags (fun f => f.updatePfZfSf result)

-- `cpu.eflags.CF = b` and `cpu.eflags.OF = b`
def setCF (b : Bool) : EmuM Unit := modifyFlags (fun f => { f with CF := b })

def setOF (b : Bool) : EmuM Unit := modifyFlags (fun f => { f with OF := b })

/-- Instruction Decode and EXecute; `eip` is pointing to the opcode. -/
def idex (decode : Addr → EmuM Nat) (execute : EmuM Unit) (eip : Addr) : EmuM Nat := do
  let len ← decode (eip + 1)
  execute
  return len + 1  -- "1" for opcode

/-- `make_helper_v`: the 16-bit or the 32-bit instance of a helper. -/
def helperV (f : Width → Addr → EmuM Nat) (eip : Addr) : EmuM Nat := do
  let os ← getOps
  if os.is_operand_size_16 then f .word eip else f .long eip

end Emu

end Nemu
