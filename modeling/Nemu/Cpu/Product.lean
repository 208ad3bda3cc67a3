/-
  Nemu.Cpu.Product

  `mul` and `imul`: the product of the accumulator and an operand in the register pair
  `(E)DX:(E)AX`, and the truncated product of two operands in a register.

  The templates multiply zero-extended operand values in wider C types.  What they keep of
  the result is the unsigned product, the signed one, or the part on which both agree.
  The form with a sign-extended byte never gets there: its decode helper is not written.
-/

import Nemu.Cpu.Operand
import Nemu.Cpu.ExecLength

namespace Nemu

open Outcome FlatMem I386 Emu

/-! ## The register pair -/

/-- `(E)DX:(E)AX` as one number of twice the width. -/
def CpuState.pair (c : CpuState) (w : Width) : BitVec (w.bits + w.bits) :=
  c.reg w R_EDX ++ c.reg w R_EAX

/-- From `s` to `s'` the two registers of the pair became `hi` and `lo`; what else a program
    can observe, the upper halves of 32-bit registers included, is as it was. -/
structure WritesPair (w : Width) (hi lo : BitVec w.bits) (s s' : Emu) : Prop where
  hi : s'.cpu.reg w R_EDX = hi
  lo : s'.cpu.reg w R_EAX = lo
  regs : ∀ j b, ¬ ((j = R_EDX ∨ j = R_EAX) ∧ b < w.bits) →
    (s'.cpu.gpr j).getLsbD b = (s.cpu.gpr j).getLsbD b
  mem : s'.mem = s.mem
  eip : s'.cpu.eip = s.cpu.eip
  eflags : s'.cpu.eflags = s.cpu.eflags
  nemuState : s'.nemuState = s.nemuState

section Pair

variable {w : Width} {s : Emu}

-- `REG(R_EAX) = lo; REG(R_EDX) = hi`
def pairAt (w : Width) (s : Emu) (hi lo : BitVec w.bits) : Emu :=
  { s with cpu := (s.cpu.setReg w R_EAX lo).setReg w R_EDX hi }

theorem regHome_pair (w : Width) : regHome w R_EAX = R_EAX ∧ regHome w R_EDX = R_EDX := by
  cases w <;> decide

theorem regShift_pair (w : Width) : regShift w R_EAX = 0 ∧ regShift w R_EDX = 0 := by
  cases w <;> decide

theorem pairAt_writes (hi lo : BitVec w.bits) : WritesPair w hi lo s (pairAt w s hi lo) := by
  obtain ⟨hhomeA, hhomeD⟩ := regHome_pair w
  obtain ⟨hshiftA, hshiftD⟩ := regShift_pair w
  have hbit : ∀ j b, ((pairAt w s hi lo).cpu.gpr j).getLsbD b
      = if j = R_EDX ∧ b < w.bits then hi.getLsbD b
        else if j = R_EAX ∧ b < w.bits then lo.getLsbD b else (s.cpu.gpr j).getLsbD b := by
    intro j b
    rw [pairAt, getLsbD_setReg, getLsbD_setReg, hhomeA, hhomeD, hshiftA, hshiftD]
    simp only [Nat.zero_le, true_and, Nat.zero_add, Nat.sub_zero]
  have hne : R_EAX ≠ R_EDX := by decide
  refine ⟨reg_setReg _ w R_EDX hi, ?_, ?_, rfl, ?_, ?_, rfl⟩
  · apply BitVec.eq_of_getLsbD_eq
    intro b hb
    rw [getLsbD_reg, hhomeA, hshiftA, Nat.zero_add, hbit, if_neg (fun h => hne h.1),
      if_pos ⟨rfl, hb⟩, decide_eq_true hb, Bool.true_and]
  · intro j b hj
    rw [hbit, if_neg (fun h => hj ⟨.inl h.1, h.2⟩), if_neg (fun h => hj ⟨.inr h.1, h.2⟩)]
  · exact (eip_setReg ..).trans (eip_setReg ..)
  · exact (eflags_setReg ..).trans (eflags_setReg ..)

/-- Only the machine of the first state counts, not its decoded operands. -/
theorem WritesPair.of_start {hi lo : BitVec w.bits} {s₁ s' : Emu} (h : WritesPair w hi lo s₁ s')
    (hmach : machine s₁ = machine s) : WritesPair w hi lo s s' := by
  have hcpu : s₁.cpu = s.cpu := congrArg Machine.cpu hmach
  refine ⟨h.hi, h.lo, ?_, ?_, ?_, ?_, ?_⟩
  · intro j b hj
    rw [← hcpu]
    exact h.regs j b hj
  · exact h.mem.trans (congrArg Machine.mem hmach)
  · exact h.eip.trans (congrArg CpuState.eip hcpu)
  · exact h.eflags.trans (congrArg CpuState.eflags hcpu)
  · exact h.nemuState.trans (congrArg Machine.nemuState hmach)

theorem WritesPair.pair_eq {hi lo : BitVec w.bits} {s' : Emu} (h : WritesPair w hi lo s s') :
    s'.cpu.pair w = hi ++ lo := by
  rw [CpuState.pair, h.hi, h.lo]

end Pair

/-! ## The instructions -/

/-- The multiplications of the opcode tables with operands of 16 and 32 bits. -/
inductive MulForm where
  | mul_rm
  | imul_rm2a
  | imul_rm2r
  | imul_i_rm2r
  | imul_si_rm2r
deriving DecidableEq, Repr

namespace MulForm

def instr : MulForm → Instr
  | mul_rm => .mulRmV
  | imul_rm2a => .imulRm2aV
  | imul_rm2r => .imulRm2rV
  | imul_i_rm2r => .imulIRm2rV
  | imul_si_rm2r => .imulSiRm2rV

-- its instance for one operand width
def helper : MulForm → Width → Addr → EmuM Nat
  | mul_rm, w => idex (decodeRm w) (doMul w)
  | imul_rm2a, w => idex (decodeRm w) (imulRm2aBody w)
  | imul_rm2r, w => idex (decodeRm2r w) (do
      let dest ← getOp .dest
      setOp .src2 dest
      doImul w)
  | imul_i_rm2r, w => idex (decodeIRm2r w) (doImul w)
  | imul_si_rm2r, w => idex (decodeSiRm2r w) (doImul w)

theorem runInstr_instr (f : MulForm) (eip : Addr) (s : Emu) :
    runInstr f.instr eip s = f.helper (opWidth s.ops.is_operand_size_16) eip s := by
  rw [← helperV_run f.helper]
  cases f <;> rfl

/-- The bytes behind the opcode. -/
def len (w : Width) (s : Emu) (b : Addr) : MulForm → Nat
  | mul_rm | imul_rm2a | imul_rm2r => modrmLength s.mem b
  | imul_i_rm2r => modrmLength s.mem b + w.bytes
  | imul_si_rm2r => modrmLength s.mem b + 1

-- the immediate behind the ModR/M operand at `b`, of `n` bytes
def immAt (s : Emu) (b : Addr) (n : Nat) : OpLoc :=
  immLoc s.mem (b + BitVec.ofNat 32 (modrmLength s.mem b)) n

/-- What an instruction with its operands at `b` has to leave: the whole product of the
    accumulator and the operand in the pair, or the low `n` bits of the signed product in the
    destination register; all operand values are those of before. -/
def Product (f : MulForm) (w : Width) (b : Addr) (s s' : Emu) : Prop :=
  let rm := (rmLoc s.cpu.gpr s.mem b).val w s
  let dest := regLoc s.mem b
  match f with
  | mul_rm => ∃ hi lo, WritesPair w hi lo s s' ∧
      (s'.cpu.pair w).toNat = (s.cpu.reg w R_EAX).toNat * rm.toNat
  | imul_rm2a => ∃ hi lo, WritesPair w hi lo s s' ∧
      (s'.cpu.pair w).toInt = (s.cpu.reg w R_EAX).toInt * rm.toInt
  | imul_rm2r => Writes w dest (BitVec.ofInt w.bits (rm.toInt * (dest.val w s).toInt)) s s'
  | imul_i_rm2r =>
      Writes w dest (BitVec.ofInt w.bits (((immAt s b w.bytes).val w s).toInt * rm.toInt)) s s'
  | imul_si_rm2r =>
      Writes w dest (BitVec.ofInt w.bits (((immAt s b 1).val .byte s).toInt * rm.toInt)) s s'

end MulForm

/-! ## Products -/

section Arithmetic

variable {w : Width}

theorem bits_le_double (w : Width) : w.bits ≤ 64 := Nat.le_trans w.bits_le (by decide)

theorem two_bits_le (w : Width) : w.bits + w.bits ≤ 64 := Nat.add_le_add w.bits_le w.bits_le

theorem pow_two_bits_le (w : Width) : 2 ^ (w.bits + w.bits) ≤ 2 ^ 64 :=
  Nat.pow_le_pow_right Nat.two_pos (two_bits_le w)

/-- The two halves that the templates store are the low `2n` bits of the result. -/
theorem halves_append (r : BitVec 64) :
    (r.sshiftRight w.bits).setWidth w.bits ++ r.setWidth w.bits = r.setWidth (w.bits + w.bits) := by
  have hle := two_bits_le w
  apply BitVec.eq_of_getLsbD_eq
  intro b hb
  rw [BitVec.getLsbD_append, BitVec.getLsbD_setWidth, BitVec.getLsbD_setWidth,
    BitVec.getLsbD_setWidth, BitVec.getLsbD_sshiftRight, decide_eq_true hb]
  by_cases hlo : b < w.bits
  · simp [hlo]
  · have hhi : b - w.bits < w.bits := by omega
    have hback : w.bits + (b - w.bits) = b := by omega
    have h64 : b < 64 := by omega
    have hsub : ¬ 64 ≤ b - w.bits := by omega
    simp [hlo, hhi, hback, h64, hsub]

-- the unsigned product of two `n`-bit numbers fits into `2n` bits
theorem toNat_product (a v : BitVec w.bits) :
    ((a.setWidth 64 * v.setWidth 64).setWidth (w.bits + w.bits)).toNat = a.toNat * v.toNat := by
  have hfit : a.toNat * v.toNat < 2 ^ (w.bits + w.bits) := by
    rw [Nat.pow_add]
    exact Nat.mul_lt_mul'' a.isLt v.isLt
  have hle := bits_le_double w
  rw [BitVec.toNat_setWidth, BitVec.toNat_mul, BitVec.toNat_setWidth_of_le hle,
    BitVec.toNat_setWidth_of_le hle, Nat.mod_eq_of_lt (Nat.lt_of_lt_of_le hfit (pow_two_bits_le w)),
    Nat.mod_eq_of_lt hfit]

-- and so does the signed one
theorem toInt_product (a v : BitVec w.bits) :
    ((a.signExtend 64 * v.signExtend 64).setWidth (w.bits + w.bits)).toInt
      = a.toInt * v.toInt := by
  have hbits := bits_le_double w
  have hhi : a.toInt * v.toInt ≤ 2 ^ (w.bits * 2 - 2) := BitVec.toInt_mul_toInt_le
  have hlo : -(2 ^ (w.bits * 2 - 2)) ≤ a.toInt * v.toInt := BitVec.le_toInt_mul_toInt
  have hexp : w.bits + w.bits = (w.bits * 2 - 2) + 2 := by
    have := w.bits_pos
    omega
  have hpow : (2 : Int) ^ (w.bits + w.bits) = 2 ^ (w.bits * 2 - 2) * 4 := by
    rw [hexp, Int.pow_add]
    rfl
  rw [← BitVec.signExtend_eq_setWidth_of_le _ (two_bits_le w),
    BitVec.toInt_signExtend_eq_toInt_bmod_of_le _ (two_bits_le w), BitVec.toInt_mul,
    BitVec.toInt_signExtend_of_le hbits, BitVec.toInt_signExtend_of_le hbits,
    Int.bmod_bmod_of_dvd (Nat.pow_dvd_pow 2 (two_bits_le w))]
  apply Int.bmod_eq_of_le_mul_two
  · push_cast
    omega
  · push_cast
    have hpos : (0 : Int) < 2 ^ (w.bits * 2 - 2) := Int.pow_pos (by decide)
    omega

/-- Truncated to `n` bits, the product of zero-extended operands is the signed one. -/
theorem truncated_product (x y : BitVec w.bits) :
    ((x.setWidth 32).setWidth (2 * w.bits) * (y.setWidth 32).setWidth (2 * w.bits)).setWidth w.bits
      = BitVec.ofInt w.bits (x.toInt * y.toInt) := by
  have hle : w.bits ≤ 2 * w.bits := by omega
  have hback : ∀ z : BitVec w.bits, ((z.setWidth 32).setWidth (2 * w.bits)).setWidth w.bits = z := by
    intro z
    rw [BitVec.setWidth_setWidth_of_le _ hle, setWidth_setWidth_bits]
  rw [BitVec.setWidth_mul _ _ hle, hback, hback, BitVec.ofInt_mul, BitVec.ofInt_toInt,
    BitVec.ofInt_toInt]

end Arithmetic

/-! ## Running an instruction -/

section Run

variable {w : Width} {s s₁ : Emu} {l : OpLoc} {b : Addr}

theorem writeProduct_run (hw : w ≠ .byte) (r : BitVec 64) :
    writeProduct w r s
      = .ok ((), pairAt w s ((r.sshiftRight w.bits).setWidth w.bits) (r.setWidth w.bits)) := by
  cases w with
  | byte => exact absurd rfl hw
  | word => rfl
  | long => rfl

/-- The end of `mul` and `imul_rm2a`: the pair holds the low `2n` bits of the result. -/
theorem writeProduct_pair (hw : w ≠ .byte) (r : BitVec 64) (hmach : machine s₁ = machine s) :
    ∃ s' hi lo, writeProduct w r s₁ = .ok ((), s') ∧ WritesPair w hi lo s s' ∧
      s'.cpu.pair w = r.setWidth (w.bits + w.bits) := by
  have hwrites := (pairAt_writes (s := s₁) ((r.sshiftRight w.bits).setWidth w.bits)
    (r.setWidth w.bits)).of_start hmach
  refine ⟨_, _, _, writeProduct_run hw r, hwrites, ?_⟩
  rw [hwrites.pair_eq, halves_append]

theorem doMul_run (hw : w ≠ .byte) (hl : Decoded w .src l s s₁) (hmach : machine s₁ = machine s) :
    ∃ s', doMul w s₁ = .ok ((), s') ∧ ∃ hi lo, WritesPair w hi lo s s' ∧
      (s'.cpu.pair w).toNat = (s.cpu.reg w R_EAX).toNat * (l.val w s).toNat := by
  have hcpu : s₁.cpu = s.cpu := congrArg Machine.cpu hmach
  obtain ⟨s', hi, lo, hrun, hwrites, hpair⟩ := writeProduct_pair hw
    ((s.cpu.reg w R_EAX).setWidth 64 * (l.val w s).setWidth 64) hmach
  have hval : ((l.val w s).setWidth 32).setWidth 64 = (l.val w s).setWidth 64 :=
    BitVec.setWidth_setWidth (fun h => Nat.not_lt.mpr w.bits_le h.1)
  refine ⟨s', ?_, hi, lo, hwrites, ?_⟩
  · rw [doMul, run_bind_ok (getOp_run ..), run_bind_ok (readReg_run ..), hl.val, hval, hcpu]
    exact hrun
  · rw [hpair, toNat_product]

theorem imulRm2aBody_run (hw : w ≠ .byte) (hl : Decoded w .src l s s₁)
    (hmach : machine s₁ = machine s) :
    ∃ s', imulRm2aBody w s₁ = .ok ((), s') ∧ ∃ hi lo, WritesPair w hi lo s s' ∧
      (s'.cpu.pair w).toInt = (s.cpu.reg w R_EAX).toInt * (l.val w s).toInt := by
  have hcpu : s₁.cpu = s.cpu := congrArg Machine.cpu hmach
  obtain ⟨s', hi, lo, hrun, hwrites, hpair⟩ := writeProduct_pair hw
    ((s.cpu.reg w R_EAX).signExtend 64 * (l.val w s).signExtend 64) hmach
  refine ⟨s', ?_, hi, lo, hwrites, ?_⟩
  · rw [imulRm2aBody, run_bind_ok (getOp_run ..), run_bind_ok (readReg_run ..), hl.val,
      setWidth_setWidth_bits, hcpu]
    exact hrun
  · rw [hpair, toInt_product]

/-- The multiplication of two decoded operands into a register. -/
theorem doImul_run {i : RegIdx} {x y : OpLoc} (hd : Decoded w .dest (.reg i) s s₁)
    (hx : Decoded w .src x s s₁) (hy : Decoded w .src2 y s s₁) (hmach : machine s₁ = machine s) :
    ∃ s', doImul w s₁ = .ok ((), s') ∧
      Writes w (.reg i) (BitVec.ofInt w.bits ((x.val w s).toInt * (y.val w s).toInt)) s s' := by
  generalize hv : BitVec.ofInt w.bits ((x.val w s).toInt * (y.val w s).toInt) = v
  have hput := writeOperand_put (s := s₁) hd.loc hd.size trivial trivial v
  refine ⟨(OpLoc.reg i).put w v s₁, ?_, ?_⟩
  · rw [doImul, run_bind_ok (getOp_run ..), run_bind_ok (getOp_run ..),
      run_bind_ok (getOp_run ..), hx.val, hy.val, truncated_product, hv]
    exact hput
  · exact (OpLoc.put_writes (l := .reg i) trivial v s₁).of_machine (congrArg Machine.cpu hmach)
      (congrArg Machine.mem hmach) (congrArg Machine.nemuState hmach) rfl rfl rfl

/-- Gv <- EvIv: three operands. -/
theorem decodeIRm2r_run (hin : InRange b (modrmLength s.mem b + w.bytes))
    (hacc : (rmLoc s.cpu.gpr s.mem b).Accessible w) :
    ∃ s₁, decodeIRm2r w b s = .ok (modrmLength s.mem b + w.bytes, s₁) ∧ machine s₁ = machine s ∧
      Decoded w .dest (regLoc s.mem b) s s₁ ∧ Decoded w .src (MulForm.immAt s b w.bytes) s s₁ ∧
      Decoded w .src2 (rmLoc s.cpu.gpr s.mem b) s s₁ := by
  have hne : OpSel.src2 ≠ OpSel.dest := OpSel.noConfusion
  obtain ⟨s₁, hrm, hmach₁, hsrc2, hdest⟩ :=
    decodeRmInternal_run hne (hin.mono (Nat.le_add_right _ _)) hacc
  have hmem₁ : s₁.mem = s.mem := congrArg Machine.mem hmach₁
  obtain ⟨s₂, himm, hmach₂, hsrc, hkeep⟩ :=
    decodeI_decoded (s := s₁) (hin.part (k := modrmLength s.mem b) (Nat.le_refl _))
  rw [hmem₁] at hsrc
  refine ⟨s₂, ?_, hmach₂.trans hmach₁, hdest.of_kept (hkeep .dest OpSel.noConfusion),
    hsrc.of_start hmach₁, hsrc2.of_kept (hkeep .src2 OpSel.noConfusion)⟩
  rw [decodeIRm2r, run_bind_ok hrm, run_bind_ok himm, run_pure]

-- `ops_decoded.src2 = ops_decoded.dest`
theorem copyDest_run {i : RegIdx} (hd : Decoded w .dest (.reg i) s s₁) :
    ∃ s₂, setOp .src2 (s₁.ops.get .dest) s₁ = .ok ((), s₂) ∧ machine s₂ = machine s₁ ∧
      Decoded w .src2 (.reg i) s s₂ ∧ ∀ x, x ≠ .src2 → s₂.ops.get x = s₁.ops.get x := by
  refine ⟨_, setOp_run .src2 _ s₁, machine_setOp .., ?_, ?_⟩
  · have hget : (s₁.ops.set .src2 (s₁.ops.get .dest)).get .src2 = s₁.ops.get .dest :=
      Operands.get_set ..
    refine ⟨?_, ?_, ?_⟩
    · rw [hget, hd.loc]
    · rw [hget, hd.val]
    · rw [hget]
      exact hd.size
  · exact fun x hx => Operands.get_set_ne _ hx _

end Run

section Forms

variable {w : Width} {s : Emu} {eip : Addr} {f : MulForm}

/-- Every form but the one with a sign-extended byte leaves its product. -/
theorem MulForm.helper_run (hf : f ≠ .imul_si_rm2r) (hw : w ≠ .byte)
    (hin : InRange (eip + 1) (f.len w s (eip + 1)))
    (hacc : (rmLoc s.cpu.gpr s.mem (eip + 1)).Accessible w) :
    ∃ n s', f.helper w eip s = .ok (n, s') ∧ f.Product w (eip + 1) s s' := by
  have hsrc : OpSel.src ≠ OpSel.src2 := OpSel.noConfusion
  cases f with
  | mul_rm =>
      obtain ⟨s₁, hdec, hmach, hl, -⟩ := decodeRmInternal_run hsrc hin hacc
      obtain ⟨s', hrun, hprod⟩ := doMul_run hw hl hmach
      exact ⟨_, s', idex_run hdec hrun, hprod⟩
  | imul_rm2a =>
      obtain ⟨s₁, hdec, hmach, hl, -⟩ := decodeRmInternal_run hsrc hin hacc
      obtain ⟨s', hrun, hprod⟩ := imulRm2aBody_run hw hl hmach
      exact ⟨_, s', idex_run hdec hrun, hprod⟩
  | imul_rm2r =>
      have hne : OpSel.src ≠ OpSel.dest := OpSel.noConfusion
      obtain ⟨s₁, hdec, hmach₁, hl, hd⟩ := decodeRmInternal_run hne hin hacc
      -- the destination is copied to the second source before it is overwritten
      obtain ⟨s₂, hcopy, hmach₂, hy, hkeep⟩ := copyDest_run hd
      obtain ⟨s', hrun, hprod⟩ := doImul_run (hd.of_kept (hkeep .dest OpSel.noConfusion))
        (hl.of_kept (hkeep .src OpSel.noConfusion)) hy (hmach₂.trans hmach₁)
      have hbody : (do let dest ← getOp .dest; setOp .src2 dest; doImul w) s₁ = .ok ((), s') := by
        rw [run_bind_ok (getOp_run ..), run_bind_ok hcopy, hrun]
      exact ⟨_, s', idex_run hdec hbody, hprod⟩
  | imul_i_rm2r =>
      obtain ⟨s₁, hdec, hmach, hd, hx, hy⟩ := decodeIRm2r_run hin hacc
      obtain ⟨s', hrun, hprod⟩ := doImul_run hd hx hy hmach
      exact ⟨_, s', idex_run hdec hrun, hprod⟩
  | imul_si_rm2r => exact absurd rfl hf

/-- `decode_si` panics. -/
theorem imul_si_rm2r_stops (r : Nat × Emu) : MulForm.imul_si_rm2r.helper w eip s ≠ .ok r := by
  intro h
  obtain ⟨n, s₁, hdec, -⟩ := run_bind_eq_ok.mp h
  exact decodeSiRm2r_stops _ _ _ _ hdec

end Forms

/-- **Products.** At both operand sizes, for every accumulator, operand and aliasing of the
    two, a multiplication leaves its product, exactly if it is not the form with a
    sign-extended byte, which does not return. -/
theorem product_right_iff (f : MulForm) (s : Emu) (eip : Addr)
    (hin : InRange (eip + 1) (f.len (opWidth s.ops.is_operand_size_16) s (eip + 1)))
    (hacc : (rmLoc s.cpu.gpr s.mem (eip + 1)).Accessible (opWidth s.ops.is_operand_size_16)) :
    (∃ n s', runInstr f.instr eip s = .ok (n, s') ∧
      f.Product (opWidth s.ops.is_operand_size_16) (eip + 1) s s') ↔ f ≠ .imul_si_rm2r := by
  rw [MulForm.runInstr_instr]
  apply Iff.intro
  · rintro ⟨n, s', hrun, -⟩ rfl
    exact imul_si_rm2r_stops _ hrun
  · exact fun hf => MulForm.helper_run hf (opWidth_ne_byte _) hin hacc

-- `mull %edx`, the operand being half of the result
theorem product_right_mull :
    let s : Emu := { Emu.zeroed (fun i => [0xf7, 0xe2].getD i 0) with
      cpu := { (Emu.zeroed fun _ => 0).cpu with gpr := fun _ => 0xffffffff } }
    (∃ n s', runInstr .mulRmV 0 s = .ok (n, s') ∧ MulForm.mul_rm.Product .long 1 s s') ↔
      MulForm.mul_rm ≠ .imul_si_rm2r := by
  intro s
  exact product_right_iff .mul_rm s 0 (by decide) (by decide)

/-- `imul $2,%eax,%eax` with the immediate in one byte stops the emulator. -/
theorem imul_si_not_right :
    ¬ ∀ (f : MulForm) (s : Emu) (eip : Addr),
      InRange (eip + 1) (f.len (opWidth s.ops.is_operand_size_16) s (eip + 1)) →
      (rmLoc s.cpu.gpr s.mem (eip + 1)).Accessible (opWidth s.ops.is_operand_size_16) →
      ∃ n s', runInstr f.instr eip s = .ok (n, s') ∧
        f.Product (opWidth s.ops.is_operand_size_16) (eip + 1) s s' := by
  intro h
  let s : Emu := Emu.zeroed (fun i => [0x6b, 0xc0, 0x02].getD i 0)
  obtain ⟨n, s', hrun, -⟩ := h .imul_si_rm2r s 0 (by decide) (by decide)
  rw [MulForm.runInstr_instr] at hrun
  exact imul_si_rm2r_stops _ hrun

end Nemu
