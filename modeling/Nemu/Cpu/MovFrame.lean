/-
  Nemu.Cpu.MovFrame

  The mov instructions, executed: what they write and what they leave alone.

  `MovAt` is the part of the i386 opcode map with the moves, form by form: which
  operand is the destination, which the source, and how long the instruction is.
  `exec_mov` compares `exec` with it.
-/

import Nemu.Cpu.ExecRun
import Nemu.Cpu.Operand

namespace Nemu

open Outcome FlatMem I386 Emu

/-! ## The moves of the opcode map -/

/-- A move of the `from_`-wide operand `src` to the `w`-wide operand `dest`, with sign or
    zero extension where the widths differ. -/
structure MovForm where
  w : Width
  dest : OpLoc
  from_ : Width
  src : OpLoc
  signed : Bool
  len : Nat

namespace MovForm

-- both operands of one width
def plain (w : Width) (dest src : OpLoc) (len : Nat) : MovForm := ⟨w, dest, w, src, false, len⟩

/-- What is moved: the source in the state before the instruction, extended. -/
def value (f : MovForm) (s : Emu) : BitVec f.w.bits :=
  if f.signed then (f.src.val f.from_ s).signExtend f.w.bits
  else (f.src.val f.from_ s).setWidth f.w.bits

end MovForm

-- the 32-bit offset behind the opcode
def moffsLoc (m : FlatMem) (a : Addr) : OpLoc :=
  .mem (BitVec.ofNat 32 (ByteSeq.load m (a + 1).toNat 4))

/-- The instruction at `a` is the move `f`. -/
inductive MovAt (gpr : RegIdx → BitVec 32) (m : FlatMem) : Bool → Addr → MovForm → Prop
  | r2rm {op16 : Bool} {a : Addr} {w : Width} (hop : Sized m op16 a 0x88 w) :
      MovAt gpr m op16 a (.plain w (rmLoc gpr m (a + 1)) (regLoc m (a + 1))
        (1 + modrmLength m (a + 1)))
  | rm2r {op16 : Bool} {a : Addr} {w : Width} (hop : Sized m op16 a 0x8a w) :
      MovAt gpr m op16 a (.plain w (regLoc m (a + 1)) (rmLoc gpr m (a + 1))
        (1 + modrmLength m (a + 1)))
  | moffs2a {op16 : Bool} {a : Addr} {w : Width} (hop : Sized m op16 a 0xa0 w) :
      MovAt gpr m op16 a (.plain w (.reg R_EAX) (moffsLoc m a) 5)
  | a2moffs {op16 : Bool} {a : Addr} {w : Width} (hop : Sized m op16 a 0xa2 w) :
      MovAt gpr m op16 a (.plain w (moffsLoc m a) (.reg R_EAX) 5)
  | i2r {op16 : Bool} {a : Addr} {w : Width} {r : RegIdx}
      (hop : byteAt m a = 0xb0 + r.val ∧ w = .byte ∨
        byteAt m a = 0xb8 + r.val ∧ w = opWidth op16) :
      MovAt gpr m op16 a (.plain w (.reg r) (immLoc m (a + 1) w.bytes) (1 + w.bytes))
  | i2rm {op16 : Bool} {a : Addr} {w : Width} (hop : Sized m op16 a 0xc6 w) :
      MovAt gpr m op16 a (.plain w (rmLoc gpr m (a + 1))
        (immLoc m (a + 1 + BitVec.ofNat 32 (modrmLength m (a + 1))) w.bytes)
        (1 + (modrmLength m (a + 1) + w.bytes)))
  | movzb {op16 : Bool} {a : Addr} (hesc : byteAt m a = 0x0f) (hop : byteAt m (a + 1) = 0xb6) :
      MovAt gpr m op16 a ⟨opWidth op16, regLoc m (a + 2), .byte, rmLoc gpr m (a + 2), false,
        2 + modrmLength m (a + 2)⟩
  | movsb {op16 : Bool} {a : Addr} (hesc : byteAt m a = 0x0f) (hop : byteAt m (a + 1) = 0xbe) :
      MovAt gpr m op16 a ⟨opWidth op16, regLoc m (a + 2), .byte, rmLoc gpr m (a + 2), true,
        2 + modrmLength m (a + 2)⟩
  -- the table has the 32-bit instance only
  | movsw {op16 : Bool} {a : Addr} (hesc : byteAt m a = 0x0f) (hop : byteAt m (a + 1) = 0xbf) :
      MovAt gpr m op16 a ⟨.long, regLoc m (a + 2), .word, rmLoc gpr m (a + 2), true,
        2 + modrmLength m (a + 2)⟩
  | operandSize {op16 : Bool} {a : Addr} {f : MovForm} (hb : isOperandSize (byteAt m a))
      (hrest : MovAt gpr m true (a + 1) f) :
      MovAt gpr m op16 a { f with len := f.len + 1 }

/-! ## Running one move -/

/-- From `s`, the program returns the length of the move and does what it says. -/
def Performs (x : EmuM Nat) (s : Emu) (f : MovForm) : Prop :=
  ∃ s', x s = .ok (f.len, s') ∧ Writes f.w f.dest (f.value s) s s'

theorem plain_value (w : Width) (dest src : OpLoc) (len : Nat) (s : Emu) :
    (MovForm.plain w dest src len).value s = src.val w s := by
  rw [MovForm.value, if_neg (show ¬ (MovForm.plain w dest src len).signed = true from
    Bool.false_ne_true)]
  exact BitVec.setWidth_eq _

theorem MovForm.value_congr (f : MovForm) {s s₀ : Emu} (hcpu : s₀.cpu = s.cpu)
    (hmem : s₀.mem = s.mem) : f.value s₀ = f.value s := by
  rw [MovForm.value, MovForm.value, OpLoc.val_congr hcpu hmem]

/-- The same move from a state with another set of decoded operands. -/
theorem Performs.of_machine {x y : EmuM Nat} {s s₀ : Emu} {f : MovForm} (h : Performs x s₀ f)
    (hrun : y s = x s₀) (hmach : s₀.cpu = s.cpu ∧ s₀.mem = s.mem ∧ s₀.nemuState = s.nemuState) :
    Performs y s f := by
  obtain ⟨s', hx, hw⟩ := h
  obtain ⟨hcpu, hmem, hn⟩ := hmach
  refine ⟨s', hrun.trans hx, ?_⟩
  rw [← f.value_congr hcpu hmem]
  exact hw.of_machine hcpu hmem hn rfl rfl rfl

section Templates

variable {w : Width} {eip : Addr} {s s₁ : Emu} {d l : OpLoc} {n : Nat}

/-- The body of `mov` writes the source to the destination. -/
theorem doMov_run (hd : Decoded w .dest d s s₁) (hl : Decoded w .src l s s₁)
    (hacc : d.Accessible w) (hplace : d.IsPlace) :
    doMov w s₁ = .ok ((), d.put w (l.val w s) s₁) := by
  rw [doMov, run_bind_ok (getOp_run ..), run_bind_ok (getOp_run ..), hl.val,
    setWidth_setWidth_bits]
  exact writeOperand_put hd.loc hd.size hacc hplace _

theorem mov_performs {dec : Addr → EmuM Nat} (hdec : dec (eip + 1) s = .ok (n, s₁))
    (hmach : machine s₁ = machine s) (hd : Decoded w .dest d s s₁) (hl : Decoded w .src l s s₁)
    (hacc : d.Accessible w) (hplace : d.IsPlace) :
    Performs (idex dec (doMov w) eip) s (.plain w d l (1 + n)) := by
  have hrun := idex_run hdec (doMov_run hd hl hacc hplace)
  rw [Nat.add_comm] at hrun
  refine ⟨_, hrun, ?_⟩
  rw [plain_value]
  exact (OpLoc.put_writes hplace _ s₁).of_machine (congrArg Machine.cpu hmach)
    (congrArg Machine.mem hmach) (congrArg Machine.nemuState hmach) rfl rfl rfl

/-- A `mov` template on two operands. -/
theorem twoOp_performs (f : TwoOp) (hin : InRange (eip + 1) (f.len w s (eip + 1)))
    (hdest : (f.dest s (eip + 1)).Accessible w) (hsrc : (f.src w s (eip + 1)).Accessible w) :
    Performs (idex (f.decode w) (doMov w) eip) s (.plain w (f.dest s (eip + 1))
      (f.src w s (eip + 1)) (1 + f.len w s (eip + 1))) := by
  obtain ⟨s₁, hdec, hmach, hd, hl⟩ := f.decode_run hin hdest hsrc
  exact mov_performs hdec hmach hd hl hdest f.dest_isPlace

/-- `movzb`, `movsb` and `movsw`: the extension to 32 bits, cut to the destination. -/
theorem movExt_performs {from_ : Width} {ext : BitVec from_.bits → BitVec 32} {signed : Bool}
    (hext : ∀ v, (ext v).setWidth w.bits
      = if signed then v.signExtend w.bits else v.setWidth w.bits)
    {b : Addr} (hb : b = eip + 1) (hin : InRange b (modrmLength s.mem b))
    (hacc : (rmLoc s.cpu.gpr s.mem b).Accessible from_) :
    Performs (movExt from_ ext w eip) s ⟨w, regLoc s.mem b, from_, rmLoc s.cpu.gpr s.mem b,
      signed, 1 + modrmLength s.mem b⟩ := by
  subst hb
  have hne : OpSel.src ≠ OpSel.dest := OpSel.noConfusion
  obtain ⟨s₁, hrm, hmach, hl, hd⟩ := decodeRmInternal_run hne hin hacc
  have hreg : regOf (s₁.ops.get .dest) s₁ = .ok (regNo (regField s.mem (eip + 1)), s₁) := by
    rw [regOf, hd.loc]
    rfl
  have hval : (ext ((s₁.ops.get .src).val.setWidth from_.bits)).setWidth w.bits
      = MovForm.value ⟨w, regLoc s.mem (eip + 1), from_, rmLoc s.cpu.gpr s.mem (eip + 1), signed,
          1 + modrmLength s.mem (eip + 1)⟩ s := by
    rw [hl.val, setWidth_setWidth_bits, hext]
    rfl
  have hrun : movExt from_ ext w eip s = .ok (1 + modrmLength s.mem (eip + 1),
      (regLoc s.mem (eip + 1)).put w (MovForm.value ⟨w, regLoc s.mem (eip + 1), from_,
        rmLoc s.cpu.gpr s.mem (eip + 1), signed, 1 + modrmLength s.mem (eip + 1)⟩ s) s₁) := by
    have hdec : decodeRm2r from_ (eip + 1) s = .ok (modrmLength s.mem (eip + 1), s₁) := hrm
    rw [movExt, run_bind_ok hdec, run_bind_ok (getOp_run ..), run_bind_ok (getOp_run ..),
      run_bind_ok hreg, run_bind_ok (writeReg_run ..), run_pure, hval, Nat.add_comm]
    rfl
  refine ⟨_, hrun, ?_⟩
  have hplace : (regLoc s.mem (eip + 1)).IsPlace := trivial
  exact (OpLoc.put_writes hplace _ s₁).of_machine (congrArg Machine.cpu hmach)
    (congrArg Machine.mem hmach) (congrArg Machine.nemuState hmach) rfl rfl rfl

/-- The accumulator from and to an offset. -/
theorem movMoffs2a_performs (hin : InRange (eip + 1) 4)
    (hacc : (moffsLoc s.mem eip).Accessible w) :
    Performs (movMoffs2a w eip) s (.plain w (.reg R_EAX) (moffsLoc s.mem eip) 5) := by
  have hfetch := instrFetch_run (s := s) (n := 4) rfl hin
  have hread : memR w (BitVec.ofNat 32 (ByteSeq.load s.mem (eip + 1).toNat 4)) s
      = .ok (((moffsLoc s.mem eip).val w s).setWidth 32, s) := by
    rw [moffsLoc, setWidth_val_mem]
    exact memR_run (read_eq_ok.mpr ⟨hacc, rfl⟩)
  have hrun : movMoffs2a w eip s
      = .ok (5, (OpLoc.reg R_EAX).put w ((moffsLoc s.mem eip).val w s) s) := by
    rw [movMoffs2a, run_bind_ok hfetch, run_bind_ok hread, setWidth_setWidth_bits,
      run_bind_ok (writeReg_run ..), run_pure]
    rfl
  refine ⟨_, hrun, ?_⟩
  rw [plain_value]
  have hplace : (OpLoc.reg R_EAX).IsPlace := trivial
  exact OpLoc.put_writes hplace _ s

theorem movA2moffs_performs (hin : InRange (eip + 1) 4)
    (hacc : (moffsLoc s.mem eip).Accessible w) :
    Performs (movA2moffs w eip) s (.plain w (moffsLoc s.mem eip) (.reg R_EAX) 5) := by
  have hfetch := instrFetch_run (s := s) (n := 4) rfl hin
  have hplace : (moffsLoc s.mem eip).IsPlace := trivial
  have hwrite : memW w (BitVec.ofNat 32 (ByteSeq.load s.mem (eip + 1).toNat 4))
      ((s.cpu.reg w R_EAX).setWidth 32) s
      = .ok ((), (moffsLoc s.mem eip).put w (s.cpu.reg w R_EAX) s) :=
    writeOperand_put (o := ⟨moffsLoc s.mem eip, w.bytes, 0⟩) rfl (fun _ _ => rfl) hacc hplace _
  have hrun : movA2moffs w eip s
      = .ok (5, (moffsLoc s.mem eip).put w (s.cpu.reg w R_EAX) s) := by
    rw [movA2moffs, run_bind_ok hfetch, run_bind_ok (readReg32_run ..), run_bind_ok hwrite,
      run_pure]
  refine ⟨_, hrun, ?_⟩
  rw [plain_value]
  exact OpLoc.put_writes hplace _ s

end Templates

/-! ## Every move -/

-- an extension cut short is the extension to fewer bits
theorem setWidth_signExtend {n : Nat} (v : BitVec n) (w : Width) :
    (v.signExtend 32).setWidth w.bits = v.signExtend w.bits := by
  refine BitVec.eq_of_getLsbD_eq (fun b hb => ?_)
  have hb' : b < 32 := Nat.lt_of_lt_of_le hb w.bits_le
  rw [BitVec.getLsbD_setWidth, BitVec.getLsbD_signExtend, BitVec.getLsbD_signExtend,
    decide_eq_true hb, decide_eq_true hb', Bool.true_and, Bool.true_and]

-- the length that an instruction of the second map adds to its helper's
theorem Performs.twoByte {x : EmuM Nat} {s : Emu} {f : MovForm} (h : Performs x s f) :
    Performs (do let len ← x; return len + 1) s { f with len := f.len + 1 } := by
  obtain ⟨s', hx, hw⟩ := h
  exact ⟨s', by rw [run_bind_ok hx, run_pure], hw⟩

/-- The moves of the second map. -/
theorem exec_movExt (k : Nat) {s : Emu} {a : Addr} {i : Instr} {w : Width} (from_ : Width)
    (ext : BitVec from_.bits → BitVec 32) (signed : Bool) (hesc : byteAt s.mem a = 0x0f)
    (htab : twoByteOpcodeTable.getD (byteAt s.mem (a + 1)) Instr.inv = .instr i)
    (hi : ∀ s₁ : Emu, s₁.ops.is_operand_size_16 = s.ops.is_operand_size_16 →
      runInstr i (a + 1) s₁ = movExt from_ ext w (a + 1) s₁)
    (hext : ∀ v, (ext v).setWidth w.bits
      = if signed then v.signExtend w.bits else v.setWidth w.bits)
    (hin : InRange a (2 + modrmLength s.mem (a + 2)))
    (hacc : (rmLoc s.cpu.gpr s.mem (a + 2)).Accessible from_) :
    Performs (exec (k + 1) a) s ⟨w, regLoc s.mem (a + 2), from_,
      rmLoc s.cpu.gpr s.mem (a + 2), signed, 2 + modrmLength s.mem (a + 2)⟩ := by
  have hnext : a + 2 = a + 1 + 1 := by
    rw [BitVec.add_assoc]
    rfl
  have hlen : 2 + modrmLength s.mem (a + 2) = 1 + modrmLength s.mem (a + 2) + 1 := by omega
  have hrun := exec_twoByte k hesc htab (hin.mono (Nat.le_add_right 2 _))
  have hstep : runInstr i (a + 1) (opcode2At s (byteAt s.mem (a + 1)))
      = movExt from_ ext w (a + 1) (opcode2At s (byteAt s.mem (a + 1))) := hi _ rfl
  rw [hlen]
  have hperf := movExt_performs (s := opcode2At s (byteAt s.mem (a + 1))) hext hnext
    (hin.part (k := 2) (Nat.le_refl _)) hacc
  refine (hperf.twoByte).of_machine (hrun.trans ?_) ⟨rfl, rfl, rfl⟩
  rw [run_bind, run_bind, hstep]

theorem MovAt.len_pos {gpr : RegIdx → BitVec 32} {m : FlatMem} {op16 : Bool} {a : Addr}
    {f : MovForm} (h : MovAt gpr m op16 a f) : 0 < f.len := by
  cases h with
  | moffs2a hop => exact Nat.succ_pos 4
  | a2moffs hop => exact Nat.succ_pos 4
  | operandSize hb hrest => exact Nat.succ_pos _
  | _ => exact Nat.add_pos_left (Nat.succ_pos _) _

theorem exec_performs {gpr : RegIdx → BitVec 32} {m : FlatMem} {op16 : Bool} {a : Addr}
    {f : MovForm} (hmov : MovAt gpr m op16 a f) : ∀ (s : Emu) (k : Nat),
    s.cpu.gpr = gpr → s.mem = m → s.ops.is_operand_size_16 = op16 → InRange a f.len →
    f.dest.Accessible f.w → f.src.Accessible f.from_ → f.len ≤ k + 1 →
    Performs (exec (k + 1) a) s f := by
  -- on the prefixes in front of the opcode, one level of `exec` for each
  induction hmov with
  | r2rm hop =>
      intro s k hgpr hmem h16 hin hdest hsrc hk
      subst hgpr hmem h16
      have hrun := exec_sized k .movR2rmB .movR2rmV hop
        (g := fun w => idex (decodeR2rm w) (doMov w)) rfl rfl rfl rfl
        (hin.mono (Nat.le_add_right 1 _))
      exact (twoOp_performs (s := opcodeAt s _) .r2rm (hin.part (k := 1) (Nat.le_refl _))
        hdest hsrc).of_machine hrun ⟨rfl, rfl, rfl⟩
  | rm2r hop =>
      intro s k hgpr hmem h16 hin hdest hsrc hk
      subst hgpr hmem h16
      have hrun := exec_sized k .movRm2rB .movRm2rV hop
        (g := fun w => idex (decodeRm2r w) (doMov w)) rfl rfl rfl rfl
        (hin.mono (Nat.le_add_right 1 _))
      exact (twoOp_performs (s := opcodeAt s _) .rm2r (hin.part (k := 1) (Nat.le_refl _))
        hdest hsrc).of_machine hrun ⟨rfl, rfl, rfl⟩
  | moffs2a hop =>
      intro s k hgpr hmem h16 hin hdest hsrc hk
      subst hgpr hmem h16
      have hrun := exec_sized k .movMoffs2aB .movMoffs2aV hop (g := movMoffs2a)
        rfl rfl rfl rfl (hin.mono (by decide : 1 ≤ 5))
      exact (movMoffs2a_performs (s := opcodeAt s _) (hin.part (k := 1) (Nat.le_refl 5))
        hsrc).of_machine hrun ⟨rfl, rfl, rfl⟩
  | a2moffs hop =>
      intro s k hgpr hmem h16 hin hdest hsrc hk
      subst hgpr hmem h16
      have hrun := exec_sized k .movA2moffsB .movA2moffsV hop (g := movA2moffs)
        rfl rfl rfl rfl (hin.mono (by decide : 1 ≤ 5))
      exact (movA2moffs_performs (s := opcodeAt s _) (hin.part (k := 1) (Nat.le_refl 5))
        hdest).of_machine hrun ⟨rfl, rfl, rfl⟩
  | @i2r op16 a w r hop =>
      intro s k hgpr hmem h16 hin hdest hsrc hk
      subst hgpr hmem h16
      -- eight opcodes for the bytes, eight for the operand size
      have htab : ∀ r : RegIdx, opcodeTable.getD (0xb0 + r.val) Instr.inv = .instr .movI2rB ∧
          opcodeTable.getD (0xb8 + r.val) Instr.inv = .instr .movI2rV := by decide
      have hrun : exec (k + 1) a s = idex (decodeI2r w) (doMov w) a
          (opcodeAt s (byteAt s.mem a)) := by
        rw [exec_run k (hin.mono (Nat.le_add_right 1 _))]
        rcases hop with ⟨hbyte, rfl⟩ | ⟨hbyte, rfl⟩
        · rw [hbyte, (htab r).1]
          rfl
        · rw [hbyte, (htab r).2]
          exact helperV_run (fun w => idex (decodeI2r w) (doMov w)) a _
      have hreg : regNo (opcodeAt s (byteAt s.mem a)).ops.opcode.toNat = r := by
        apply Fin.ext
        show (BitVec.ofNat 32 (byteAt s.mem a)).toNat % 8 = r.val
        have hr := r.isLt
        rw [toNat_byteAt]
        rcases hop with ⟨hbyte, -⟩ | ⟨hbyte, -⟩ <;> omega
      have hperf := twoOp_performs (w := w) (s := opcodeAt s (byteAt s.mem a)) .i2r
        (hin.part (k := 1) (Nat.le_refl _)) trivial trivial
      rw [TwoOp.dest, hreg] at hperf
      exact hperf.of_machine hrun ⟨rfl, rfl, rfl⟩
  | i2rm hop =>
      intro s k hgpr hmem h16 hin hdest hsrc hk
      subst hgpr hmem h16
      have hrun := exec_sized k .movI2rmB .movI2rmV hop
        (g := fun w => idex (decodeI2rm w) (doMov w)) rfl rfl rfl rfl
        (hin.mono (Nat.le_add_right 1 _))
      exact (twoOp_performs (s := opcodeAt s _) .i2rm (hin.part (k := 1) (Nat.le_refl _))
        hdest hsrc).of_machine hrun ⟨rfl, rfl, rfl⟩
  | @movzb op16 a hesc hop =>
      intro s k hgpr hmem h16 hin hdest hsrc hk
      subst hgpr hmem h16
      have htab : twoByteOpcodeTable.getD 0xb6 Instr.inv = .instr .movzbV := rfl
      rw [← hop] at htab
      refine exec_movExt k .byte (·.setWidth 32) false hesc htab ?_ ?_ hin hsrc
      · intro s₁ h₁
        rw [← h₁]
        exact helperV_run movzb (a + 1) s₁
      · exact fun v => BitVec.setWidth_setWidth_of_le v (Width.bits_le _)
  | @movsb op16 a hesc hop =>
      intro s k hgpr hmem h16 hin hdest hsrc hk
      subst hgpr hmem h16
      have htab : twoByteOpcodeTable.getD 0xbe Instr.inv = .instr .movsbV := rfl
      rw [← hop] at htab
      refine exec_movExt k .byte (·.signExtend 32) true hesc htab ?_ ?_ hin hsrc
      · intro s₁ h₁
        rw [← h₁]
        exact helperV_run movsb (a + 1) s₁
      · exact fun v => setWidth_signExtend v _
  | @movsw op16 a hesc hop =>
      intro s k hgpr hmem h16 hin hdest hsrc hk
      subst hgpr hmem h16
      have htab : twoByteOpcodeTable.getD 0xbf Instr.inv = .instr .movswL := rfl
      rw [← hop] at htab
      refine exec_movExt k .word (·.signExtend 32) true hesc htab ?_ ?_ hin hsrc
      · exact fun s₁ _ => rfl
      · exact fun v => setWidth_signExtend v _
  | @operandSize op16 a f hb hrest ih =>
      intro s k hgpr hmem h16 hin hdest hsrc hk
      subst hgpr hmem h16
      have hpos := hrest.len_pos
      have hk' := Nat.le_of_succ_le_succ hk
      obtain ⟨j, rfl⟩ : ∃ j, k = j + 1 := ⟨k - 1, by omega⟩
      have hnext := ih (op16At (opcodeAt s (byteAt s.mem a)) true) j rfl rfl rfl
        (hin.part (k := 1) (Nat.le_of_eq (Nat.add_comm 1 _))) hdest hsrc hk'
      obtain ⟨s', hrun, hw⟩ := hnext
      have hexec := exec_operandSize hb (hin.mono (Nat.le_add_left 1 _)) hrun
      exact ⟨_, hexec, hw.of_machine rfl rfl rfl rfl rfl rfl⟩

/-- Every move, with any number of operand-size prefixes: `exec` returns its length, the
    destination holds the source's value of before, extended where the widths differ, and
    every other bit of the registers, every other byte of memory and EFLAGS are as they
    were. -/
theorem exec_mov_writes (s : Emu) (a : Addr) (f : MovForm) (fuel : Nat)
    (hmov : MovAt s.cpu.gpr s.mem s.ops.is_operand_size_16 a f) (hin : InRange a f.len)
    (hdest : f.dest.Accessible f.w) (hsrc : f.src.Accessible f.from_) (hfuel : f.len ≤ fuel) :
    ∃ s', exec fuel a s = .ok (f.len, s') ∧ Writes f.w f.dest (f.value s) s s' := by
  have hpos := hmov.len_pos
  obtain ⟨k, rfl⟩ : ∃ k, fuel = k + 1 := ⟨fuel - 1, by omega⟩
  exact exec_performs hmov s k rfl rfl rfl hin hdest hsrc hfuel

-- `movsbw (%ebx),%cx`, the operand-size prefix in front
theorem exec_movsbw_writes :
    let m : FlatMem := fun i => if i = 0x20 then 0x80 else [0x66, 0x0f, 0xbe, 0x0b].getD i 0
    let s : Emu := { Emu.zeroed m with
      cpu := { (Emu.zeroed m).cpu with gpr := fun _ => 0x20 } }
    ∃ s', exec 4 0 s = .ok (4, s') ∧ Writes .word (.reg R_ECX) 0xff80 s s' := by
  intro m s
  have hlen : modrmLength m 3 = 1 := by decide
  have hreg : regLoc m 3 = .reg R_ECX := by decide
  have hrm : rmLoc s.cpu.gpr m 3 = .mem 0x20 := by decide
  have hmov : MovAt s.cpu.gpr m true 1 ⟨opWidth true, regLoc m 3, .byte, rmLoc s.cpu.gpr m 3,
      true, 2 + modrmLength m 3⟩ := .movsb (by decide) (by decide)
  rw [hlen, hreg, hrm] at hmov
  have hrun := exec_mov_writes s 0 _ 4 (.operandSize (by decide) hmov) (by decide) trivial
    (by decide : InRange 0x20 1) (Nat.le_refl 4)
  have hval : MovForm.value ⟨.word, .reg R_ECX, .byte, .mem 0x20, true, 4⟩ s = 0xff80 := by decide
  rw [← hval]
  exact hrun

end Nemu
