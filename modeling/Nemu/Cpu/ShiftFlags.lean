/-
  Nemu.Cpu.ShiftFlags

  `shl`, `shr` and `sar` by one, by CL and by an immediate byte.

  The shifted value is always right.  The flags are not: the templates compute them for
  a masked count of zero as well, and `shl` hands its result to the shared helper
  without its sign, so that bit 15 of a 16-bit result never reaches SF.  `shr` does the
  same, but its result has no sign to lose; `sar` declares its destination signed.
-/

import Nemu.Cpu.Operand
import Nemu.Cpu.Exec.Logic

namespace Nemu

open Outcome FlatMem I386 Emu

/-! ## The operations -/

inductive ShiftOp where
  | shl
  | shr
  | sar
deriving DecidableEq, Repr

namespace ShiftOp

def body : ShiftOp → Width → EmuM Unit
  | shl => doShl
  | shr => doShr
  | sar => doSar

def result {n : Nat} (d : BitVec n) (c : Nat) : ShiftOp → BitVec n
  | shl => d <<< c
  | shr => d >>> c
  | sar => d.sshiftRight c

-- the 32-bit number whose flags the template takes: only `sar` keeps the sign
def widen {n : Nat} (r : BitVec n) : ShiftOp → BitVec 32
  | shl | shr => r.setWidth 32
  | sar => r.signExtend 32

theorem result_zero {n : Nat} (op : ShiftOp) (d : BitVec n) : op.result d 0 = d := by
  cases op with
  | shl => exact BitVec.shiftLeft_zero d
  | shr => exact BitVec.ushiftRight_zero d
  | sar => exact BitVec.sshiftRight_zero

-- a logical right shift clears the sign
theorem msb_result_shr {n : Nat} (d : BitVec n) {c : Nat} (hc : c ≠ 0) :
    (shr.result d c).msb = false := by
  show (d >>> c).msb = false
  rw [BitVec.msb_ushiftRight, decide_eq_true (Nat.pos_of_ne_zero hc), Bool.not_true,
    Bool.false_and]

end ShiftOp

/-! ## The flags of the shared helper -/

section Flags

variable {w : Width} (f : EFlags) (op : ShiftOp) (r : BitVec w.bits)

theorem getLsbD_widen {k : Nat} (hk : k < 8) : (op.widen r).getLsbD k = r.getLsbD k := by
  cases op with
  | shl | shr =>
      show (r.setWidth 32).getLsbD k = _
      rw [BitVec.getLsbD_setWidth, decide_eq_true (by omega), Bool.true_and]
  | sar =>
      exact getLsbD_signExtend_byte r hk

-- an update that finds its own flags
theorem updatePfZfSf_self {f : EFlags} {x : BitVec 32} (hPF : f.PF = (f.updatePfZfSf x).PF)
    (hZF : f.ZF = (f.updatePfZfSf x).ZF) (hSF : f.SF = (f.updatePfZfSf x).SF) :
    f.updatePfZfSf x = f := by
  obtain ⟨CF, PF, ZF, SF, DF, OF⟩ := f
  show EFlags.mk CF _ _ _ DF OF = EFlags.mk CF PF ZF SF DF OF
  rw [EFlags.mk.injEq]
  exact ⟨rfl, hPF.symm, hZF.symm, hSF.symm, rfl, rfl⟩

theorem widen_PF : (f.updatePfZfSf (op.widen r)).PF
    = ((r.getLsbD 0 ^^ r.getLsbD 2) ^^ (r.getLsbD 4 ^^ r.getLsbD 6)) := by
  rw [updatePfZfSf_PF, getLsbD_widen op r (by decide), getLsbD_widen op r (by decide),
    getLsbD_widen op r (by decide), getLsbD_widen op r (by decide)]

theorem setWidth_eq_zero_iff : r.setWidth 32 = 0 ↔ r = 0 := by
  apply Iff.intro
  · intro h
    rw [← setWidth_setWidth_bits r, h]
    exact BitVec.setWidth_zero ..
  · intro h
    rw [h]
    exact BitVec.setWidth_zero ..

theorem widen_ZF : (f.updatePfZfSf (op.widen r)).ZF = decide (r = 0) := by
  cases op with
  | shl | shr =>
      show (r.setWidth 32 == 0) = decide (r = 0)
      rw [Bool.eq_iff_iff, beq_iff_eq, decide_eq_true_eq, setWidth_eq_zero_iff]
  | sar => exact updatePfZfSf_ZF f r

/-- SF as it is stored: the sign, where it reaches bit 31. -/
theorem widen_SF : (f.updatePfZfSf (op.widen r)).SF
    = (decide (op = .sar ∨ w = .long) && r.msb) := by
  -- zero extension leaves bit 31 clear below 32 bits
  have hzero : (r.setWidth 32).msb = (decide (w = .long) && r.msb) := by
    cases w with
    | byte => exact (BitVec.msb_setWidth r).trans (BitVec.getLsbD_of_ge r 31 (by decide))
    | word => exact (BitVec.msb_setWidth r).trans (BitVec.getLsbD_of_ge r 31 (by decide))
    | long => exact congrArg BitVec.msb (BitVec.setWidth_eq r)
  cases op with
  | shl =>
      show (r.setWidth 32).msb = _
      rw [hzero]
      cases w <;> rfl
  | shr =>
      show (r.setWidth 32).msb = _
      rw [hzero]
      cases w <;> rfl
  | sar => exact updatePfZfSf_SF f r

/-- SF is right unless `shl` shifts a one into the sign of a narrow operand. -/
theorem widen_SF_iff (d : BitVec w.bits) {c : Nat} (hc : c ≠ 0) :
    (f.updatePfZfSf (op.widen (op.result d c))).SF = (op.result d c).msb ↔
      ¬ (op = .shl ∧ w ≠ .long ∧ d.getMsbD c = true) := by
  rw [widen_SF]
  cases op with
  | shl =>
      have hmsb : (ShiftOp.shl.result d c).msb = d.getMsbD c := BitVec.msb_shiftLeft
      rw [hmsb]
      cases w <;> cases d.getMsbD c <;> decide
  | shr =>
      rw [ShiftOp.msb_result_shr d hc, Bool.and_false]
      exact iff_of_true rfl (fun h => ShiftOp.noConfusion h.1)
  | sar =>
      rw [decide_eq_true (.inl rfl), Bool.true_and]
      exact iff_of_true rfl (fun h => ShiftOp.noConfusion h.1)

end Flags

/-! ## The count -/

/-- The decode helpers of the shifts. -/
inductive ShiftForm where
  | rm_1
  | rm_cl
  | rm_imm
deriving DecidableEq, Repr

namespace ShiftForm

def decode : ShiftForm → Width → Addr → EmuM Nat
  | rm_1 => decodeRm1
  | rm_cl => decodeRmCl
  | rm_imm => decodeRmImm

/-- The count byte of a shift whose operands are encoded from `b` on. -/
def count (s : Emu) (b : Addr) : ShiftForm → Nat
  | rm_1 => 1
  | rm_cl => (s.cpu.reg .byte R_CL).toNat
  | rm_imm => byteAt s.mem (b + BitVec.ofNat 32 (modrmLength s.mem b))

def len (s : Emu) (b : Addr) : ShiftForm → Nat
  | rm_1 | rm_cl => modrmLength s.mem b
  | rm_imm => modrmLength s.mem b + 1

-- a count byte survives the widths it is passed through
theorem toNat_setWidth_byte (w : Width) (v : BitVec 8) :
    ((v.setWidth 32).setWidth w.bits).toNat = v.toNat := by
  have hw : 2 ^ 8 ≤ 2 ^ w.bits := Nat.pow_le_pow_right Nat.two_pos w.le_bits
  have hv : v.toNat < 2 ^ w.bits := Nat.lt_of_lt_of_le v.isLt hw
  rw [BitVec.toNat_setWidth, BitVec.toNat_setWidth_of_le (by omega), Nat.mod_eq_of_lt hv]

theorem decode_run (f : ShiftForm) {w : Width} {s : Emu} {b : Addr} (hin : InRange b (f.len s b))
    (hacc : (rmLoc s.cpu.gpr s.mem b).Accessible w) :
    ∃ s₁, f.decode w b s = .ok (f.len s b, s₁) ∧ machine s₁ = machine s ∧
      Decoded w .dest (rmLoc s.cpu.gpr s.mem b) s s₁ ∧
      ((s₁.ops.get .src).val.setWidth w.bits).toNat = f.count s b := by
  have hne : OpSel.dest ≠ OpSel.src := OpSel.noConfusion
  cases f with
  | rm_1 =>
      obtain ⟨s₁, hrm, hmach, hd, -⟩ := decodeRmInternal_run hne hin hacc
      have hdec : decodeR2rm w b s = .ok (modrmLength s.mem b, s₁) := hrm
      refine ⟨valAt (locAt s₁ .src (.imm 1)) .src 1, ?_, ?_, ?_, ?_⟩
      · show decodeRm1 w b s = _
        rw [decodeRm1, run_bind_ok hdec]
        rfl
      · rw [machine_valAt, machine_locAt, hmach]
      · exact hd.of_kept (by rw [get_valAt_ne _ _ hne, get_locAt_ne _ _ hne])
      · rw [get_valAt]
        exact toNat_setWidth_byte w 1
  | rm_cl =>
      obtain ⟨s₁, hrm, hmach, hd, -⟩ := decodeRmInternal_run hne hin hacc
      have hcpu : s₁.cpu = s.cpu := congrArg Machine.cpu hmach
      have hdec : decodeR2rm w b s = .ok (modrmLength s.mem b, s₁) := hrm
      refine ⟨valAt (locAt s₁ .src (.reg R_CL)) .src ((s₁.cpu.reg .byte R_CL).setWidth 32),
        ?_, ?_, ?_, ?_⟩
      · show decodeRmCl w b s = _
        rw [decodeRmCl, run_bind_ok hdec, run_bind_ok (setLoc_locAt ..),
          run_bind_ok (readReg32_run ..)]
        rfl
      · rw [machine_valAt, machine_locAt, hmach]
      · exact hd.of_kept (by rw [get_valAt_ne _ _ hne, get_locAt_ne _ _ hne])
      · rw [get_valAt, hcpu]
        exact toNat_setWidth_byte w _
  | rm_imm =>
      obtain ⟨s₁, hrm, hmach₁, hd, -⟩ :=
        decodeRmInternal_run hne (hin.mono (Nat.le_add_right _ _)) hacc
      have hmem₁ : s₁.mem = s.mem := congrArg Machine.mem hmach₁
      have hdec : decodeR2rm w b s = .ok (modrmLength s.mem b, s₁) := hrm
      obtain ⟨s₂, himm, hmach₂, hl, hkeep⟩ := decodeI_decoded (w := .byte) (s := s₁)
        (hin.part (k := modrmLength s.mem b) (Nat.le_refl _))
      rw [hmem₁] at hl
      refine ⟨s₂, ?_, hmach₂.trans hmach₁, hd.of_kept (hkeep .dest hne), ?_⟩
      · show decodeRmImm w b s = _
        rw [decodeRmImm, run_bind_ok hdec, run_bind_ok himm, run_pure]
        rfl
      · rw [hl.val]
        exact (toNat_setWidth_byte w _).trans (congrArg BitVec.toNat (setWidth_load_one ..))

end ShiftForm

/-! ## Running an instruction -/

/-- The operand at `l` held `d` and was shifted by the masked count `c`; the flags are
    those of the result, and untouched if `c` is zero. -/
structure ShiftRight (op : ShiftOp) (w : Width) (l : OpLoc) (d : BitVec w.bits) (c : Nat)
    (s s' : Emu) : Prop where
  value : l.val w s' = op.result d c
  ZF : c ≠ 0 → s'.cpu.eflags.ZF = decide (op.result d c = 0)
  SF : c ≠ 0 → s'.cpu.eflags.SF = (op.result d c).msb
  flags : c = 0 → s'.cpu.eflags = s.cpu.eflags

/-- When the flags come out right: a count of zero has to find them as its update leaves
    them, another count must not shift a one into the sign of a narrow operand to the
    left. -/
def ShiftOk (op : ShiftOp) (w : Width) (d : BitVec w.bits) (c : Nat) (f : EFlags) : Prop :=
  if c = 0 then
    f.PF = ((d.getLsbD 0 ^^ d.getLsbD 2) ^^ (d.getLsbD 4 ^^ d.getLsbD 6)) ∧
      f.ZF = decide (d = 0) ∧ f.SF = (decide (op = .sar ∨ w = .long) && d.msb)
  else ¬ (op = .shl ∧ w ≠ .long ∧ d.getMsbD c = true)

section Run

variable {op : ShiftOp} {w : Width} {s s₁ : Emu} {l : OpLoc} {c : Nat}

/-- Any of the three bodies, with the operands decoded. -/
theorem ShiftOp.body_run (op : ShiftOp) (hd : Decoded w .dest l s s₁)
    (hc : ((s₁.ops.get .src).val.setWidth w.bits).toNat % 32 = c) (hacc : l.Accessible w)
    (hplace : l.IsPlace) :
    ∃ s', op.body w s₁ = .ok ((), s') ∧ l.val w s' = op.result (l.val w s) c ∧
      s'.cpu.eflags = s₁.cpu.eflags.updatePfZfSf (op.widen (op.result (l.val w s) c)) := by
  have hwrite := writeOperand_flags (s := s₁) hd.loc hd.size hacc hplace
    (op.result (l.val w s) c) (fun f => f.updatePfZfSf (op.widen (op.result (l.val w s) c)))
    (fun _ => rfl)
  cases op with
  | shl =>
      have hres : ((l.val w s).setWidth 32 <<< c).setWidth w.bits = l.val w s <<< c := by
        rw [BitVec.setWidth_shiftLeft_of_le w.bits_le, setWidth_setWidth_bits]
      show ∃ s', doShl w s₁ = _ ∧ _ ∧ _
      rw [doShl, run_bind_ok (getOp_run ..), run_bind_ok (getOp_run ..), hd.val]
      simp only [setWidth_setWidth_bits, hc, hres]
      exact hwrite
  | shr =>
      show ∃ s', doShr w s₁ = _ ∧ _ ∧ _
      rw [doShr, run_bind_ok (getOp_run ..), run_bind_ok (getOp_run ..), hd.val]
      simp only [setWidth_setWidth_bits, hc]
      exact hwrite
  | sar =>
      show ∃ s', doSar w s₁ = _ ∧ _ ∧ _
      rw [doSar, run_bind_ok (getOp_run ..), run_bind_ok (getOp_run ..), hd.val]
      simp only [setWidth_setWidth_bits, hc]
      exact hwrite

/-- A shift from its encoding on. -/
theorem shift_run (op : ShiftOp) (f : ShiftForm) {eip : Addr}
    (hin : InRange (eip + 1) (f.len s (eip + 1)))
    (hacc : (rmLoc s.cpu.gpr s.mem (eip + 1)).Accessible w) :
    ∃ n s', idex (f.decode w) (op.body w) eip s = .ok (n, s') ∧
      (rmLoc s.cpu.gpr s.mem (eip + 1)).val w s'
        = op.result ((rmLoc s.cpu.gpr s.mem (eip + 1)).val w s) (f.count s (eip + 1) % 32) ∧
      s'.cpu.eflags = s.cpu.eflags.updatePfZfSf (op.widen
        (op.result ((rmLoc s.cpu.gpr s.mem (eip + 1)).val w s) (f.count s (eip + 1) % 32))) := by
  obtain ⟨s₁, hdec, hmach, hd, hcount⟩ := f.decode_run hin hacc
  have hcpu : s₁.cpu = s.cpu := congrArg Machine.cpu hmach
  obtain ⟨s', hrun, hval, hflags⟩ := op.body_run hd (by rw [hcount]) hacc (rmLoc_isPlace ..)
  refine ⟨_, s', idex_run hdec hrun, hval, ?_⟩
  rw [hflags, hcpu]

/-- The flags left by the code are right exactly under `ShiftOk`. -/
theorem shiftRight_iff {d : BitVec w.bits} {s' : Emu} (hval : l.val w s' = op.result d c)
    (hflags : s'.cpu.eflags = s.cpu.eflags.updatePfZfSf (op.widen (op.result d c))) :
    ShiftRight op w l d c s s' ↔ ShiftOk op w d c s.cpu.eflags := by
  by_cases hc : c = 0
  · subst hc
    rw [op.result_zero] at hval hflags
    rw [ShiftOk, if_pos rfl]
    apply Iff.intro
    · intro h
      have hsame : s.cpu.eflags = s.cpu.eflags.updatePfZfSf (op.widen d) := by
        rw [← hflags]
        exact (h.flags rfl).symm
      refine ⟨?_, ?_, ?_⟩
      · rw [← widen_PF s.cpu.eflags op d, ← hsame]
      · rw [← widen_ZF s.cpu.eflags op d, ← hsame]
      · rw [← widen_SF s.cpu.eflags op d, ← hsame]
    · rintro ⟨hPF, hZF, hSF⟩
      refine ⟨?_, fun h => absurd rfl h, fun h => absurd rfl h, fun _ => ?_⟩
      · rw [op.result_zero]
        exact hval
      · -- the update stores what is there already
        rw [hflags]
        exact updatePfZfSf_self (hPF.trans (widen_PF _ op d).symm)
          (hZF.trans (widen_ZF _ op d).symm) (hSF.trans (widen_SF _ op d).symm)
  · rw [ShiftOk, if_neg hc, ← widen_SF_iff s.cpu.eflags op d hc, ← hflags]
    apply Iff.intro
    · exact fun h => h.SF hc
    · intro h
      refine ⟨hval, fun _ => ?_, fun _ => h, fun h0 => absurd h0 hc⟩
      rw [hflags]
      exact widen_ZF s.cpu.eflags op _

end Run

/-- Every shift stores the right value; its flags are right exactly under `ShiftOk`. -/
theorem shift_right_iff (op : ShiftOp) (f : ShiftForm) (w : Width) (s : Emu) (eip : Addr)
    (hin : InRange (eip + 1) (f.len s (eip + 1)))
    (hacc : (rmLoc s.cpu.gpr s.mem (eip + 1)).Accessible w) :
    ∃ n s', idex (f.decode w) (op.body w) eip s = .ok (n, s') ∧
      (ShiftRight op w (rmLoc s.cpu.gpr s.mem (eip + 1))
          ((rmLoc s.cpu.gpr s.mem (eip + 1)).val w s) (f.count s (eip + 1) % 32) s s' ↔
        ShiftOk op w ((rmLoc s.cpu.gpr s.mem (eip + 1)).val w s) (f.count s (eip + 1) % 32)
          s.cpu.eflags) := by
  obtain ⟨n, s', hrun, hval, hflags⟩ := shift_run op f hin hacc
  exact ⟨n, s', hrun, shiftRight_iff hval hflags⟩

-- `sarw %ax` with AX = 0x8000
theorem shift_right_iff_sarw :
    let s : Emu := { Emu.zeroed (fun i => [0xd1, 0xf8].getD i 0) with
      cpu := { (Emu.zeroed fun _ => 0).cpu with gpr := fun _ => 0x8000 } }
    ∃ n s', idex (ShiftForm.rm_1.decode .word) (ShiftOp.sar.body .word) 0 s = .ok (n, s') ∧
      (ShiftRight .sar .word (rmLoc s.cpu.gpr s.mem 1) ((rmLoc s.cpu.gpr s.mem 1).val .word s)
          1 s s' ↔
        ShiftOk .sar .word ((rmLoc s.cpu.gpr s.mem 1).val .word s) 1 s.cpu.eflags) := by
  intro s
  exact shift_right_iff .sar .rm_1 .word s 0 (by decide) (by decide)

/-- `shlw $1,%ax` with AX = 0x4000 leaves SF clear, though bit 15 of the result is set. -/
theorem shlw_sign_wrong :
    ¬ ∀ (op : ShiftOp) (f : ShiftForm) (w : Width) (s : Emu) (eip : Addr), w ≠ .byte →
      InRange (eip + 1) (f.len s (eip + 1)) →
      (rmLoc s.cpu.gpr s.mem (eip + 1)).Accessible w →
      ∃ n s', idex (f.decode w) (op.body w) eip s = .ok (n, s') ∧
        ShiftRight op w (rmLoc s.cpu.gpr s.mem (eip + 1))
          ((rmLoc s.cpu.gpr s.mem (eip + 1)).val w s) (f.count s (eip + 1) % 32) s s' := by
  intro h
  let s : Emu := { Emu.zeroed (fun i => [0xc1, 0xe0, 0x01].getD i 0) with
    cpu := { (Emu.zeroed fun _ => 0).cpu with gpr := fun _ => 0x4000 } }
  have hin : InRange (0 + 1) (ShiftForm.rm_imm.len s (0 + 1)) := by decide
  have hacc : (rmLoc s.cpu.gpr s.mem (0 + 1)).Accessible .word := by decide
  obtain ⟨n, s', hrun, hright⟩ := h .shl .rm_imm .word s 0 Width.noConfusion hin hacc
  obtain ⟨n', s'', hrun', hval, hflags⟩ := shift_run .shl .rm_imm hin hacc
  have hsame : s' = s'' := congrArg Prod.snd (Except.ok.inj (hrun.symm.trans hrun'))
  rw [hsame] at hright
  have hok := (shiftRight_iff hval hflags).mp hright
  have hcount : ShiftForm.rm_imm.count s (0 + 1) % 32 ≠ 0 := by decide
  rw [ShiftOk, if_neg hcount] at hok
  exact hok ⟨rfl, Width.noConfusion, by decide⟩

end Nemu
