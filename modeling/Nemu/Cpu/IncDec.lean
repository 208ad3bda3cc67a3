/-
  Nemu.Cpu.IncDec

  `inc` and `dec` at the widths 8, 16 and 32.

  Both templates compare their result with a 32-bit constant, so the overflow flag is
  right for 32-bit operands and is never set for the others.
-/

import Nemu.Cpu.Operand
import Nemu.Cpu.Exec.Arith

namespace Nemu

open Outcome FlatMem I386 Emu

/-! ## The two operations -/

inductive CountOp where
  | inc
  | dec
deriving DecidableEq, Repr

namespace CountOp

def body : CountOp → Width → EmuM Unit
  | inc => doInc
  | dec => doDec

def result {n : Nat} (v : BitVec n) : CountOp → BitVec n
  | inc => v + 1
  | dec => v - 1

/-- The value that overflows: the largest for `inc`, the smallest for `dec`. -/
def limit (n : Nat) : CountOp → BitVec n
  | inc => BitVec.intMax n
  | dec => BitVec.intMin n

-- the constant the template compares its result with
def constant : CountOp → BitVec 32
  | inc => 0x80000000
  | dec => 0x7fffffff

/-- The operation leaves the range of the signed `n`-bit numbers. -/
def overflows {n : Nat} (v : BitVec n) : CountOp → Bool
  | inc => v.saddOverflow 1
  | dec => v.ssubOverflow 1

theorem overflows_eq {n : Nat} (op : CountOp) (hn : 1 < n) (v : BitVec n) :
    op.overflows v = decide (v = op.limit n) := by
  have hone : (1 : BitVec n).toInt = 1 := BitVec.toInt_one hn
  have hlt : v.toInt < 2 ^ (n - 1) := BitVec.toInt_lt
  have hle : -2 ^ (n - 1) ≤ v.toInt := BitVec.le_toInt v
  have hpos : (0 : Int) < 2 ^ (n - 1) := Int.pow_pos (by decide)
  rw [Bool.eq_iff_iff, decide_eq_true_eq]
  cases op with
  | inc =>
      show v.saddOverflow 1 = true ↔ v = BitVec.intMax n
      rw [BitVec.saddOverflow, ← BitVec.toInt_inj, BitVec.toInt_intMax, hone, Bool.or_eq_true,
        decide_eq_true_eq, decide_eq_true_eq]
      omega
  | dec =>
      show v.ssubOverflow 1 = true ↔ v = BitVec.intMin n
      have hmin : (BitVec.intMin n).toInt = -2 ^ (n - 1) := by
        have hpow : 2 ^ (n - 1) < 2 ^ n := Nat.pow_lt_pow_right (by decide) (by omega)
        rw [BitVec.toInt_intMin, Nat.mod_eq_of_lt hpow]
        exact congrArg Neg.neg (Int.natCast_pow 2 (n - 1))
      rw [BitVec.ssubOverflow, ← BitVec.toInt_inj, hmin, hone, Bool.or_eq_true,
        decide_eq_true_eq, decide_eq_true_eq]
      omega

end CountOp

/-- The operand at `l`, which held `v`, was counted up or down, with the flags of the
    `n`-bit operation. -/
structure CountRight (op : CountOp) (w : Width) (l : OpLoc) (v : BitVec w.bits) (s s' : Emu) :
    Prop where
  value : l.val w s' = op.result v
  CF : s'.cpu.eflags.CF = s.cpu.eflags.CF
  ZF : s'.cpu.eflags.ZF = decide (op.result v = 0)
  SF : s'.cpu.eflags.SF = (op.result v).msb
  OF : s'.cpu.eflags.OF = op.overflows v

/-! ## Running an instruction -/

-- the flags both templates leave
def EFlags.counted (f : EFlags) (r : BitVec 32) (overflow : Bool) : EFlags :=
  { f.updatePfZfSf r with OF := overflow }

section Run

variable {op : CountOp} {w : Width} {s s₁ : Emu} {l : OpLoc}

-- an operation on zero-extended operands, cut back
theorem CountOp.setWidth_result (v : BitVec w.bits) :
    (op.result (v.setWidth 32)).setWidth w.bits = op.result v := by
  cases op with
  | inc =>
      show (v.setWidth 32 + 1).setWidth w.bits = v + 1
      rw [BitVec.setWidth_add _ _ w.bits_le, setWidth_setWidth_bits]
      cases w <;> rfl
  | dec =>
      show (v.setWidth 32 - 1).setWidth w.bits = v - 1
      rw [setWidth_sub_bits, setWidth_setWidth_bits]
      cases w <;> rfl

theorem CountOp.body_run (hl : Decoded w .src l s s₁) (hacc : l.Accessible w) (hplace : l.IsPlace) :
    ∃ s', op.body w s₁ = .ok ((), s') ∧ l.val w s' = op.result (l.val w s) ∧
      s'.cpu.eflags = s₁.cpu.eflags.counted ((op.result (l.val w s)).signExtend 32)
        ((op.result (l.val w s)).setWidth 32 == op.constant) := by
  have hwrite := writeOperand_flags (s := s₁) hl.loc hl.size hacc hplace (op.result (l.val w s))
    (fun f => f.counted ((op.result (l.val w s)).signExtend 32)
      ((op.result (l.val w s)).setWidth 32 == op.constant)) (fun _ => rfl)
  have hresult := op.setWidth_result (l.val w s)
  cases op with
  | inc =>
      show ∃ s', doInc w s₁ = _ ∧ _ ∧ _
      have hinc : ((l.val w s).setWidth 32 + 1).setWidth w.bits = _ := hresult
      rw [doInc, run_bind_ok (getOp_run ..), hl.val, hinc]
      exact hwrite
  | dec =>
      show ∃ s', doDec w s₁ = _ ∧ _ ∧ _
      have hdec : ((l.val w s).setWidth 32 - 1).setWidth w.bits = _ := hresult
      rw [doDec, run_bind_ok (getOp_run ..), hl.val, hdec]
      exact hwrite

/-- An instruction on an operand in a register or in memory, from its encoding on. -/
theorem count_run (op : CountOp) (f : OneOp) {eip : Addr}
    (hin : Covers (eip + 1) (f.len s (eip + 1))) (hacc : (f.loc s (eip + 1)).Accessible w) :
    ∃ n s', idex (f.decode w) (op.body w) eip s = .ok (n, s') ∧
      (f.loc s (eip + 1)).val w s' = op.result ((f.loc s (eip + 1)).val w s) ∧
      s'.cpu.eflags = s.cpu.eflags.counted
        ((op.result ((f.loc s (eip + 1)).val w s)).signExtend 32)
        ((op.result ((f.loc s (eip + 1)).val w s)).setWidth 32 == op.constant) := by
  obtain ⟨s₁, hdec, hmach, hl⟩ := f.decode_run hin hacc
  have hcpu : s₁.cpu = s.cpu := congrArg Machine.cpu hmach
  obtain ⟨s', hrun, hval, hflags⟩ := op.body_run hl hacc (f.loc_isPlace s (eip + 1))
  refine ⟨_, s', idex_run hdec hrun, hval, ?_⟩
  rw [hflags, hcpu]

end Run

/-! ## The overflow flag -/

section Overflow

variable {op : CountOp} {w : Width} {v : BitVec w.bits}

-- a result of 8 or 16 bits is neither of the two constants
theorem narrow_ne_constant (hw : w ≠ .long) (r : BitVec w.bits) :
    (r.setWidth 32 == op.constant) = false := by
  have hle : 2 ^ w.bits ≤ 2 ^ 16 := by
    cases w with
    | byte => decide
    | word => decide
    | long => exact absurd rfl hw
  have hlt := Nat.lt_of_lt_of_le r.isLt hle
  have hconst : 2 ^ 16 ≤ op.constant.toNat := by cases op <;> decide
  rw [beq_eq_false_iff_ne]
  intro heq
  have hnat := congrArg BitVec.toNat heq
  rw [BitVec.toNat_setWidth, Nat.mod_eq_of_lt (Nat.lt_trans hlt (by decide))] at hnat
  omega

-- the 32-bit result is the constant for the value that overflows, and for no other
theorem long_eq_constant (v : BitVec 32) :
    (op.result v == op.constant) = decide (v = op.limit 32) := by
  rw [Bool.eq_iff_iff, beq_iff_eq, decide_eq_true_eq]
  cases op with
  | inc =>
      have hlimit : BitVec.intMax 32 = 0x80000000#32 - 1 := by decide
      show v + 1 = 0x80000000#32 ↔ v = BitVec.intMax 32
      rw [hlimit, BitVec.eq_sub_iff_add_eq]
  | dec =>
      have hlimit : BitVec.intMin 32 = 0x7fffffff#32 + 1 := by decide
      show v - 1 = 0x7fffffff#32 ↔ v = BitVec.intMin 32
      rw [hlimit, BitVec.sub_eq_iff_eq_add]

/-- OF as it is stored is right for 32-bit operands and for values that do not overflow. -/
theorem constant_iff : ((op.result v).setWidth 32 == op.constant) = op.overflows v ↔
    w = .long ∨ v ≠ op.limit w.bits := by
  have hw : 1 < w.bits := by cases w <;> decide
  rw [op.overflows_eq hw]
  by_cases hl : w = .long
  · subst hl
    have hres : (op.result v).setWidth 32 = op.result v := BitVec.setWidth_eq _
    rw [hres]
    exact iff_of_true (long_eq_constant v) (.inl rfl)
  · rw [narrow_ne_constant hl, eq_comm, decide_eq_false_iff_not]
    exact ⟨.inr, fun h => h.resolve_left hl⟩

theorem countRight_iff {l : OpLoc} {s s' : Emu} (hval : l.val w s' = op.result v)
    (hflags : s'.cpu.eflags = s.cpu.eflags.counted ((op.result v).signExtend 32)
      ((op.result v).setWidth 32 == op.constant)) :
    CountRight op w l v s s' ↔ w = .long ∨ v ≠ op.limit w.bits := by
  have hOF : s'.cpu.eflags.OF = ((op.result v).setWidth 32 == op.constant) :=
    congrArg (fun g => g.OF) hflags
  rw [← constant_iff, ← hOF]
  apply Iff.intro
  · exact fun h => h.OF
  · intro h
    refine ⟨hval, ?_, ?_, ?_, h⟩
    · rw [hflags]
      rfl
    · rw [hflags]
      exact updatePfZfSf_ZF s.cpu.eflags _
    · rw [hflags]
      exact updatePfZfSf_SF s.cpu.eflags _

end Overflow

/-- `inc` and `dec` are right in their result and all their flags exactly when the operand
    is 32 bits wide or the operation does not overflow. -/
theorem count_right_iff (op : CountOp) (f : OneOp) (w : Width) (s : Emu) (eip : Addr)
    (hin : Covers (eip + 1) (f.len s (eip + 1))) (hacc : (f.loc s (eip + 1)).Accessible w) :
    ∃ n s', idex (f.decode w) (op.body w) eip s = .ok (n, s') ∧
      (CountRight op w (f.loc s (eip + 1)) ((f.loc s (eip + 1)).val w s) s s' ↔
        w = .long ∨ (f.loc s (eip + 1)).val w s ≠ op.limit w.bits) := by
  obtain ⟨n, s', hrun, hval, hflags⟩ := count_run op f hin hacc
  exact ⟨n, s', hrun, countRight_iff hval hflags⟩

-- `incw %ax` with AX = 5
theorem count_right_iff_five :
    let s : Emu := { Emu.zeroed (fun i => [0x40].getD i 0) with
      cpu := { (Emu.zeroed fun _ => 0).cpu with gpr := fun _ => 5 } }
    ∃ n s', idex (OneOp.r.decode .word) (CountOp.inc.body .word) 0 s = .ok (n, s') ∧
      (CountRight .inc .word (.reg 0) 5 s s' ↔ Width.word = .long ∨ (5 : BitVec 16) ≠ 0x7fff) := by
  intro s
  exact count_right_iff .inc .r .word s 0 (.inl rfl) trivial

/-- `incw %ax` with AX = 0x7fff leaves OF clear. -/
theorem incw_overflow_wrong :
    ¬ ∀ (op : CountOp) (f : OneOp) (w : Width) (s : Emu) (eip : Addr),
      Covers (eip + 1) (f.len s (eip + 1)) → (f.loc s (eip + 1)).Accessible w →
      ∃ n s', idex (f.decode w) (op.body w) eip s = .ok (n, s') ∧
        CountRight op w (f.loc s (eip + 1)) ((f.loc s (eip + 1)).val w s) s s' := by
  intro h
  let s : Emu := { Emu.zeroed (fun i => [0x40].getD i 0) with
    cpu := { (Emu.zeroed fun _ => 0).cpu with gpr := fun _ => 0x7fff } }
  have hin : Covers (0 + 1) (OneOp.r.len s (0 + 1)) := .inl rfl
  have hacc : (OneOp.r.loc s (0 + 1)).Accessible .word := trivial
  obtain ⟨n, s', hrun, hright⟩ := h .inc .r .word s 0 hin hacc
  obtain ⟨n', s'', hrun', hval, hflags⟩ := count_run .inc .r hin hacc
  have hsame : s' = s'' := congrArg Prod.snd (Except.ok.inj (hrun.symm.trans hrun'))
  rw [hsame] at hright
  rcases (countRight_iff hval hflags).mp hright with hlong | hne
  · exact Width.noConfusion hlong
  · exact hne (by decide)

end Nemu
