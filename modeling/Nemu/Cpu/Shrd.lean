/-
  Nemu.Cpu.Shrd

  `shrd`: a word is shifted right and filled up from a register.

  The loop of the template moves one bit in each turn.  What it keeps is the double word
  register:destination less the bits that have left it, so that after all turns the
  destination is the low half of one wide shift.  This holds for every count, also one
  above the operand size, where the register runs out of bits and zeroes follow.
-/

import Nemu.Cpu.Operand
import Nemu.Cpu.Exec.Logic

namespace Nemu

open Outcome FlatMem I386 Emu

/-! ## The loop -/

section Loop

variable {n : Nat} (inp out : BitVec n)

/-- One turn of the loop shifts the double word by one. -/
theorem double_shift_one :
    (inp >>> 1) ++ ((out >>> 1) ||| ((inp &&& 1#n) <<< (n - 1))) = (inp ++ out) >>> 1 := by
  refine BitVec.eq_of_getLsbD_eq (fun b _ => ?_)
  rw [BitVec.getLsbD_ushiftRight, BitVec.getLsbD_append, BitVec.getLsbD_append, BitVec.getLsbD_or,
    BitVec.getLsbD_ushiftRight, BitVec.getLsbD_ushiftRight, BitVec.getLsbD_shiftLeft,
    BitVec.getLsbD_and, BitVec.getLsbD_one]
  by_cases hlow : 1 + b < n
  · -- below the top of the lower word
    have hlow' : b < n := by omega
    have htop : b < n - 1 := by omega
    simp [hlow, hlow', htop]
  · by_cases htop : b < n
    · -- the top bit comes from the upper word
      have hb : b = n - 1 := by omega
      subst hb
      have hzero : 1 + (n - 1) - n = 0 := by omega
      have hout : out.getLsbD (1 + (n - 1)) = false := BitVec.getLsbD_of_ge out _ (by omega)
      simp [hlow, htop, hzero, hout, Nat.pos_of_ne_zero (by omega : n ≠ 0)]
    · have hsub : 1 + b - n = 1 + (b - n) := by omega
      rw [if_neg htop, if_neg hlow, hsub]

/-- After `count` turns the lower word is that of the shifted double word. -/
theorem shrdLoop_eq (count : Nat) :
    shrdLoop count inp out = ((inp ++ out) >>> count).setWidth n := by
  induction count generalizing inp out with
  | zero =>
      rw [BitVec.ushiftRight_zero]
      refine BitVec.eq_of_getLsbD_eq (fun b hb => ?_)
      rw [BitVec.getLsbD_setWidth, BitVec.getLsbD_append, if_pos hb, decide_eq_true hb, Bool.true_and]
      rfl
  | succ count ih =>
      show shrdLoop count (inp >>> 1) _ = _
      rw [ih, double_shift_one, ← BitVec.shiftRight_add, Nat.add_comm 1 count]

end Loop

/-! ## The instruction -/

section Run

variable {w : Width} {s s₁ : Emu} {i : RegIdx} {l : OpLoc}

-- a register is read back unless the write was to the register itself
theorem Writes.reg_kept (hw : w ≠ .byte) {v : BitVec w.bits} {s' : Emu} (h : Writes w l v s s')
    (hne : l ≠ .reg i) : (OpLoc.reg i).val w s' = (OpLoc.reg i).val w s := by
  have hhome : ∀ j, regHome w j = j := by
    cases w with
    | byte => exact absurd rfl hw
    | word => exact fun _ => rfl
    | long => exact fun _ => rfl
  refine BitVec.eq_of_getLsbD_eq (fun b hb => ?_)
  show (s'.cpu.reg w i).getLsbD b = (s.cpu.reg w i).getLsbD b
  rw [getLsbD_reg, getLsbD_reg, h.regs]
  intro hbit
  cases l with
  | reg j =>
      have hij : regHome w i = regHome w j := hbit.1
      rw [hhome, hhome] at hij
      exact hne (congrArg OpLoc.reg hij.symm)
  | mem a => exact hbit
  | imm x => exact hbit

-- `uint8_t count` does not lose any of the bits the mask keeps
theorem count_mask (v : Nat) : v % 256 % 32 = v % 32 := Nat.mod_mod_of_dvd v (by decide)

/-- **Double shift.** For every register and destination, aliased or not, and every count,
    `shrd` stores the low word of register:destination shifted right by the count modulo 32.
    Nothing but the destination changes, so the register stays unless it is the destination. -/
theorem doShrd_right (hw : w ≠ .byte) (hmach : machine s₁ = machine s)
    (hreg : Decoded w .dest (.reg i) s s₁) (hdest : Decoded w .src2 l s s₁)
    (hacc : l.Accessible w) (hplace : l.IsPlace) :
    ∃ s', doShrd w s₁ = .ok ((), s') ∧
      Writes w l ((((OpLoc.reg i).val w s ++ l.val w s) >>>
        ((s₁.ops.get .src).val.toNat % 32)).setWidth w.bits) s s' ∧
      s'.ops = s₁.ops ∧ (l ≠ .reg i → (OpLoc.reg i).val w s' = (OpLoc.reg i).val w s) := by
  generalize hv : (((OpLoc.reg i).val w s ++ l.val w s) >>>
    ((s₁.ops.get .src).val.toNat % 32)).setWidth w.bits = v
  have hput := writeOperand_put (s := s₁) hdest.loc hdest.size hacc hplace v
  have hwrites : Writes w l v s (l.put w v s₁) :=
    (OpLoc.put_writes hplace v s₁).of_machine (congrArg Machine.cpu hmach)
      (congrArg Machine.mem hmach) (congrArg Machine.nemuState hmach) rfl rfl rfl
  refine ⟨l.put w v s₁, ?_, hwrites, ?_, hwrites.reg_kept hw⟩
  · rw [doShrd, run_bind_ok (getOp_run ..), run_bind_ok (getOp_run ..),
      run_bind_ok (getOp_run ..), hreg.val, hdest.val]
    simp only [setWidth_setWidth_bits, count_mask, shrdLoop_eq, hv]
    exact hput
  · cases l <;> rfl

-- `shrd $4,%eax,%ebx`, decoded
theorem doShrd_right_long :
    let s : Emu := { Emu.zeroed (fun _ => 0) with
      cpu := { (Emu.zeroed fun _ => 0).cpu with
        gpr := fun i => if i = R_EAX then 0x1 else 0x80000000 }
      ops := { (Emu.zeroed fun _ => 0).ops with
        dest := { loc := .reg R_EAX, size := 4, val := 0x1 }
        src2 := { loc := .reg R_EBX, size := 4, val := 0x80000000 }
        src := { loc := .imm 4, size := 1, val := 4 } } }
    ∃ s', doShrd .long s = .ok ((), s') ∧
      Writes .long (.reg R_EBX) 0x18000000#32 s s' ∧ s'.ops = s.ops ∧
      (OpLoc.reg R_EBX ≠ .reg R_EAX →
        (OpLoc.reg R_EAX).val .long s' = (OpLoc.reg R_EAX).val .long s) := by
  intro s
  have hreg : Decoded .long .dest (.reg R_EAX) s s :=
    ⟨rfl, by decide, fun _ h => OpLoc.noConfusion h⟩
  have hdest : Decoded .long .src2 (.reg R_EBX) s s :=
    ⟨rfl, by decide, fun _ h => OpLoc.noConfusion h⟩
  have hin : (OpLoc.reg R_EAX).val .long s = 0x1#32 := rfl
  have hout : (OpLoc.reg R_EBX).val .long s = 0x80000000#32 := rfl
  have hcount : (s.ops.get .src).val.toNat = 4 := rfl
  have hval : ((0x1#32 ++ 0x80000000#32) >>> (4 % 32)).setWidth 32 = 0x18000000#32 := by decide
  have hrun := doShrd_right (by decide) rfl hreg hdest trivial trivial
  rw [hin, hout, hcount] at hrun
  exact hval ▸ hrun

/-- The instruction itself never gets there: `decode_si` panics. -/
theorem shrdi_stops (w : Width) (eip : Addr) (s : Emu) (r : Nat × Emu) :
    shrdi w eip s ≠ .ok r := by
  intro h
  obtain ⟨len, s₁, hdec, -⟩ := run_bind_eq_ok.mp h
  exact decodeSiRm2r_stops _ _ _ _ hdec

end Run

end Nemu
