/-
  Nemu.Cpu.CmpJump

  `cmp` followed by a conditional jump.  `cmp` leaves the flags of the
  difference; each jump template tests its own combination of them.  The two
  meet in `test_cmpFlags`: after `cmp` of `a` and `b` a jump is taken exactly when
  its relation holds between `a` and `b`, with one exception.  `do_jbe` asks for
  `ZF` and `CF` together where it needs one of them, and after a `cmp` they are
  never both set.
-/

import Nemu.Cpu.Exec.Control
import Nemu.Cpu.Exec.Arith
import Nemu.Lib.MultiLimb

namespace Nemu

open Outcome

/-! ## The relations the jumps are named after -/

/-- The relation between destination `a` and source `b` that a jump after `cmp`
    stands for. -/
def Jcc.Holds {n : Nat} (a b : BitVec n) : Jcc → Prop
  | .je => a = b
  | .jne => a ≠ b
  | .ja => b < a
  | .jbe => a ≤ b
  | .jg => b.toInt < a.toInt
  | .jge => b.toInt ≤ a.toInt
  | .jl => a.toInt < b.toInt
  | .jle => a.toInt ≤ b.toInt
  | .js => (a - b).msb = true
  | .jns => (a - b).msb = false

instance {n : Nat} (a b : BitVec n) : (j : Jcc) → Decidable (j.Holds a b)
  | .je => inferInstanceAs (Decidable (a = b))
  | .jne => inferInstanceAs (Decidable (a ≠ b))
  | .ja => inferInstanceAs (Decidable (b < a))
  | .jbe => inferInstanceAs (Decidable (a ≤ b))
  | .jg => inferInstanceAs (Decidable (b.toInt < a.toInt))
  | .jge => inferInstanceAs (Decidable (b.toInt ≤ a.toInt))
  | .jl => inferInstanceAs (Decidable (a.toInt < b.toInt))
  | .jle => inferInstanceAs (Decidable (a.toInt ≤ b.toInt))
  | .js => inferInstanceAs (Decidable ((a - b).msb = true))
  | .jns => inferInstanceAs (Decidable ((a - b).msb = false))

/-! ## The flags of a difference -/

/-- The flags `cmp` leaves for operand values `dest` and `src`. -/
def cmpFlags (w : Width) (dest src : BitVec 32) (f : EFlags) : EFlags :=
  let result : BitVec w.bits := (dest - src).setWidth w.bits
  { f.updatePfZfSf (result.signExtend 32) with
    CF := decide (dest < result.setWidth 32)
    OF := msbOf w ((dest ^^^ src) &&& (dest ^^^ result.setWidth 32)) }

section Flags

variable {w : Width} (a b : BitVec w.bits) (f : EFlags)

theorem cmpFlags_ZF : (cmpFlags w (a.setWidth 32) (b.setWidth 32) f).ZF = decide (a = b) := by
  have hzero : a - b = 0 ↔ a = b := by
    rw [BitVec.sub_eq_iff_eq_add]
    simp
  simp only [cmpFlags, sub_setWidth, updatePfZfSf_ZF, hzero]

theorem cmpFlags_SF : (cmpFlags w (a.setWidth 32) (b.setWidth 32) f).SF = (a - b).msb := by
  simp only [cmpFlags, sub_setWidth, updatePfZfSf_SF]

theorem cmpFlags_CF : (cmpFlags w (a.setWidth 32) (b.setWidth 32) f).CF = decide (a < b) := by
  simp only [cmpFlags, sub_setWidth, setWidth_lt_iff, MultiLimb.lt_sub_iff]

theorem cmpFlags_OF : (cmpFlags w (a.setWidth 32) (b.setWidth 32) f).OF
    = ((a.msb ^^ b.msb) && (a.msb ^^ (a - b).msb)) := by
  rw [cmpFlags, sub_setWidth, msbOf_otherSign]

/-- Sign and overflow of the difference decide the signed comparison. -/
theorem cmpFlags_slt :
    ((cmpFlags w (a.setWidth 32) (b.setWidth 32) f).SF
        != (cmpFlags w (a.setWidth 32) (b.setWidth 32) f).OF) = decide (a.toInt < b.toInt) := by
  rw [cmpFlags_SF, cmpFlags_OF, ← MultiLimb.slt_eq_sub_flags, Bool.eq_iff_iff,
    BitVec.slt_iff_toInt_lt, decide_eq_true_eq]

/-! ## Flag production meets flag consumption -/

/-- After `cmp`, every jump but `jbe` tests exactly its relation. -/
theorem test_cmpFlags (j : Jcc) (hj : j ≠ .jbe) :
    j.test (cmpFlags w (a.setWidth 32) (b.setWidth 32) f) = decide (j.Holds a b) := by
  have hZ := cmpFlags_ZF a b f
  have hC := cmpFlags_CF a b f
  have hS := cmpFlags_SF a b f
  have hL := cmpFlags_slt a b f
  generalize cmpFlags w (a.setWidth 32) (b.setWidth 32) f = fl at hZ hC hS hL
  have hinj : a = b ↔ a.toInt = b.toInt := BitVec.toInt_inj.symm
  have hnat : a = b ↔ a.toNat = b.toNat := BitVec.toNat_inj.symm
  rw [Bool.eq_iff_iff, decide_eq_true_eq]
  cases j with
  | je => simp [Jcc.test, Jcc.Holds, hZ]
  | jne => simp [Jcc.test, Jcc.Holds, hZ]
  | ja =>
      simp only [Jcc.test, Jcc.Holds, hZ, hC, hnat, BitVec.lt_def, Bool.and_eq_true, beq_iff_eq,
        decide_eq_false_iff_not]
      omega
  | jbe => exact absurd rfl hj
  | jg =>
      have heq : (fl.SF == fl.OF) = !decide (a.toInt < b.toInt) := by
        rw [← hL, bne, Bool.not_not]
      simp only [Jcc.test, Jcc.Holds, hZ, heq, hinj, Bool.and_eq_true, beq_iff_eq,
        decide_eq_false_iff_not, Bool.not_eq_true', decide_eq_false_iff_not]
      omega
  | jge =>
      have heq : (fl.SF == fl.OF) = !decide (a.toInt < b.toInt) := by
        rw [← hL, bne, Bool.not_not]
      simp only [Jcc.test, Jcc.Holds, heq, Bool.not_eq_true', decide_eq_false_iff_not]
      omega
  | jl => simp only [Jcc.test, Jcc.Holds, hL, decide_eq_true_eq]
  | jle =>
      simp only [Jcc.test, Jcc.Holds, hL, hZ, hinj, Bool.or_eq_true, decide_eq_true_eq,
        beq_iff_eq]
      omega
  | js => simp [Jcc.test, Jcc.Holds, hS]
  | jns => simp [Jcc.test, Jcc.Holds, hS]

/-- After `cmp`, `do_jbe` never jumps: equal operands do not borrow. -/
theorem jbe_test_cmpFlags :
    Jcc.jbe.test (cmpFlags w (a.setWidth 32) (b.setWidth 32) f) = false := by
  rw [Jcc.test, cmpFlags_ZF, cmpFlags_CF]
  by_cases h : a = b
  · subst h
    simp
  · simp [h]

end Flags

namespace Emu

/-! ## The two instructions -/

-- the state `do_cmp` leaves: other flags and nothing else
def afterCmp (w : Width) (s : Emu) : Emu :=
  { s with
    cpu := { s.cpu with eflags := cmpFlags w s.ops.dest.val s.ops.src.val s.cpu.eflags } }

theorem doCmp_run (w : Width) (s : Emu) : doCmp w s = .ok ((), afterCmp w s) := rfl

/-- A jump helper fetches its displacement and adds it to EIP if its test says so. -/
theorem jccI_run (j : Jcc) (w : Width) (eip : Addr) {s : Emu} {d : BitVec w.bits}
    (hd : s.mem.read (eip + 1) w.bytes = .ok (d.setWidth 32)) :
    ∃ s', jccI j w eip s = .ok (w.bytes + 1, s') ∧
      s'.cpu.eip = if j.test s.cpu.eflags then s.cpu.eip + d.signExtend 32 else s.cpu.eip := by
  obtain ⟨s₁, hdec, hval, hcpu, -⟩ := decodeI_run hd
  have hidex : jccI j w eip s = (doJcc j w s₁ >>= fun p => .ok (w.bytes + 1, p.2)) := by
    rw [jccI, idex, run_bind_ok hdec, run_bind]
    rfl
  have hsrc : s₁.ops.get .src = s₁.ops.src := rfl
  rw [hidex, doJcc, run_bind_ok (getOp_run ..), hsrc, hval, setWidth_setWidth_bits,
    run_bind_ok (getCpu_run _), hcpu]
  by_cases ht : j.test s.cpu.eflags
  · rw [if_pos ht, setEip_run, ok_bind]
    exact ⟨_, rfl, by rw [if_pos ht]⟩
  · rw [if_neg ht, run_pure, ok_bind]
    exact ⟨_, rfl, by rw [if_neg ht, hcpu]⟩

-- one is to be compared with one; the byte at address 1 is a displacement of two
def cmpOneOne : Emu :=
  let s := Emu.zeroed fun i => if i = 1 then 2 else 0
  let one : Operand := { loc := .imm 1, size := 1, val := 1 }
  { s with ops := { s.ops with dest := one, src := one } }

/-- The helper of jump `j`, run in `s` at `eip`, completes and adds `d` to EIP exactly
    when the relation of `j` holds between `a` and `b`. -/
def JumpsAsNamed {n : Nat} (j : Jcc) (w : Width) (a b : BitVec n) (d : BitVec w.bits)
    (eip : Addr) (s : Emu) : Prop :=
  ∃ s', jccI j w eip s = .ok (w.bytes + 1, s') ∧
    s'.cpu.eip = if j.Holds a b then s.cpu.eip + d.signExtend 32 else s.cpu.eip

/-- After `cmp` of `a` and `b` every conditional jump does what its name says, except
    that `jbe` falls through when it should jump by a nonzero displacement. -/
theorem jcc_after_cmp_iff (j : Jcc) (w w' : Width) (a b : BitVec w.bits) (d : BitVec w'.bits)
    (eip : Addr) (s s₁ s₂ : Emu)
    (hdest : s.ops.dest.val = a.setWidth 32) (hsrc : s.ops.src.val = b.setWidth 32)
    (hcmp : doCmp w s = .ok ((), s₁)) (hflags : s₂.cpu.eflags = s₁.cpu.eflags)
    (hd : s₂.mem.read (eip + 1) w'.bytes = .ok (d.setWidth 32)) :
    JumpsAsNamed j w' a b d eip s₂ ↔ (j ≠ .jbe ∨ b < a ∨ d = 0) := by
  have hfl : s₂.cpu.eflags = cmpFlags w (a.setWidth 32) (b.setWidth 32) s.cpu.eflags := by
    rw [doCmp_run] at hcmp
    cases hcmp
    rw [hflags, afterCmp, hdest, hsrc]
  obtain ⟨s₃, hrun, heip⟩ := jccI_run j w' eip hd
  have hiff : JumpsAsNamed j w' a b d eip s₂ ↔
      s₃.cpu.eip = if j.Holds a b then s₂.cpu.eip + d.signExtend 32 else s₂.cpu.eip := by
    apply Iff.intro
    · rintro ⟨s', hrun', heip'⟩
      rw [hrun] at hrun'
      cases hrun'
      exact heip'
    · exact fun h => ⟨s₃, hrun, h⟩
  rw [hiff, heip, hfl]
  by_cases hj : j = .jbe
  · -- the jump is never taken, so it has to be right not to take it
    subst hj
    rw [jbe_test_cmpFlags, if_neg Bool.false_ne_true]
    have hrel : Jcc.jbe.Holds a b ↔ ¬ b < a := by
      simp only [Jcc.Holds, BitVec.le_def, BitVec.lt_def]
      omega
    have hzero : s₂.cpu.eip = s₂.cpu.eip + d.signExtend 32 ↔ d = 0 := by
      rw [BitVec.self_eq_add_right]
      exact signExtend_eq_zero_iff d
    by_cases hb : b < a
    · simp [hrel, hb]
    · rw [if_pos (hrel.mpr hb), hzero]
      simp [hb]
  · rw [test_cmpFlags a b _ j hj]
    simp [hj]

/-- `jbe` by two bytes after comparing one with one: it must jump and does not. -/
theorem jbe_misses_equal :
    ∃ s₁, doCmp .byte cmpOneOne = .ok ((), s₁) ∧
      ¬ JumpsAsNamed .jbe .byte (1#8) (1#8) (2#8) 0 s₁ := by
  refine ⟨_, doCmp_run .byte cmpOneOne, ?_⟩
  rintro ⟨s', hrun, heip⟩
  cases hrun
  exact absurd heip (by decide)

/-- The rule at the operands one and one: `je` jumps. -/
theorem je_after_cmp_one_one :
    JumpsAsNamed .je .byte (1#8) (1#8) (2#8) 0 (afterCmp .byte cmpOneOne) :=
  (jcc_after_cmp_iff .je .byte .byte (1#8) (1#8) (2#8) 0 cmpOneOne _ _ rfl rfl rfl rfl
    (by decide)).mpr (.inl (by decide))

end Emu

end Nemu
