/-
  Nemu.Cpu.LogicFlags

  The flags of `and`, `or`, `xor` and `test`.

  Carry, overflow, zero and sign come out right at every width.  The parity flag is
  the sum of the even-numbered bits of the low byte alone: an entry of `parity_table`
  drops two of its four bits.  `test` folds all eight bits together first, and the
  shared helper then overwrites what it found.
-/

import Nemu.Cpu.Operand
import Nemu.Cpu.Exec.Logic

namespace Nemu

open Outcome FlatMem Emu

/-! ## Parity -/

-- the bits of `p` at the positions of the list, added without carry
def xorAll (p : Nat → Bool) (ks : List Nat) : Bool := ks.foldr (fun k acc => p k ^^ acc) false

theorem countP_mod_two (p : Nat → Bool) (ks : List Nat) :
    ks.countP p % 2 = (xorAll p ks).toNat := by
  induction ks with
  | nil => rfl
  | cons k ks ih =>
      have hfold : xorAll p (k :: ks) = (p k ^^ xorAll p ks) := rfl
      rw [hfold]
      cases hk : p k with
      | true =>
          rw [List.countP_cons_of_pos hk, Nat.add_mod, ih]
          cases xorAll p ks <;> rfl
      | false =>
          rw [List.countP_cons_of_neg (by rw [hk]; exact Bool.false_ne_true), ih,
            Bool.false_xor]

/-- The low byte has an even number of one bits. -/
def evenOnes {n : Nat} (r : BitVec n) : Bool :=
  [0, 1, 2, 3, 4, 5, 6, 7].countP r.getLsbD % 2 == 0

/-- The bits that an entry of the table does not look at. -/
def oddPositions : List Nat := [1, 3, 5, 7]

theorem evenOnes_eq {n : Nat} (r : BitVec n) :
    evenOnes r = !(xorAll r.getLsbD [0, 2, 4, 6] ^^ xorAll r.getLsbD oddPositions) := by
  have hsplit : xorAll r.getLsbD [0, 1, 2, 3, 4, 5, 6, 7]
      = (xorAll r.getLsbD [0, 2, 4, 6] ^^ xorAll r.getLsbD oddPositions) := by
    simp only [xorAll, oddPositions, List.foldr_cons, List.foldr_nil, Bool.xor_false,
      Bool.xor_assoc, Bool.xor_left_comm]
  rw [evenOnes, countP_mod_two, hsplit]
  cases xorAll r.getLsbD [0, 2, 4, 6] ^^ xorAll r.getLsbD oddPositions <;> rfl

/-- The folding of `test` looks at all eight bits. -/
theorem foldParity_eq_zero {w : Width} (r : BitVec w.bits) : (foldParity r == 0) = evenOnes r := by
  -- the last step keeps the lowest bit only
  have hlow : ∀ x : BitVec w.bits, (x &&& 1 == 0) = !x.getLsbD 0 := by
    intro x
    have hand : x &&& 1 = (BitVec.ofBool (x.getLsbD 0)).setWidth w.bits :=
      BitVec.and_one_eq_setWidth_ofBool_getLsbD
    rw [hand]
    cases x.getLsbD 0 <;> cases w <;> rfl
  rw [evenOnes_eq, foldParity, hlow]
  simp only [xorAll, oddPositions, List.foldr_cons, List.foldr_nil, Bool.xor_false,
    BitVec.getLsbD_xor, BitVec.getLsbD_ushiftRight, Bool.xor_assoc, Bool.xor_left_comm]

/-- PF as the shared helper stores it is right if the bits it drops make an odd number. -/
theorem updatePfZfSf_PF_iff {w : Width} (f : EFlags) (r : BitVec w.bits) :
    (f.updatePfZfSf (r.signExtend 32)).PF = evenOnes r ↔ oddPositions.countP r.getLsbD % 2 = 1 := by
  have hbit : ∀ k, k < 8 → (r.signExtend 32).getLsbD k = r.getLsbD k :=
    fun _ hk => getLsbD_signExtend_byte r hk
  have hstored : (f.updatePfZfSf (r.signExtend 32)).PF = xorAll r.getLsbD [0, 2, 4, 6] := by
    rw [updatePfZfSf_PF, hbit 0 (by decide), hbit 2 (by decide), hbit 4 (by decide),
      hbit 6 (by decide)]
    simp only [xorAll, List.foldr_cons, List.foldr_nil, Bool.xor_false, Bool.xor_assoc]
  rw [hstored, evenOnes_eq, countP_mod_two]
  cases xorAll r.getLsbD [0, 2, 4, 6] <;> cases xorAll r.getLsbD oddPositions <;> decide

/-! ## The operations -/

/-- The two-operand operations of `cpu/exec/logic`. -/
inductive LogicOp where
  | and
  | or
  | xor
  | test
deriving DecidableEq, Repr

namespace LogicOp

def body : LogicOp → Width → EmuM Unit
  | and => doAnd
  | or => doOr
  | xor => doXor
  | test => doTest

def result {n : Nat} (a b : BitVec n) : LogicOp → BitVec n
  | and | test => a &&& b
  | or => a ||| b
  | xor => a ^^^ b

-- the result of one bit
def bit (a b : Bool) : LogicOp → Bool
  | and | test => a && b
  | or => a || b
  | xor => a ^^ b

theorem getLsbD_result {n : Nat} (op : LogicOp) (a b : BitVec n) (k : Nat) :
    (op.result a b).getLsbD k = op.bit (a.getLsbD k) (b.getLsbD k) := by
  cases op with
  | and | test => exact BitVec.getLsbD_and
  | or => exact BitVec.getLsbD_or
  | xor => exact BitVec.getLsbD_xor

end LogicOp

/-- The flags in `s'` are those of the result of `op` on `a` and `b`; `test` wrote nothing
    and found the same parity by folding. -/
structure LogicRight (op : LogicOp) (w : Width) (a b : BitVec w.bits) (s s' : Emu) : Prop where
  CF : s'.cpu.eflags.CF = false
  OF : s'.cpu.eflags.OF = false
  ZF : s'.cpu.eflags.ZF = decide (op.result a b = 0)
  SF : s'.cpu.eflags.SF = (op.result a b).msb
  PF : s'.cpu.eflags.PF = evenOnes (op.result a b)
  writes : op = .test → s'.cpu.gpr = s.cpu.gpr ∧ s'.mem = s.mem
  parity : op = .test → (foldParity (op.result a b) == 0) = s'.cpu.eflags.PF

-- the flags every operation leaves
def EFlags.logic (f : EFlags) (r : BitVec 32) : EFlags :=
  { f.updatePfZfSf r with CF := false, OF := false }

section Run

variable {w : Width} {d l : OpLoc} {s s₁ : Emu}

theorem doBitwise_run {g : BitVec 32 → BitVec 32 → BitVec 32} {r : BitVec w.bits}
    (hd : Decoded w .dest d s s₁) (hl : Decoded w .src l s s₁) (hacc : d.Accessible w)
    (hplace : d.IsPlace)
    (hg : (g ((d.val w s).setWidth 32) ((l.val w s).setWidth 32)).setWidth w.bits = r) :
    ∃ s', doBitwise g w s₁ = .ok ((), s') ∧
      s'.cpu.eflags = s₁.cpu.eflags.logic (r.signExtend 32) := by
  obtain ⟨s', hrun, -, hflags⟩ := writeOperand_flags (s := s₁) hd.loc hd.size hacc hplace r
    (fun f => f.logic (r.signExtend 32)) (k := do
      updateEflagsPfZfSf (r.signExtend 32)
      setOF false
      setCF false) (fun _ => rfl)
  rw [doBitwise, run_bind_ok (getOp_run ..), run_bind_ok (getOp_run ..), hd.val, hl.val, hg]
  exact ⟨s', hrun, hflags⟩

theorem doTest_run {r : BitVec w.bits} (hd : Decoded w .dest d s s₁)
    (hl : Decoded w .src l s s₁) (hr : d.val w s &&& l.val w s = r) :
    ∃ s', doTest w s₁ = .ok ((), s') ∧
      s'.cpu.eflags = s₁.cpu.eflags.logic (r.signExtend 32) ∧
      s'.cpu.gpr = s₁.cpu.gpr ∧ s'.mem = s₁.mem := by
  have hand : ((d.val w s).setWidth 32 &&& (l.val w s).setWidth 32).setWidth w.bits = r := by
    rw [BitVec.setWidth_and, setWidth_setWidth_bits, setWidth_setWidth_bits, hr]
  rw [doTest, run_bind_ok (getOp_run ..), run_bind_ok (getOp_run ..), hd.val, hl.val]
  simp only [hand]
  -- what `test` stores first is overwritten
  exact ⟨_, rfl, rfl, rfl, rfl⟩

/-- Any of the four operations, with its operands decoded. -/
theorem LogicOp.body_run (op : LogicOp) (hd : Decoded w .dest d s s₁)
    (hl : Decoded w .src l s s₁) (hacc : d.Accessible w) (hplace : d.IsPlace) :
    ∃ s', op.body w s₁ = .ok ((), s') ∧
      s'.cpu.eflags = s₁.cpu.eflags.logic ((op.result (d.val w s) (l.val w s)).signExtend 32) ∧
      (op = .test → s'.cpu.gpr = s₁.cpu.gpr ∧ s'.mem = s₁.mem) := by
  cases op with
  | and =>
      obtain ⟨s', hrun, hflags⟩ := doBitwise_run (g := (· &&& ·)) hd hl hacc hplace
        (r := d.val w s &&& l.val w s)
        (by rw [BitVec.setWidth_and, setWidth_setWidth_bits, setWidth_setWidth_bits])
      exact ⟨s', hrun, hflags, fun h => LogicOp.noConfusion h⟩
  | or =>
      obtain ⟨s', hrun, hflags⟩ := doBitwise_run (g := (· ||| ·)) hd hl hacc hplace
        (r := d.val w s ||| l.val w s)
        (by rw [BitVec.setWidth_or, setWidth_setWidth_bits, setWidth_setWidth_bits])
      exact ⟨s', hrun, hflags, fun h => LogicOp.noConfusion h⟩
  | xor =>
      obtain ⟨s', hrun, hflags⟩ := doBitwise_run (g := (· ^^^ ·)) hd hl hacc hplace
        (r := d.val w s ^^^ l.val w s)
        (by rw [BitVec.setWidth_xor, setWidth_setWidth_bits, setWidth_setWidth_bits])
      exact ⟨s', hrun, hflags, fun h => LogicOp.noConfusion h⟩
  | test =>
      obtain ⟨s', hrun, hflags, hgpr, hmem⟩ := doTest_run hd hl rfl
      exact ⟨s', hrun, hflags, fun _ => ⟨hgpr, hmem⟩⟩

end Run

section Instruction

variable {op : LogicOp} {w : Width} {a b : BitVec w.bits} {s s' : Emu}

/-- The flags left by the code are right exactly when the parity flag is. -/
theorem logicRight_iff_odd {f : EFlags}
    (hflags : s'.cpu.eflags = f.logic ((op.result a b).signExtend 32))
    (hwrites : op = .test → s'.cpu.gpr = s.cpu.gpr ∧ s'.mem = s.mem) :
    LogicRight op w a b s s' ↔
      (oddPositions.countP fun k => op.bit (a.getLsbD k) (b.getLsbD k)) % 2 = 1 := by
  have hcount : (oddPositions.countP fun k => op.bit (a.getLsbD k) (b.getLsbD k))
      = oddPositions.countP (op.result a b).getLsbD := by
    refine congrArg (fun p => oddPositions.countP p) (funext fun k => ?_)
    exact (op.getLsbD_result a b k).symm
  have hPF : s'.cpu.eflags.PF = (f.updatePfZfSf ((op.result a b).signExtend 32)).PF :=
    congrArg (fun g => g.PF) hflags
  have hiff := updatePfZfSf_PF_iff f (op.result a b)
  rw [hcount, ← hiff, ← hPF]
  apply Iff.intro
  · exact fun h => h.PF
  · intro h
    refine ⟨?_, ?_, ?_, ?_, h, hwrites, ?_⟩
    · rw [hflags]
      rfl
    · rw [hflags]
      rfl
    · rw [hflags]
      exact updatePfZfSf_ZF f _
    · rw [hflags]
      exact updatePfZfSf_SF f _
    · intro _
      rw [foldParity_eq_zero, h]

/-- An operation on operands in memory and registers, from its encoding on. -/
theorem logic_run (op : LogicOp) (f : TwoOp) {eip : Addr}
    (hin : InRange (eip + 1) (f.len w s (eip + 1)))
    (hdest : (f.dest s (eip + 1)).Accessible w) (hsrc : (f.src w s (eip + 1)).Accessible w) :
    ∃ n s', idex (f.decode w) (op.body w) eip s = .ok (n, s') ∧
      s'.cpu.eflags = s.cpu.eflags.logic ((op.result ((f.dest s (eip + 1)).val w s)
        ((f.src w s (eip + 1)).val w s)).signExtend 32) ∧
      (op = .test → s'.cpu.gpr = s.cpu.gpr ∧ s'.mem = s.mem) := by
  obtain ⟨s₁, hdec, hmach, hd, hl⟩ := f.decode_run hin hdest hsrc
  have hcpu : s₁.cpu = s.cpu := congrArg Machine.cpu hmach
  have hmem : s₁.mem = s.mem := congrArg Machine.mem hmach
  obtain ⟨s', hrun, hflags, htest⟩ := op.body_run hd hl hdest f.dest_isPlace
  refine ⟨_, s', idex_run hdec hrun, ?_, ?_⟩
  · rw [hflags, hcpu]
  · rw [← hcpu, ← hmem]
    exact htest

end Instruction

/-- `and`, `or`, `xor` and `test` leave the right flags, and the two parity computations of
    `test` agree, exactly when the result has an odd number of ones at the bits 1, 3, 5
    and 7. -/
theorem logic_right_iff (op : LogicOp) (f : TwoOp) (w : Width) (s : Emu) (eip : Addr)
    (hin : InRange (eip + 1) (f.len w s (eip + 1)))
    (hdest : (f.dest s (eip + 1)).Accessible w) (hsrc : (f.src w s (eip + 1)).Accessible w) :
    ∃ n s', idex (f.decode w) (op.body w) eip s = .ok (n, s') ∧
      (LogicRight op w ((f.dest s (eip + 1)).val w s) ((f.src w s (eip + 1)).val w s) s s' ↔
        (oddPositions.countP fun k => op.bit (((f.dest s (eip + 1)).val w s).getLsbD k)
          (((f.src w s (eip + 1)).val w s).getLsbD k)) % 2 = 1) := by
  obtain ⟨n, s', hrun, hflags, hwrites⟩ := logic_run op f hin hdest hsrc
  exact ⟨n, s', hrun, logicRight_iff_odd hflags hwrites⟩

-- `xorl %ecx,%eax` with EAX = 2 and ECX = 0
theorem logic_right_iff_two :
    let s : Emu := { Emu.zeroed (fun i => [0x31, 0xc8].getD i 0) with
      cpu := { (Emu.zeroed fun _ => 0).cpu with gpr := fun i => if i = R_EAX then 2 else 0 } }
    ∃ n s', idex (TwoOp.r2rm.decode .long) (LogicOp.xor.body .long) 0 s = .ok (n, s') ∧
      (LogicRight .xor .long ((TwoOp.r2rm.dest s 1).val .long s)
        ((TwoOp.r2rm.src .long s 1).val .long s) s s' ↔
        (oddPositions.countP fun k => LogicOp.xor.bit
          (((TwoOp.r2rm.dest s 1).val .long s).getLsbD k)
          (((TwoOp.r2rm.src .long s 1).val .long s).getLsbD k)) % 2 = 1) := by
  intro s
  exact logic_right_iff .xor .r2rm .long s 0 (by decide) (by decide) (by decide)

/-- `xorl %eax,%eax` leaves PF clear, though zero has no one bits at all. -/
theorem xor_parity_wrong :
    ¬ ∀ (op : LogicOp) (f : TwoOp) (w : Width) (s : Emu) (eip : Addr),
      InRange (eip + 1) (f.len w s (eip + 1)) → (f.dest s (eip + 1)).Accessible w →
      (f.src w s (eip + 1)).Accessible w →
      ∃ n s', idex (f.decode w) (op.body w) eip s = .ok (n, s') ∧
        LogicRight op w ((f.dest s (eip + 1)).val w s) ((f.src w s (eip + 1)).val w s) s s' := by
  intro h
  let s : Emu := Emu.zeroed fun i => [0x31, 0xc0].getD i 0
  have hin : InRange (0 + 1) (TwoOp.r2rm.len .long s (0 + 1)) := by decide
  have hdest : (TwoOp.r2rm.dest s (0 + 1)).Accessible .long := by decide
  have hsrc : (TwoOp.r2rm.src .long s (0 + 1)).Accessible .long := by decide
  obtain ⟨n, s', hrun, hright⟩ := h .xor .r2rm .long s 0 hin hdest hsrc
  obtain ⟨n', s'', hrun', hflags, hwrites⟩ := logic_run .xor .r2rm hin hdest hsrc
  have hsame : s' = s'' := congrArg Prod.snd (Except.ok.inj (hrun.symm.trans hrun'))
  rw [hsame] at hright
  have hodd := (logicRight_iff_odd hflags hwrites).mp hright
  exact absurd hodd (by decide)

end Nemu
