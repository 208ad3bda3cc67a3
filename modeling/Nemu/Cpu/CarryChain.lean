/-
  Nemu.Cpu.CarryChain

  Multi-limb addition with one `add` and a chain of `adc`.

  `do_adc` reads its carry right unless the source limb and the carry-in wrap to
  zero together; `do_add` compares the wrong way round, and is right only about
  adding zero.  `sumRight_iff` turns these two facts into the exact condition
  under which a whole chain computes the sum.
-/

import Nemu.Cpu.LimbChain

namespace Nemu

open Outcome MultiLimb

/-! ## Runs of `add` and `adc` -/

/-- `add` on the lowest limb, then `adc` on the others. -/
def AddAdcRun (w : Width) (s : Emu) (x : Limb w) (xs : List (Limb w)) (s' : Emu) : Prop :=
  ∃ s₁, Presents w s x ∧ Emu.doAdd w s = .ok ((), s₁) ∧
    LimbRun w (Emu.doAdc w) [x.loc] s₁ xs s'

/-- The destination limbs hold the sum modulo `2 ^ (n * k)`, CF is its carry and OF
    its two's-complement overflow. -/
def SumRight (w : Width) (xs : List (Limb w)) (s' : Emu) : Prop :=
  let size := w.bits * xs.length
  let a := value (xs.map Limb.a)
  let b := value (xs.map Limb.b)
  (∃ r : List (BitVec w.bits), xs.map (fun x => limbAt w s' x.loc) = r.map .ok ∧
    value r = (a + b) % 2 ^ size) ∧
  s'.cpu.eflags.CF = decide (2 ^ size ≤ a + b) ∧
  s'.cpu.eflags.OF = (BitVec.ofNat size a).saddOverflow (BitVec.ofNat size b)

/-! ## What one limb leaves -/

section Step

variable {w : Width} {s : Emu} {x : Limb w}

-- the sum `do_adc` forms from zero-extended operands
theorem adc_result (a b : BitVec w.bits) (c : Bool) :
    (a.setWidth 32 + b.setWidth 32 + (BitVec.ofBool c).setWidth 32).setWidth w.bits
      = addc a b c := by
  have hw := w.bits_le
  have hpos := w.bits_pos
  rw [BitVec.setWidth_add _ _ hw, BitVec.setWidth_add _ _ hw, setWidth_setWidth_bits,
    setWidth_setWidth_bits, BitVec.setWidth_setWidth_of_le _ hw]
  rfl

/-- What the body of `adc` makes of one limb. -/
def adcRipple (n : Nat) : Ripple n := ⟨addc, fun a b c => decide (addc a b c < a)⟩

/-- `do_adc` completes; it leaves the limb sum at the destination, finds its carry
    by comparing, and touches no limb apart from it. -/
theorem doAdc_run (hw : w ≠ .byte) :
    Computes w (Emu.doAdc w) (adcRipple w.bits) (fun a b r => !(a ^^ b) && (a ^^ r)) := by
  intro s x hx
  obtain ⟨s₁, hwrite, hlimb, hframe, -⟩ :=
    writeOperand_run hw hx.writable (addc x.a x.b s.cpu.eflags.CF)
  rw [hx.loc] at hlimb hframe
  have hdest : s.ops.get .dest = s.ops.dest := rfl
  have hsrc : s.ops.get .src = s.ops.src := rfl
  rw [Emu.doAdc, run_bind_ok (Emu.getOp_run ..), run_bind_ok (Emu.getOp_run ..),
    run_bind_ok (Emu.getCpu_run _)]
  simp only [hdest, hsrc, hx.dest, hx.src, adc_result]
  rw [run_bind_ok hwrite]
  refine ⟨_, rfl, ?_, ?_, ?_, ?_⟩
  · exact hlimb
  · exact hframe
  · exact decide_eq_decide.mpr (setWidth_lt_iff _ _)
  · exact msbOf_sameSign x.a x.b _

-- the sum `do_add` forms from zero-extended operands
theorem add_result (a b : BitVec w.bits) :
    (a.setWidth 32 + b.setWidth 32).setWidth w.bits = a + b := by
  rw [BitVec.setWidth_add _ _ w.bits_le, setWidth_setWidth_bits, setWidth_setWidth_bits]

/-- `do_add` is the same, except that its comparison is the other way round and its
    overflow test is that of a subtraction. -/
theorem doAdd_run (hw : w ≠ .byte) (hx : Presents w s x) :
    ∃ s', Emu.doAdd w s = .ok ((), s') ∧
      limbAt w s' x.loc = .ok (x.a + x.b) ∧
      s'.cpu.eflags.CF = decide (x.a < x.a + x.b) ∧
      s'.cpu.eflags.OF = ((x.a.msb ^^ x.b.msb) && (x.a.msb ^^ (x.a + x.b).msb)) := by
  obtain ⟨s₁, hwrite, hlimb, -, -⟩ := writeOperand_run hw hx.writable (x.a + x.b)
  rw [hx.loc] at hlimb
  have hdest : s.ops.get .dest = s.ops.dest := rfl
  have hsrc : s.ops.get .src = s.ops.src := rfl
  rw [Emu.doAdd, run_bind_ok (Emu.getOp_run ..), run_bind_ok (Emu.getOp_run ..)]
  simp only [hdest, hsrc, hx.dest, hx.src, add_result]
  rw [run_bind_ok hwrite]
  refine ⟨_, rfl, hlimb, ?_, ?_⟩
  · exact decide_eq_decide.mpr (setWidth_lt_iff _ _)
  · exact msbOf_otherSign x.a x.b _

end Step

/-! ## What a chain of `adc` leaves -/

/-- No limb of the chain is all ones and meets a carry. -/
def CarryOk {n : Nat} : Bool → List (BitVec n × BitVec n) → Prop
  | _, [] => True
  | c, (a, b) :: l => ¬ (b = BitVec.allOnes n ∧ c = true) ∧ CarryOk (carryOut a b c) l

/-- `adc` finds every carry of a chain exactly if no limb goes wrong. -/
theorem agrees_adc_iff {n : Nat} (hn : 0 < n) (c : Bool) (l : List (BitVec n × BitVec n)) :
    add.Agrees (adcRipple n).flag c l ↔ CarryOk c l := by
  induction l generalizing c with
  | nil => exact Iff.rfl
  | cons p l ih =>
      obtain ⟨a, b⟩ := p
      have hflag : (adcRipple n).flag a b c = add.flag a b c ↔
          ¬ (b = BitVec.allOnes n ∧ c = true) := addc_lt_eq_carry_iff hn a b c
      show (_ ∧ add.Agrees (adcRipple n).flag (carryOut a b c) l) ↔ _
      rw [hflag, ih, CarryOk]

/-! ## The whole addition -/

/-- The condition under which `add` and `adc` compute the sum: nothing is added to
    the lowest limb, and no later source limb is all ones where a carry comes in. -/
def ChainOk {w : Width} (x : Limb w) (xs : List (Limb w)) : Prop :=
  x.b = 0 ∧ CarryOk false (limbPairs xs)

section Sum

variable {w : Width} {s s' : Emu} {x : Limb w} {xs : List (Limb w)}

/-- The sum is right exactly when limbs, carry and overflow are those of the right
    ripple addition. -/
theorem sumRight_iff_limbs :
    SumRight w (x :: xs) s' ↔
      (x :: xs).map (fun y => limbAt w s' y.loc)
        = (add.limbs false (limbPairs (x :: xs))).map .ok ∧
      s'.cpu.eflags.CF = add.last false (limbPairs (x :: xs)) ∧
      s'.cpu.eflags.OF =
        (!(topBit ((x :: xs).map Limb.a) ^^ topBit ((x :: xs).map Limb.b))
          && (topBit ((x :: xs).map Limb.a) ^^ topBit (add.limbs false (limbPairs (x :: xs))))) := by
  have hn := w.bits_pos
  have hlen : (limbPairs (x :: xs)).length = (x :: xs).length := List.length_map ..
  have hne : limbPairs (x :: xs) ≠ [] := List.cons_ne_nil _ _
  have hvalue := value_add_mod hn (limbPairs (x :: xs))
  have hcarry := last_add hn (limbPairs (x :: xs))
  have hover := saddOverflow_value hn hne
  rw [fst_limbPairs, snd_limbPairs, hlen] at hvalue hcarry hover
  rw [SumRight, ← hcarry, hover, ← hvalue]
  apply Iff.intro
  · rintro ⟨⟨r, hr, hval⟩, hCF, hOF⟩
    have hrlen : r.length = (add.limbs false (limbPairs (x :: xs))).length := by
      have h := congrArg List.length hr
      rw [List.length_map, List.length_map] at h
      rw [Ripple.length_limbs, hlen, h]
    rw [value_inj hrlen hval] at hr
    exact ⟨hr, hCF, hOF⟩
  · rintro ⟨hr, hCF, hOF⟩
    exact ⟨⟨_, hr, rfl⟩, hCF, hOF⟩

/-- **Multi-limb addition.** An `add`/`adc` chain of 16- or 32-bit limbs leaves the
    sum, its carry and its overflow exactly when `ChainOk` holds of the limbs. -/
theorem sumRight_iff (hw : w ≠ .byte) (h : AddAdcRun w s x xs s') :
    SumRight w (x :: xs) s' ↔ ChainOk x xs := by
  have hn := w.bits_pos
  obtain ⟨s₁, hx, hadd, hrun⟩ := h
  obtain ⟨s₁', hrun', hlimb, hCF₁, hOF₁⟩ := doAdd_run hw hx
  obtain rfl : s₁' = s₁ := by
    rw [hadd] at hrun'
    cases hrun'
    rfl
  obtain ⟨hkeep, hlimbs, hCF, hOF⟩ := limbRun_spec (doAdc_run hw) hrun
  have hhead : limbAt w s' x.loc = .ok (x.a + x.b) := (hkeep _ (List.mem_singleton.mpr rfl)).trans hlimb
  have hmap : (x :: xs).map (fun y => limbAt w s' y.loc)
      = ((x.a + x.b) :: (adcRipple w.bits).limbs s₁'.cpu.eflags.CF (limbPairs xs)).map .ok := by
    rw [List.map_cons, hhead, hlimbs, List.map_cons]
  have hzero := lt_add_eq_carry_iff hn x.a x.b
  rw [← hCF₁] at hzero
  have hchain := add.eq_iff_agrees (addc_inj hn) (adcRipple w.bits).flag
    s₁'.cpu.eflags.CF (carryOut x.a x.b false) (limbPairs xs)
  rw [agrees_adc_iff hn] at hchain
  have hlimbs' : add.limbs false (limbPairs (x :: xs))
      = (x.a + x.b) :: add.limbs (carryOut x.a x.b false) (limbPairs xs) := by
    rw [← addc_false]
    rfl
  have hlast : add.last false (limbPairs (x :: xs))
      = add.last (carryOut x.a x.b false) (limbPairs xs) := rfl
  rw [sumRight_iff_limbs, hmap, hCF, hlimbs', hlast, List.map_inj_right
    (fun _ _ => Except.ok.inj), List.cons.injEq]
  apply Iff.intro
  · rintro ⟨⟨-, hl⟩, hc, -⟩
    obtain ⟨hcarry, hok⟩ := hchain.mp ⟨hl, hc⟩
    have hb := hzero.mp hcarry
    rw [hb, carryOut_zero] at hok
    exact ⟨hb, hok⟩
  · rintro ⟨hb, hok⟩
    have hcarry := hzero.mpr hb
    have hin : carryOut x.a x.b false = false := by rw [hb, carryOut_zero]
    have hright := hchain.mpr ⟨hcarry, by rw [hin]; exact hok⟩
    refine ⟨⟨rfl, hright.1⟩, hright.2, ?_⟩
    cases xs with
    | nil =>
        -- one limb: the flag is that of `add`, and nothing was added
        cases hrun
        rw [hOF₁, hb]
        simp [limbPairs, topBit, Ripple.limbs]
    | cons y ys =>
        have hne : (adcRipple w.bits).limbs s₁'.cpu.eflags.CF (limbPairs (y :: ys)) ≠ [] :=
          List.cons_ne_nil _ _
        have hcomputed : (adcRipple w.bits).limbs s₁'.cpu.eflags.CF (limbPairs (y :: ys))
            = add.limbs (carryOut x.a x.b false) (limbPairs (y :: ys)) := hright.1
        rw [← hcomputed, List.map_cons, List.map_cons, topBit_cons _ hne,
          hOF (List.cons_ne_nil y ys)]
        rfl

end Sum

/-! ## Two chains -/

/-- The rule at a chain of two limbs: adding `2 ^ 32` to EDX:EAX. -/
theorem sumRight_two_limbs :
    ∃ s', SumRight .long [⟨.reg R_EAX, 1, 0⟩, ⟨.reg R_EDX, 1, 1⟩] s' := by
  have hx := presents_regImm allOne R_EAX 0
  obtain ⟨s₁, hadd, -⟩ := doAdd_run (by decide) hx
  have hedx : s₁.cpu.gpr R_EDX = 1 := by
    cases hadd
    decide
  have hy := presents_regImm s₁ R_EDX 1
  rw [hedx] at hy
  obtain ⟨s₂, hadc, -⟩ := doAdc_run (by decide) _ _ hy
  have hapart : ∀ l ∈ [OpLoc.reg R_EAX], Apart .long l (.reg R_EDX) := by
    intro l hl
    rw [List.mem_singleton.mp hl]
    exact (by decide : R_EAX ≠ R_EDX)
  have hrun : AddAdcRun .long (presentRegImm allOne R_EAX 0) ⟨.reg R_EAX, 1, 0⟩
      [⟨.reg R_EDX, 1, 1⟩] s₂ :=
    ⟨s₁, hx, hadd, .cons (show Between .long [.reg R_EAX] s₁ (presentRegImm s₁ R_EDX 1) from
      ⟨rfl, fun _ _ => rfl⟩) hy hapart hadc (.nil _ _)⟩
  exact ⟨s₂, (sumRight_iff (by decide) hrun).mpr ⟨rfl, by simp, trivial⟩⟩

/-- One plus one: there is no carry out, and `add` sets CF. -/
theorem add_one_one_sets_carry :
    ∃ s', AddAdcRun .long (presentRegImm allOne R_EAX 1) ⟨.reg R_EAX, 1, 1⟩ [] s' ∧
      ¬ SumRight .long [⟨.reg R_EAX, 1, 1⟩] s' := by
  refine ⟨_, ⟨_, presents_regImm allOne R_EAX 1, rfl, .nil _ _⟩, ?_⟩
  rintro ⟨-, hCF, -⟩
  exact absurd hCF (by decide)

end Nemu
