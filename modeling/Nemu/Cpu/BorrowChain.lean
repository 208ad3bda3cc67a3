/-
  Nemu.Cpu.BorrowChain

  Multi-limb subtraction with one `sub` and a chain of `sbb`.

  `do_sub` is right about its limb, its borrow and its overflow.  `do_sbb` forms
  the right limb but carries the tests of `adc`: it says borrow when the limb
  became smaller, and overflow as for a sum.  The first is right only about
  subtracting nothing at all, so `diffRight_iff` finds that a chain of two or
  more limbs computes the difference only where it subtracts one limb from the
  lowest and needs no borrow.
-/

import Nemu.Cpu.LimbChain

namespace Nemu

open Outcome MultiLimb

/-! ## Runs of `sub` and `sbb` -/

/-- `sub` on the lowest limb, then `sbb` on the others. -/
def SubSbbRun (w : Width) (s : Emu) (x : Limb w) (xs : List (Limb w)) (s' : Emu) : Prop :=
  ∃ s₁, Presents w s x ∧ Emu.doSub w s = .ok ((), s₁) ∧
    LimbRun w (Emu.doSbb w) [x.loc] s₁ xs s'

/-- The destination limbs hold the difference modulo `2 ^ (n * k)`, CF is its borrow
    and OF its two's-complement overflow. -/
def DiffRight (w : Width) (xs : List (Limb w)) (s' : Emu) : Prop :=
  let size := w.bits * xs.length
  let a := value (xs.map Limb.a)
  let b := value (xs.map Limb.b)
  (∃ r : List (BitVec w.bits), xs.map (fun x => limbAt w s' x.loc) = r.map .ok ∧
    (value r : Int) = ((a : Int) - b) % 2 ^ size) ∧
  s'.cpu.eflags.CF = decide (a < b) ∧
  s'.cpu.eflags.OF = (BitVec.ofNat size a).ssubOverflow (BitVec.ofNat size b)

/-! ## What one limb leaves -/

section Step

variable {w : Width} {s : Emu} {x : Limb w}

/-- `do_sub` completes; limb, borrow and overflow are those of the difference. -/
theorem doSub_run (hw : w ≠ .byte) (hx : Presents w s x) :
    ∃ s', Emu.doSub w s = .ok ((), s') ∧
      limbAt w s' x.loc = .ok (x.a - x.b) ∧
      s'.cpu.eflags.CF = borrowOut x.a x.b false ∧
      s'.cpu.eflags.OF = ((x.a.msb ^^ x.b.msb) && (x.a.msb ^^ (x.a - x.b).msb)) := by
  obtain ⟨s₁, hwrite, hlimb, -, -⟩ := writeOperand_run hw hx.writable (x.a - x.b)
  rw [hx.loc] at hlimb
  have hdest : s.ops.get .dest = s.ops.dest := rfl
  have hsrc : s.ops.get .src = s.ops.src := rfl
  rw [Emu.doSub, run_bind_ok (Emu.getOp_run ..), run_bind_ok (Emu.getOp_run ..)]
  simp only [hdest, hsrc, hx.dest, hx.src, sub_setWidth]
  rw [run_bind_ok hwrite]
  refine ⟨_, rfl, hlimb, ?_, ?_⟩
  · show decide (x.a.setWidth 32 < (x.a - x.b).setWidth 32) = _
    apply decide_eq_decide.mpr
    rw [setWidth_lt_iff, lt_sub_iff, BitVec.lt_def]
    exact Iff.rfl
  · exact msbOf_otherSign x.a x.b _

-- the difference `do_sbb` forms from zero-extended operands
theorem sbb_result (a b : BitVec w.bits) (c : Bool) :
    (a.setWidth 32 - (b.setWidth 32 + (BitVec.ofBool c).setWidth 32)).setWidth w.bits
      = subb a b c := by
  have hpos := w.bits_pos
  rw [setWidth_sub_bits, BitVec.setWidth_add _ _ w.bits_le, setWidth_setWidth_bits,
    setWidth_setWidth_bits, BitVec.setWidth_setWidth_of_le _ w.bits_le]
  rfl

/-- What the body of `sbb` makes of one limb. -/
def sbbRipple (n : Nat) : Ripple n := ⟨subb, fun a b c => decide (subb a b c < a)⟩

/-- `do_sbb` completes; its limb is that of the difference, and it tests that limb as
    `do_adc` does. -/
theorem doSbb_run (hw : w ≠ .byte) :
    Computes w (Emu.doSbb w) (sbbRipple w.bits) (fun a b r => !(a ^^ b) && (a ^^ r)) := by
  intro s x hx
  obtain ⟨s₁, hwrite, hlimb, hframe, -⟩ :=
    writeOperand_run hw hx.writable (subb x.a x.b s.cpu.eflags.CF)
  rw [hx.loc] at hlimb hframe
  have hdest : s.ops.get .dest = s.ops.dest := rfl
  have hsrc : s.ops.get .src = s.ops.src := rfl
  rw [Emu.doSbb, run_bind_ok (Emu.getOp_run ..), run_bind_ok (Emu.getOp_run ..),
    run_bind_ok (Emu.getCpu_run _)]
  simp only [hdest, hsrc, hx.dest, hx.src, sbb_result]
  rw [run_bind_ok hwrite]
  refine ⟨_, rfl, ?_, ?_, ?_, ?_⟩
  · exact hlimb
  · exact hframe
  · exact decide_eq_decide.mpr (setWidth_lt_iff _ _)
  · exact msbOf_sameSign x.a x.b _

end Step

/-! ## The whole difference -/

/-- The condition under which `sub` and `sbb` compute the difference: there is only one
    limb, or the lowest limb needs no borrow and nothing is subtracted above it. -/
def BorrowOk {w : Width} (x : Limb w) (xs : List (Limb w)) : Prop :=
  xs = [] ∨ (x.b ≤ x.a ∧ ∀ y ∈ xs, y.b = 0)

/-- `sbb` finds every borrow of a chain exactly if there is none and every source limb
    is zero. -/
theorem agrees_sbb_iff {n : Nat} (hn : 0 < n) (c : Bool) (l : List (BitVec n × BitVec n)) :
    sub.Agrees (sbbRipple n).flag c l ↔ (l = [] ∨ (c = false ∧ ∀ p ∈ l, p.2 = 0)) := by
  induction l generalizing c with
  | nil => simp [Ripple.Agrees]
  | cons p l ih =>
      obtain ⟨a, b⟩ := p
      have hflag : (sbbRipple n).flag a b c = sub.flag a b c ↔ b = 0 ∧ c = false :=
        subb_lt_eq_borrow_iff hn a b c
      show (_ ∧ sub.Agrees (sbbRipple n).flag (borrowOut a b c) l) ↔ _
      rw [hflag, ih]
      apply Iff.intro
      · rintro ⟨⟨rfl, rfl⟩, hrest⟩
        refine .inr ⟨rfl, ?_⟩
        intro p hp
        rcases List.mem_cons.mp hp with rfl | hp
        · rfl
        · rcases hrest with rfl | ⟨-, hall⟩
          · cases hp
          · exact hall p hp
      · rintro (h | ⟨rfl, hall⟩)
        · cases h
        · obtain rfl : b = 0 := hall (a, b) (List.mem_cons_self ..)
          refine ⟨⟨rfl, rfl⟩, .inr ⟨borrowOut_zero a, ?_⟩⟩
          exact fun p hp => hall p (List.mem_cons_of_mem _ hp)

-- without borrow, subtracting zeros changes no limb
theorem limbs_sub_zero {n : Nat} (l : List (BitVec n × BitVec n)) (hall : ∀ p ∈ l, p.2 = 0) :
    sub.limbs false l = l.map Prod.fst := by
  induction l with
  | nil => rfl
  | cons p l ih =>
      obtain ⟨a, b⟩ := p
      obtain rfl : b = 0 := hall (a, b) (List.mem_cons_self ..)
      show subb a 0 false :: sub.limbs (borrowOut a 0 false) l = a :: l.map Prod.fst
      rw [borrowOut_zero, ih (fun p hp => hall p (List.mem_cons_of_mem _ hp)), subb_false]
      simp

section Diff

variable {w : Width} {s s' : Emu} {x : Limb w} {xs : List (Limb w)}

/-- The difference is right exactly when limbs, borrow and overflow are those of the
    right ripple subtraction. -/
theorem diffRight_iff_limbs (hne : xs ≠ []) :
    DiffRight w xs s' ↔
      xs.map (fun y => limbAt w s' y.loc) = (sub.limbs false (limbPairs xs)).map .ok ∧
      s'.cpu.eflags.CF = sub.last false (limbPairs xs) ∧
      s'.cpu.eflags.OF =
        ((topBit (xs.map Limb.a) ^^ topBit (xs.map Limb.b))
          && (topBit (xs.map Limb.a) ^^ topBit (sub.limbs false (limbPairs xs)))) := by
  have hn := w.bits_pos
  have hlen : (limbPairs xs).length = xs.length := List.length_map ..
  have hpairs : limbPairs xs ≠ [] := by simpa [limbPairs] using hne
  have hvalue := value_sub_mod hn (limbPairs xs)
  have hborrow := last_sub hn (limbPairs xs)
  have hover := ssubOverflow_value hn hpairs
  rw [fst_limbPairs, snd_limbPairs] at hvalue hborrow hover
  rw [hlen] at hvalue hover
  rw [DiffRight, ← hborrow, hover, ← hvalue]
  apply Iff.intro
  · rintro ⟨⟨r, hr, hval⟩, hCF, hOF⟩
    have hrlen : r.length = (sub.limbs false (limbPairs xs)).length := by
      have h := congrArg List.length hr
      rw [List.length_map, List.length_map] at h
      rw [Ripple.length_limbs, hlen, h]
    rw [value_inj hrlen (Int.ofNat.inj hval)] at hr
    exact ⟨hr, hCF, hOF⟩
  · rintro ⟨hr, hCF, hOF⟩
    exact ⟨⟨_, hr, rfl⟩, hCF, hOF⟩

/-- **Multi-limb subtraction.** A `sub`/`sbb` chain of 16- or 32-bit limbs leaves the
    difference, its borrow and its overflow exactly when `BorrowOk` holds of the limbs. -/
theorem diffRight_iff (hw : w ≠ .byte) (h : SubSbbRun w s x xs s') :
    DiffRight w (x :: xs) s' ↔ BorrowOk x xs := by
  have hn := w.bits_pos
  obtain ⟨s₁, hx, hsub, hrun⟩ := h
  obtain ⟨s₁', hrun', hlimb, hCF₁, hOF₁⟩ := doSub_run hw hx
  obtain rfl : s₁' = s₁ := by
    rw [hsub] at hrun'
    cases hrun'
    rfl
  obtain ⟨hkeep, hlimbs, hCF, hOF⟩ := limbRun_spec (doSbb_run hw) hrun
  have hhead : limbAt w s' x.loc = .ok (x.a - x.b) :=
    (hkeep _ (List.mem_singleton.mpr rfl)).trans hlimb
  have hmap : (x :: xs).map (fun y => limbAt w s' y.loc)
      = ((x.a - x.b) :: (sbbRipple w.bits).limbs s₁'.cpu.eflags.CF (limbPairs xs)).map .ok := by
    rw [List.map_cons, hhead, hlimbs, List.map_cons]
  -- `sub` is right about its borrow, so only the chain can go wrong
  have hchain := sub.eq_iff_agrees (subb_inj hn) (sbbRipple w.bits).flag
    s₁'.cpu.eflags.CF (borrowOut x.a x.b false) (limbPairs xs)
  have hborrow : borrowOut x.a x.b false = false ↔ x.b ≤ x.a := by
    rw [borrowOut, decide_eq_false_iff_not, Bool.toNat_false, BitVec.le_def]
    omega
  have hzeros : (∀ p ∈ limbPairs xs, p.2 = 0) ↔ ∀ y ∈ xs, y.b = 0 := by
    simp [limbPairs]
  have hnil : limbPairs xs = [] ↔ xs = [] := List.map_eq_nil_iff
  rw [agrees_sbb_iff hn, hnil, hborrow, hzeros] at hchain
  have hlimbs' : sub.limbs false (limbPairs (x :: xs))
      = (x.a - x.b) :: sub.limbs (borrowOut x.a x.b false) (limbPairs xs) := by
    rw [← subb_false]
    rfl
  have hlast : sub.last false (limbPairs (x :: xs))
      = sub.last (borrowOut x.a x.b false) (limbPairs xs) := rfl
  rw [diffRight_iff_limbs (List.cons_ne_nil x xs), hmap, hCF, hlimbs', hlast,
    List.map_inj_right (fun _ _ => Except.ok.inj), List.cons.injEq]
  apply Iff.intro
  · rintro ⟨⟨-, hl⟩, hc, -⟩
    exact (hchain.mp ⟨hl, hc⟩).2
  · intro hok
    have hright := hchain.mpr ⟨hCF₁, hok⟩
    refine ⟨⟨rfl, hright.1⟩, hright.2, ?_⟩
    cases xs with
    | nil =>
        -- one limb: the flag is that of `sub`
        cases hrun
        exact hOF₁
    | cons y ys =>
        -- the last limb does not change, so no test sees an overflow
        obtain ⟨hle, hall⟩ := hok.resolve_left (List.cons_ne_nil y ys)
        have hsame : sub.limbs (borrowOut x.a x.b false) (limbPairs (y :: ys))
            = (y :: ys).map Limb.a := by
          rw [hborrow.mpr hle, limbs_sub_zero _ (hzeros.mpr hall), fst_limbPairs]
        have hcomputed : (sbbRipple w.bits).limbs s₁'.cpu.eflags.CF (limbPairs (y :: ys))
            = (y :: ys).map Limb.a := hright.1.trans hsame
        have htop := hOF (List.cons_ne_nil y ys)
        rw [hcomputed, Bool.xor_self, Bool.and_false] at htop
        have hne : (y :: ys).map Limb.a ≠ [] := List.cons_ne_nil _ _
        rw [htop, hsame, List.map_cons, topBit_cons x.a hne, topBit_cons (x.a - x.b) hne,
          Bool.xor_self, Bool.and_false]

end Diff

/-! ## Two chains -/

/-- Subtracting `b₁ : b₀` from EDX:EAX, both registers holding one. -/
theorem subSbbRun_two_limbs (b₀ b₁ : BitVec 32) :
    ∃ s', SubSbbRun .long (presentRegImm allOne R_EAX b₀) ⟨.reg R_EAX, 1, b₀⟩
        [⟨.reg R_EDX, 1, b₁⟩] s' ∧
      s'.cpu.eflags.CF = (sbbRipple 32).flag 1 b₁ (borrowOut 1 b₀ false) := by
  have hx := presents_regImm allOne R_EAX b₀
  obtain ⟨s₁, hsub, -, hCF₁, -⟩ := doSub_run (by decide) hx
  have hedx : s₁.cpu.gpr R_EDX = 1 := by
    cases hsub
    rfl
  have hy := presents_regImm s₁ R_EDX b₁
  rw [hedx] at hy
  obtain ⟨s₂, hsbb, -, -, hCF₂, -⟩ := doSbb_run (by decide) _ _ hy
  have hapart : ∀ l ∈ [OpLoc.reg R_EAX], Apart .long l (.reg R_EDX) := by
    intro l hl
    rw [List.mem_singleton.mp hl]
    exact (by decide : R_EAX ≠ R_EDX)
  have hbetween : Between .long [.reg R_EAX] s₁ (presentRegImm s₁ R_EDX b₁) :=
    ⟨rfl, fun _ _ => rfl⟩
  refine ⟨s₂, ⟨s₁, hx, hsub, .cons hbetween hy hapart hsbb (.nil _ _)⟩, ?_⟩
  rw [hCF₂]
  show (sbbRipple 32).flag 1 b₁ s₁.cpu.eflags.CF = _
  rw [hCF₁]
  rfl

/-- The rule at a chain of two limbs: subtracting one from EDX:EAX. -/
theorem diffRight_two_limbs :
    ∃ s', DiffRight .long [⟨.reg R_EAX, 1, 1⟩, ⟨.reg R_EDX, 1, 0⟩] s' := by
  obtain ⟨s', hrun, -⟩ := subSbbRun_two_limbs 1 0
  have hzero : ∀ y ∈ [(⟨.reg R_EDX, 1, 0⟩ : Limb .long)], y.b = 0 := by
    intro y hy
    rw [List.mem_singleton.mp hy]
  exact ⟨s', (diffRight_iff (by decide) hrun).mpr (.inr ⟨BitVec.le_refl _, hzero⟩)⟩

/-- Subtracting `2 ^ 32` from `2 ^ 32 + 1` needs no borrow, and the chain reports one. -/
theorem sbb_one_one_sets_borrow :
    ∃ s', SubSbbRun .long (presentRegImm allOne R_EAX 0) ⟨.reg R_EAX, 1, 0⟩
        [⟨.reg R_EDX, 1, 1⟩] s' ∧
      ¬ DiffRight .long [⟨.reg R_EAX, 1, 0⟩, ⟨.reg R_EDX, 1, 1⟩] s' := by
  obtain ⟨s', hrun, hflag⟩ := subSbbRun_two_limbs 0 1
  refine ⟨s', hrun, ?_⟩
  rintro ⟨-, hCF, -⟩
  rw [hflag] at hCF
  exact absurd hCF (by decide)

end Nemu
