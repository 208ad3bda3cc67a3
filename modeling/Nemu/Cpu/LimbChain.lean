/-
  Nemu.Cpu.LimbChain

  Multi-limb arithmetic with a chain of 16- or 32-bit instructions.  A run
  presents the limbs of two numbers to the body of an instruction one after the
  other; between two of them anything may happen that leaves EFLAGS and the
  finished destination limbs alone.

  `limbRun_spec` says what such a run leaves, given what the instruction does
  with one limb; `CarryChain` applies it to `do_adc`, `BorrowChain` to `do_sbb`.
-/

import Nemu.Cpu.Exec.Arith
import Nemu.Lib.MultiLimb

namespace Nemu

open Outcome MultiLimb

/-! ## Limbs in registers and memory -/

-- The limb at a location; an immediate is no place to leave one.
def limbAt (w : Width) (s : Emu) : OpLoc → Except Abort (BitVec w.bits)
  | .reg i => .ok (s.cpu.reg w i)
  | .mem addr => do
      let v ← s.mem.read addr w.bytes
      return v.setWidth w.bits
  | .imm _ => .error .assertion

/-- The limbs at two locations do not overlap. -/
def Apart (w : Width) : OpLoc → OpLoc → Prop
  | .reg i, .reg j => i ≠ j
  | .mem a, .mem b => a.toNat + w.bytes ≤ b.toNat ∨ b.toNat + w.bytes ≤ a.toNat
  | _, _ => True

-- the low half of a register after its low half was replaced
theorem setWidth_merge (x : BitVec 32) (v : BitVec 16) :
    ((x &&& 0xffff0000#32) ||| v.setWidth 32).setWidth 16 = v := by
  have hmask : (0xffff0000#32).setWidth 16 = 0#16 := by decide
  rw [BitVec.setWidth_or, BitVec.setWidth_and, hmask, BitVec.and_zero, BitVec.zero_or,
    BitVec.setWidth_setWidth_of_le _ (by decide), BitVec.setWidth_eq]

section Registers

variable {w : Width} (hw : w ≠ .byte) (c : CpuState)

include hw

theorem reg_setReg_same (i : RegIdx) (v : BitVec w.bits) : (c.setReg w i v).reg w i = v := by
  cases w with
  | byte => exact absurd rfl hw
  | word =>
      exact (congrArg (BitVec.setWidth 16) (Function.update_self i _ c.gpr)).trans
        (setWidth_merge (c.gpr i) v)
  | long => exact Function.update_self i v c.gpr

theorem reg_setReg_ne {i j : RegIdx} (hij : j ≠ i) (v : BitVec w.bits) :
    (c.setReg w i v).reg w j = c.reg w j := by
  cases w with
  | byte => exact absurd rfl hw
  | word => exact congrArg (BitVec.setWidth 16) (Function.update_of_ne hij _ c.gpr)
  | long => exact Function.update_of_ne hij v c.gpr

end Registers

theorem eflags_setReg (w : Width) (c : CpuState) (i : RegIdx) (v : BitVec w.bits) :
    (c.setReg w i v).eflags = c.eflags := by
  cases w <;> rfl

/-! ## Writing one limb -/

-- a limb survives the truncation to the bytes of its access
theorem setWidth_ofNat_mod {w : Width} (r : BitVec w.bits) :
    (BitVec.ofNat 32 ((r.setWidth 32).toNat % 256 ^ w.bytes)).setWidth w.bits = r := by
  have hlt := r.isLt
  have hpow : 256 ^ w.bytes = 2 ^ w.bits := by cases w <;> rfl
  apply BitVec.eq_of_toNat_eq
  rw [hpow, BitVec.toNat_setWidth_of_le w.bits_le, Nat.mod_eq_of_lt hlt, BitVec.ofNat_toNat]
  exact congrArg BitVec.toNat (setWidth_setWidth_bits r)

section Write

variable {w : Width} {s : Emu} {o : Operand}

/-- The destination operand can be written: it is a register, or memory that can be
    accessed at the width of the instruction. -/
def Writable (w : Width) (s : Emu) (o : Operand) : Prop :=
  (∃ v, limbAt w s o.loc = .ok v) ∧ ∀ addr, o.loc = .mem addr → o.size = w.bytes

/-- Writing back a result leaves it at the destination and touches neither the flags
    nor any limb apart from it. -/
theorem writeOperand_run (hw : w ≠ .byte) (ho : Writable w s o) (r : BitVec w.bits) :
    ∃ s', Emu.writeOperand w o r s = .ok ((), s') ∧ limbAt w s' o.loc = .ok r ∧
      (∀ l, Apart w l o.loc → limbAt w s' l = limbAt w s l) ∧ s'.cpu.eflags = s.cpu.eflags := by
  obtain ⟨loc, size, val⟩ := o
  obtain ⟨⟨v, hv⟩, hsize⟩ := ho
  cases loc with
  | reg i =>
      refine ⟨{ s with cpu := s.cpu.setReg w i r }, rfl, ?_, ?_, eflags_setReg ..⟩
      · rw [limbAt, reg_setReg_same hw]
      · intro l hl
        cases l with
        | reg j => rw [limbAt, limbAt, reg_setReg_ne hw _ hl]
        | mem addr => rfl
        | imm x => rfl
  | mem addr =>
      obtain rfl : size = w.bytes := hsize addr rfl
      -- what can be read can be written
      obtain ⟨x, hread, -⟩ := bind_eq_ok.mp hv
      have hin := (FlatMem.read_eq_ok.mp hread).1
      obtain ⟨m, hwrite⟩ : ∃ m, s.mem.write addr w.bytes (r.setWidth 32) = .ok m :=
        ⟨_, FlatMem.write_eq_ok.mpr ⟨hin, rfl⟩⟩
      refine ⟨{ s with mem := m }, Emu.memW_run hwrite, ?_, ?_, rfl⟩
      · rw [limbAt, FlatMem.read_of_write hwrite, ok_bind, setWidth_ofNat_mod r]
        rfl
      · intro l hl
        cases l with
        | reg j => rfl
        | mem b => rw [limbAt, limbAt, FlatMem.read_of_write_disjoint hwrite hl]
        | imm x => rfl
  | imm x => exact absurd hv (by simp [limbAt])

end Write

/-! ## Limbs as operands -/

/-- One limb of an operation: where the destination limb is, its value `a`, and the
    source limb `b`. -/
structure Limb (w : Width) where
  loc : OpLoc
  a : BitVec w.bits
  b : BitVec w.bits

-- the limb pairs the limb library works on
def limbPairs {w : Width} (xs : List (Limb w)) : List (BitVec w.bits × BitVec w.bits) :=
  xs.map fun x => (x.a, x.b)

/-- The decoded operands are the limb `x`: the destination names its location and
    holds its value, the source operand is `b`. -/
structure Presents (w : Width) (s : Emu) (x : Limb w) : Prop where
  loc : s.ops.dest.loc = x.loc
  stored : limbAt w s x.loc = .ok x.a
  size : ∀ addr, x.loc = .mem addr → s.ops.dest.size = w.bytes
  dest : s.ops.dest.val = x.a.setWidth 32
  src : s.ops.src.val = x.b.setWidth 32

/-- What may happen between two limbs: EFLAGS and the finished limbs stay. -/
def Between (w : Width) (done : List OpLoc) (s s' : Emu) : Prop :=
  s'.cpu.eflags = s.cpu.eflags ∧ ∀ l ∈ done, limbAt w s' l = limbAt w s l

/-- One body on the limbs of the list, lowest first; `done` are the destinations
    finished before. -/
inductive LimbRun (w : Width) (body : EmuM Unit) :
    List OpLoc → Emu → List (Limb w) → Emu → Prop
  | nil (done : List OpLoc) (s : Emu) : LimbRun w body done s [] s
  | cons {done : List OpLoc} {s s₁ s₂ s' : Emu} {x : Limb w} {xs : List (Limb w)}
      (hbetween : Between w done s s₁) (hx : Presents w s₁ x)
      (hapart : ∀ l ∈ done, Apart w l x.loc) (hbody : body s₁ = .ok ((), s₂))
      (hrest : LimbRun w body (x.loc :: done) s₂ xs s') : LimbRun w body done s (x :: xs) s'

section Operands

variable {w : Width} {s : Emu} {x : Limb w} {xs : List (Limb w)}

theorem Presents.writable (hx : Presents w s x) : Writable w s s.ops.dest := by
  refine ⟨⟨x.a, ?_⟩, ?_⟩
  · rw [hx.loc]
    exact hx.stored
  · intro addr haddr
    rw [hx.loc] at haddr
    exact hx.size addr haddr

theorem fst_limbPairs : (limbPairs xs).map Prod.fst = xs.map Limb.a := by
  simp [limbPairs, Function.comp_def]

theorem snd_limbPairs : (limbPairs xs).map Prod.snd = xs.map Limb.b := by
  simp [limbPairs, Function.comp_def]

end Operands

/-! ## What a run leaves -/

/-- The body completes on every limb; it leaves `f.limb` at the destination and `f.flag`
    in CF, finds OF from three sign bits, and touches no limb apart from this one. -/
def Computes (w : Width) (body : EmuM Unit) (f : Ripple w.bits) (sign : Bool → Bool → Bool → Bool) :
    Prop :=
  ∀ (s : Emu) (x : Limb w), Presents w s x →
    ∃ s', body s = .ok ((), s') ∧
      limbAt w s' x.loc = .ok (f.limb x.a x.b s.cpu.eflags.CF) ∧
      (∀ l, Apart w l x.loc → limbAt w s' l = limbAt w s l) ∧
      s'.cpu.eflags.CF = f.flag x.a x.b s.cpu.eflags.CF ∧
      s'.cpu.eflags.OF = sign x.a.msb x.b.msb (f.limb x.a x.b s.cpu.eflags.CF).msb

theorem topBit_cons {n : Nat} (x : BitVec n) {xs : List (BitVec n)} (h : xs ≠ []) :
    topBit (x :: xs) = topBit xs := by
  cases xs with
  | nil => exact absurd rfl h
  | cons y ys => rfl

section Run

variable {w : Width} {body : EmuM Unit} {f : Ripple w.bits} {sign : Bool → Bool → Bool → Bool}
  {done : List OpLoc} {s s' : Emu} {xs : List (Limb w)}

/-- A run leaves the rippled limbs in its destinations, keeps the finished ones, and
    its flags are those of the last limb. -/
theorem limbRun_spec (hbody : Computes w body f sign) (h : LimbRun w body done s xs s') :
    (∀ l ∈ done, limbAt w s' l = limbAt w s l) ∧
    xs.map (fun x => limbAt w s' x.loc) = (f.limbs s.cpu.eflags.CF (limbPairs xs)).map .ok ∧
    s'.cpu.eflags.CF = f.last s.cpu.eflags.CF (limbPairs xs) ∧
    (xs ≠ [] → s'.cpu.eflags.OF =
      sign (topBit (xs.map Limb.a)) (topBit (xs.map Limb.b))
        (topBit (f.limbs s.cpu.eflags.CF (limbPairs xs)))) := by
  induction h with
  | nil done s => exact ⟨fun _ _ => rfl, rfl, rfl, fun h => absurd rfl h⟩
  | @cons done s s₁ s₂ s' x xs hbetween hx hapart hrun hrest ih =>
      obtain ⟨ihdone, ihlimbs, ihflag, ihoverflow⟩ := ih
      obtain ⟨s₂', hrun', hlimb, hframe, hCF, hOF⟩ := hbody s₁ x hx
      obtain rfl : s₂' = s₂ := by
        rw [hrun] at hrun'
        cases hrun'
        rfl
      have hin : s₁.cpu.eflags = s.cpu.eflags := hbetween.1
      rw [hin] at hlimb hCF hOF
      have hhead : limbAt w s' x.loc = .ok (f.limb x.a x.b s.cpu.eflags.CF) :=
        (ihdone x.loc (List.mem_cons_self ..)).trans hlimb
      refine ⟨?_, ?_, ?_, ?_⟩
      · intro l hl
        rw [ihdone l (List.mem_cons_of_mem _ hl), hframe l (hapart l hl), hbetween.2 l hl]
      · rw [List.map_cons, hhead, ihlimbs, hCF]
        rfl
      · rw [ihflag, hCF]
        rfl
      · intro _
        -- the flag is that of this limb if it is the last, else the rest set it
        cases xs with
        | nil =>
            cases hrest
            exact hOF
        | cons y ys =>
            rw [ihoverflow (List.cons_ne_nil y ys), hCF]
            rfl

end Run

/-! ## A 32-bit register and an immediate -/

-- `i` and the immediate `b` decoded as operands of a 32-bit instruction
def presentRegImm (s : Emu) (i : RegIdx) (b : BitVec 32) : Emu :=
  { s with
    ops :=
      { s.ops with
        dest := { loc := .reg i, size := 4, val := s.cpu.gpr i }
        src := { loc := .imm b, size := 4, val := b } } }

theorem presents_regImm (s : Emu) (i : RegIdx) (b : BitVec 32) :
    Presents .long (presentRegImm s i b) ⟨.reg i, s.cpu.gpr i, b⟩ :=
  ⟨rfl, rfl, nofun, (BitVec.setWidth_eq _).symm, (BitVec.setWidth_eq _).symm⟩

-- every register holds one
def allOne : Emu :=
  let s := Emu.zeroed fun _ => 0
  { s with cpu := { s.cpu with gpr := fun _ => 1 } }

end Nemu
