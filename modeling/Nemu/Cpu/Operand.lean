/-
  Nemu.Cpu.Operand

  What the decode helpers hand to an instruction and what the instruction does with
  it: the location each operand names, its value before the instruction, and the
  effect of writing to it.

  A write replaces the bits of its own operand.  `Writes` is that with its frame: the
  other bits of every register, the other bytes of memory, EIP and EFLAGS stay.
-/

import Nemu.Cpu.EffAddr
import Nemu.Cpu.LimbChain

namespace Nemu

open Outcome FlatMem I386

/-! ## Bits of a register -/

-- the 32-bit register that a register operand is part of
def regHome : Width → RegIdx → RegIdx
  | .byte, i => CpuState.byteReg i
  | _, i => i

-- its lowest bit there: AH, CH, DH and BH start at bit 8
def regShift : Width → RegIdx → Nat
  | .byte, i => CpuState.byteShift i
  | _, _ => 0

theorem regShift_le (w : Width) (i : RegIdx) : regShift w i + w.bits ≤ 32 := by
  have hi := i.isLt
  cases w with
  | byte =>
      show 8 * (i.val / 4) + 8 ≤ 32
      omega
  | word => exact (by decide : 0 + 16 ≤ 32)
  | long => exact Nat.le_refl 32

/-- `n` bits of `r` from `sh` on replaced, the way the C code masks and ors. -/
theorem getLsbD_replace {n : Nat} (r : BitVec 32) (v : BitVec n) (sh b : Nat)
    (hn : sh + n ≤ 32) :
    ((r &&& ~~~((BitVec.allOnes n).setWidth 32 <<< sh)) ||| (v.setWidth 32 <<< sh)).getLsbD b
      = if sh ≤ b ∧ b < sh + n then v.getLsbD (b - sh) else r.getLsbD b := by
  rw [BitVec.getLsbD_or, BitVec.getLsbD_and, BitVec.getLsbD_not, BitVec.getLsbD_shiftLeft,
    BitVec.getLsbD_shiftLeft, BitVec.getLsbD_setWidth, BitVec.getLsbD_setWidth,
    BitVec.getLsbD_allOnes]
  by_cases h32 : b < 32
  · by_cases hlo : sh ≤ b
    · by_cases hhi : b < sh + n
      · have hsub : b - sh < n := by omega
        have hsub' : b - sh < 32 := by omega
        simp [h32, hlo, hhi, hsub, hsub', Nat.not_lt.mpr hlo]
      · have hsub : ¬ b - sh < n := by omega
        simp [h32, hlo, hhi, hsub, BitVec.getLsbD_of_ge v (b - sh) (by omega)]
    · simp [h32, hlo, Nat.lt_of_not_le hlo]
  · rw [if_neg (by omega), BitVec.getLsbD_of_ge r b (by omega)]
    simp [h32]

section RegBits

variable (c : CpuState) (w : Width) (i : RegIdx)

theorem getLsbD_reg (b : Nat) : (c.reg w i).getLsbD b
    = (decide (b < w.bits) && (c.gpr (regHome w i)).getLsbD (regShift w i + b)) := by
  cases w with
  | byte =>
      show (BitVec.setWidth 8 _).getLsbD b = _
      rw [BitVec.getLsbD_setWidth, BitVec.getLsbD_ushiftRight]
      rfl
  | word =>
      show (BitVec.setWidth 16 _).getLsbD b = (decide (b < 16) && (c.gpr i).getLsbD (0 + b))
      rw [BitVec.getLsbD_setWidth, Nat.zero_add]
  | long =>
      show (c.gpr i).getLsbD b = (decide (b < 32) && (c.gpr i).getLsbD (0 + b))
      by_cases h : b < 32
      · rw [decide_eq_true h, Bool.true_and, Nat.zero_add]
      · rw [decide_eq_false h, Bool.false_and, BitVec.getLsbD_of_ge _ _ (by omega)]

/-- All three register writes replace the bits of a part of a 32-bit register. -/
theorem gpr_setReg (v : BitVec w.bits) :
    (c.setReg w i v).gpr = Function.update c.gpr (regHome w i)
      ((c.gpr (regHome w i) &&& ~~~((BitVec.allOnes w.bits).setWidth 32 <<< regShift w i))
        ||| (v.setWidth 32 <<< regShift w i)) := by
  cases w with
  | byte => rfl
  | word =>
      have hshift : regShift .word i = 0 := rfl
      rw [hshift, BitVec.shiftLeft_zero, BitVec.shiftLeft_zero]
      rfl
  | long =>
      have hmask : ~~~((BitVec.allOnes Width.long.bits).setWidth 32) = 0#32 := by decide
      have hshift : regShift .long i = 0 := rfl
      rw [hshift, BitVec.shiftLeft_zero, BitVec.shiftLeft_zero, hmask, BitVec.and_zero,
        BitVec.zero_or]
      exact congrArg (Function.update c.gpr i) (BitVec.setWidth_eq v).symm

/-- A register write replaces the bits of its own part of its own register. -/
theorem getLsbD_setReg (v : BitVec w.bits) (j : RegIdx) (b : Nat) :
    ((c.setReg w i v).gpr j).getLsbD b
      = if j = regHome w i ∧ regShift w i ≤ b ∧ b < regShift w i + w.bits
        then v.getLsbD (b - regShift w i) else (c.gpr j).getLsbD b := by
  rw [gpr_setReg]
  by_cases hj : j = regHome w i
  · subst hj
    rw [Function.update_self, getLsbD_replace _ v _ b (regShift_le w i)]
    simp only [true_and]
  · rw [Function.update_of_ne hj, if_neg (fun h => hj h.1)]

/-- Reading back what was written, at every width. -/
theorem reg_setReg (v : BitVec w.bits) : (c.setReg w i v).reg w i = v := by
  refine BitVec.eq_of_getLsbD_eq (fun b hb => ?_)
  rw [getLsbD_reg, getLsbD_setReg, if_pos ⟨rfl, by omega, by omega⟩, decide_eq_true hb,
    Bool.true_and, Nat.add_sub_cancel_left]

end RegBits

/-- An assignment to a 16- or 32-bit register leaves the others alone. -/
theorem gpr_setReg_ne {w : Width} (hw : w ≠ .byte) {c : CpuState} {i j : RegIdx} (h : j ≠ i)
    (v : BitVec w.bits) : (c.setReg w i v).gpr j = c.gpr j := by
  have hhome : regHome w i = i := by
    cases w with
    | byte => exact absurd rfl hw
    | word => rfl
    | long => rfl
  rw [gpr_setReg, hhome, Function.update_of_ne h]

/-! ## Locations -/

namespace OpLoc

/-- The `n`-bit value at a location. -/
def val (w : Width) (s : Emu) : OpLoc → BitVec w.bits
  | reg i => s.cpu.reg w i
  | mem a => BitVec.ofNat w.bits (ByteSeq.load s.mem a.toNat w.bytes)
  | imm v => v.setWidth w.bits

/-- The state after an `n`-bit value was left at a location. -/
def put (w : Width) (v : BitVec w.bits) (s : Emu) : OpLoc → Emu
  | reg i => { s with cpu := s.cpu.setReg w i v }
  | mem a => { s with mem := ByteSeq.store s.mem a.toNat w.bytes v.toNat }
  | imm _ => s

-- a memory operand lies inside the memory
def Accessible (w : Width) : OpLoc → Prop
  | mem a => InRange a w.bytes
  | _ => True

instance (w : Width) : (l : OpLoc) → Decidable (l.Accessible w)
  | reg _ => .isTrue trivial
  | mem a => inferInstanceAs (Decidable (InRange a w.bytes))
  | imm _ => .isTrue trivial

-- something can be left there
def IsPlace : OpLoc → Prop
  | imm _ => False
  | _ => True

-- bit `b` of register `j` belongs to the operand
def HoldsBit (w : Width) (j : RegIdx) (b : Nat) : OpLoc → Prop
  | reg i => j = regHome w i ∧ regShift w i ≤ b ∧ b < regShift w i + w.bits
  | _ => False

-- the byte at `x` belongs to the operand
def HoldsByte (w : Width) (x : Nat) : OpLoc → Prop
  | mem a => a.toNat ≤ x ∧ x < a.toNat + w.bytes
  | _ => False

end OpLoc

/-- From `s` to `s'` the `n` bits at `l` became `v`, and nothing else that a program can
    observe changed. -/
structure Writes (w : Width) (l : OpLoc) (v : BitVec w.bits) (s s' : Emu) : Prop where
  value : l.val w s' = v
  regs : ∀ j b, ¬ l.HoldsBit w j b → (s'.cpu.gpr j).getLsbD b = (s.cpu.gpr j).getLsbD b
  mem : ∀ x, ¬ l.HoldsByte w x → s'.mem x = s.mem x
  eip : s'.cpu.eip = s.cpu.eip
  eflags : s'.cpu.eflags = s.cpu.eflags
  nemuState : s'.nemuState = s.nemuState

theorem pow_bytes (w : Width) : 256 ^ w.bytes = 2 ^ w.bits := by cases w <;> rfl

theorem OpLoc.put_writes {w : Width} {l : OpLoc} (hl : l.IsPlace) (v : BitVec w.bits) (s : Emu) :
    Writes w l v s (l.put w v s) := by
  cases l with
  | reg i =>
      refine ⟨reg_setReg s.cpu w i v, ?_, ?_, ?_, eflags_setReg w s.cpu i v, rfl⟩
      · intro j b hb
        exact (getLsbD_setReg s.cpu w i v j b).trans (if_neg hb)
      · exact fun x _ => rfl
      · show (s.cpu.setReg w i v).eip = s.cpu.eip
        cases w <;> rfl
  | mem a =>
      refine ⟨?_, fun _ _ _ => rfl, ?_, rfl, rfl, rfl⟩
      · show BitVec.ofNat w.bits (ByteSeq.load (ByteSeq.store s.mem a.toNat w.bytes v.toNat) _ _) = v
        rw [ByteSeq.load_store_same, pow_bytes, Nat.mod_eq_of_lt v.isLt, BitVec.ofNat_toNat,
          BitVec.setWidth_eq]
      · intro x hx
        apply ByteSeq.store_outside
        by_contra hcon
        exact hx ⟨by omega, by omega⟩
  | imm x => exact hl.elim

-- the value at a location does not depend on the decoded operands
theorem OpLoc.val_congr {w : Width} {l : OpLoc} {s s₀ : Emu} (hcpu : s₀.cpu = s.cpu)
    (hmem : s₀.mem = s.mem) : l.val w s₀ = l.val w s := by
  cases l with
  | reg i => exact congrArg (fun c : CpuState => c.reg w i) hcpu
  | mem a => exact congrArg (fun m => BitVec.ofNat w.bits (ByteSeq.load m a.toNat w.bytes)) hmem
  | imm x => rfl

-- nor on the flags
theorem OpLoc.val_eflags {w : Width} (l : OpLoc) (s : Emu) (f : EFlags) :
    l.val w { s with cpu := { s.cpu with eflags := f } } = l.val w s := by
  cases l with
  | reg i => cases w <;> rfl
  | mem a => rfl
  | imm x => rfl

/-- `Writes` looks at the machine only, not at the decoded operands. -/
theorem Writes.of_machine {w : Width} {l : OpLoc} {v : BitVec w.bits} {s s₀ s₁ s' : Emu}
    (h : Writes w l v s₀ s₁) (hcpu : s₀.cpu = s.cpu) (hmem : s₀.mem = s.mem)
    (hn : s₀.nemuState = s.nemuState) (hcpu' : s'.cpu = s₁.cpu) (hmem' : s'.mem = s₁.mem)
    (hn' : s'.nemuState = s₁.nemuState) : Writes w l v s s' := by
  refine ⟨(OpLoc.val_congr hcpu' hmem').trans h.value, ?_, ?_, ?_, ?_, ?_⟩
  · intro j b hb
    rw [hcpu', ← hcpu]
    exact h.regs j b hb
  · intro x hx
    rw [hmem', ← hmem]
    exact h.mem x hx
  · rw [hcpu', ← hcpu]
    exact h.eip
  · rw [hcpu', ← hcpu]
    exact h.eflags
  · rw [hn', ← hn]
    exact h.nemuState

/-! ## Decoded operands -/

namespace Operands

@[simp] theorem get_set (o : Operands) (x : OpSel) (v : Operand) : (o.set x v).get x = v := by
  cases x <;> rfl

theorem get_set_ne (o : Operands) {x y : OpSel} (h : y ≠ x) (v : Operand) :
    (o.set x v).get y = o.get y := by
  cases x <;> cases y <;> first | rfl | exact absurd rfl h

end Operands

namespace I386

/-- The operand that the `mod` and `R_M` fields of the ModR/M byte at `a` name. -/
def rmLoc (gpr : RegIdx → BitVec 32) (m : FlatMem) (a : Addr) : OpLoc :=
  if byteAt m a / 64 = 3 then .reg (regNo (byteAt m a)) else .mem (effAddr gpr m a)

-- the operand that its `reg` field names
def regLoc (m : FlatMem) (a : Addr) : OpLoc := .reg (regNo (regField m a))

theorem rmLoc_isPlace (gpr : RegIdx → BitVec 32) (m : FlatMem) (a : Addr) :
    (rmLoc gpr m a).IsPlace := by
  rw [rmLoc]
  split <;> exact trivial

end I386

namespace Emu

/-- The operand `x` of `s₁` is the location `l`, with the value it had in `s`. -/
structure Decoded (w : Width) (x : OpSel) (l : OpLoc) (s s₁ : Emu) : Prop where
  loc : (s₁.ops.get x).loc = l
  val : (s₁.ops.get x).val = (l.val w s).setWidth 32
  size : ∀ a, l = .mem a → (s₁.ops.get x).size = w.bytes

section Decoded

variable {w : Width} {x : OpSel} {l : OpLoc} {s s₁ s₂ : Emu}

/-- An operand that later helpers leave alone. -/
theorem Decoded.of_kept (h : Decoded w x l s s₁) (hkeep : s₂.ops.get x = s₁.ops.get x) :
    Decoded w x l s s₂ := by
  refine ⟨?_, ?_, ?_⟩
  · rw [hkeep, h.loc]
  · rw [hkeep, h.val]
  · rw [hkeep]
    exact h.size

/-- An operand decoded after another one. -/
theorem Decoded.of_start (h : Decoded w x l s₁ s₂) (hmach : machine s₁ = machine s) :
    Decoded w x l s s₂ :=
  ⟨h.loc, by rw [h.val, OpLoc.val_congr (congrArg Machine.cpu hmach) (congrArg Machine.mem hmach)],
    h.size⟩

end Decoded

-- a value read from memory is its `n` bits, zero-extended
theorem setWidth_val_mem (w : Width) (s : Emu) (a : Addr) :
    ((OpLoc.mem a).val w s).setWidth 32 = BitVec.ofNat 32 (ByteSeq.load s.mem a.toNat w.bytes) := by
  have hlt := ByteSeq.load_lt s.mem a.toNat w.bytes
  rw [pow_bytes] at hlt
  apply BitVec.eq_of_toNat_eq
  show (BitVec.setWidth 32 (BitVec.ofNat w.bits _)).toNat = _
  rw [BitVec.toNat_setWidth, BitVec.toNat_ofNat, BitVec.toNat_ofNat, Nat.mod_eq_of_lt hlt]

theorem readSizedReg_run (w : Width) (i : RegIdx) (s : Emu) :
    readSizedReg w.bytes i s = .ok ((s.cpu.reg w i).setWidth 32, s) := by
  cases w with
  | byte => rfl
  | word => rfl
  | long => exact congrArg (fun v => Except.ok (v, s)) (BitVec.setWidth_eq (s.cpu.gpr i)).symm

theorem readReg32_run (w : Width) (i : RegIdx) (s : Emu) :
    readReg32 w i s = .ok ((s.cpu.reg w i).setWidth 32, s) := by
  rw [readReg32, run_bind_ok (readReg_run ..), run_pure]

/-! ## The decode helpers -/

-- `s` with the value of operand `x`, or its size
def valAt (s : Emu) (x : OpSel) (v : BitVec 32) : Emu :=
  { s with ops := s.ops.set x { s.ops.get x with val := v } }

def sizeAt (s : Emu) (x : OpSel) (n : Nat) : Emu :=
  { s with ops := s.ops.set x { s.ops.get x with size := n } }

section Operands

variable (s : Emu) (x y : OpSel) (l : OpLoc) (v : BitVec 32) (n : Nat)

theorem setLoc_locAt : setLoc x l s = .ok ((), locAt s x l) := rfl

theorem setVal_valAt : setVal x v s = .ok ((), valAt s x v) := rfl

theorem setSize_sizeAt : setSize x n s = .ok ((), sizeAt s x n) := rfl

@[simp] theorem machine_locAt : machine (locAt s x l) = machine s := machine_setOp ..

@[simp] theorem machine_valAt : machine (valAt s x v) = machine s := machine_setOp ..

@[simp] theorem machine_sizeAt : machine (sizeAt s x n) = machine s := machine_setOp ..

@[simp] theorem get_locAt : (locAt s x l).ops.get x = { s.ops.get x with loc := l } :=
  Operands.get_set ..

@[simp] theorem get_valAt : (valAt s x v).ops.get x = { s.ops.get x with val := v } :=
  Operands.get_set ..

@[simp] theorem get_sizeAt : (sizeAt s x n).ops.get x = { s.ops.get x with size := n } :=
  Operands.get_set ..

variable {x y}

theorem get_locAt_ne (h : y ≠ x) : (locAt s x l).ops.get y = s.ops.get y :=
  Operands.get_set_ne _ h _

theorem get_valAt_ne (h : y ≠ x) : (valAt s x v).ops.get y = s.ops.get y :=
  Operands.get_set_ne _ h _

end Operands

section Decode

variable {w : Width} {eip : Addr} {s : Emu} {rm reg : OpSel}

/-- `read_ModR_M` with the operand size set. -/
theorem readModRM_run (hne : rm ≠ reg) (hsize : (s.ops.get rm).size = w.bytes)
    (hin : InRange eip (modrmLength s.mem eip))
    (hacc : (rmLoc s.cpu.gpr s.mem eip).Accessible w) :
    ∃ s₁, readModRM eip rm reg s = .ok (modrmLength s.mem eip, s₁) ∧ machine s₁ = machine s ∧
      Decoded w rm (rmLoc s.cpu.gpr s.mem eip) s s₁ ∧
      (s₁.ops.get reg).loc = regLoc s.mem eip := by
  let m : ModRM := ⟨s.mem eip.toNat⟩
  have hfetch : fetchModRM eip s = .ok (m, s) := fetchModRM_run (hin.mono (modrmLength_pos _ _))
  have hreg : OpLoc.reg m.reg = regLoc s.mem eip :=
    congrArg OpLoc.reg (Fin.ext (Nat.mod_mod _ _).symm)
  -- the register operand first
  let s₁ := locAt s reg (.reg m.reg)
  have hget₁ : s₁.ops.get rm = s.ops.get rm := get_locAt_ne s _ hne
  rw [readModRM, run_bind_ok hfetch, run_bind_ok (setLoc_locAt ..)]
  by_cases h3 : m.mod = 3
  · -- then a register
    have h3' : byteAt s.mem eip / 64 = 3 := h3
    have hlen : modrmLength s.mem eip = 1 := by rw [modrmLength, if_pos h3']
    have hloc : rmLoc s.cpu.gpr s.mem eip = .reg m.rm := by
      rw [rmLoc, if_pos h3']
      rfl
    let s₂ := locAt s₁ rm (.reg m.rm)
    have hread : readSizedReg (s₂.ops.get rm).size m.rm s₂
        = .ok ((s.cpu.reg w m.rm).setWidth 32, s₂) := by
      rw [get_locAt, hget₁, hsize]
      exact readSizedReg_run w m.rm s₂
    rw [if_pos h3, run_bind_ok (setLoc_locAt ..), run_bind_ok (getOp_run ..), run_bind_ok hread,
      run_bind_ok (setVal_valAt ..), run_pure, hlen, hloc]
    refine ⟨_, rfl, ?_, ⟨?_, ?_, ?_⟩, ?_⟩
    · rw [machine_valAt, machine_locAt, machine_locAt]
    · rw [get_valAt, get_locAt]
    · rw [get_valAt]
      rfl
    · exact fun a h => OpLoc.noConfusion h
    · rw [get_valAt_ne _ _ hne.symm, get_locAt_ne _ _ hne.symm, get_locAt, hreg]
  · -- or memory
    have h3' : byteAt s.mem eip / 64 ≠ 3 := h3
    have hloc : rmLoc s.cpu.gpr s.mem eip = .mem (effAddr s.cpu.gpr s.mem eip) := by
      rw [rmLoc, if_neg h3']
    rw [hloc] at hacc ⊢
    have hload : loadAddr eip m rm s₁ = .ok (modrmLength s.mem eip,
        locAt s₁ rm (.mem (effAddr s.cpu.gpr s.mem eip))) := loadAddr_run rm rfl h3 hin
    generalize hs₂ : locAt s₁ rm (.mem (effAddr s.cpu.gpr s.mem eip)) = s₂ at hload
    have hget₂ : s₂.ops.get rm = { s.ops.get rm with
        loc := .mem (effAddr s.cpu.gpr s.mem eip) } := by
      rw [← hs₂, get_locAt, hget₁]
    have hmem₂ : s₂.mem = s.mem := by
      rw [← hs₂]
      rfl
    have hread : swaddrRead (effAddr s.cpu.gpr s.mem eip) w.bytes s₂
        = .ok (((OpLoc.mem (effAddr s.cpu.gpr s.mem eip)).val w s).setWidth 32, s₂) := by
      rw [setWidth_val_mem]
      exact swaddrRead_run (accessLen_bytes w) (read_eq_ok.mpr ⟨hacc, by rw [hmem₂]⟩)
    rw [if_neg h3, run_bind_ok hload, run_bind_ok (getOp_run ..), hget₂]
    dsimp only
    rw [hsize, run_bind_ok hread, run_bind_ok (setVal_valAt ..), run_pure]
    refine ⟨_, rfl, ?_, ⟨?_, ?_, ?_⟩, ?_⟩
    · rw [machine_valAt, ← hs₂, machine_locAt, machine_locAt]
    · rw [get_valAt, hget₂]
    · rw [get_valAt]
    · intro a _
      rw [get_valAt, hget₂, hsize]
    · rw [get_valAt_ne _ _ hne.symm, ← hs₂, get_locAt_ne _ _ hne.symm, get_locAt, hreg]

/-- The operand size, ModR/M with what belongs to it, and the value of the register. -/
theorem decodeRmInternal_run (hne : rm ≠ reg) (hin : InRange eip (modrmLength s.mem eip))
    (hacc : (rmLoc s.cpu.gpr s.mem eip).Accessible w) :
    ∃ s₁, decodeRmInternal w eip rm reg s = .ok (modrmLength s.mem eip, s₁) ∧
      machine s₁ = machine s ∧ Decoded w rm (rmLoc s.cpu.gpr s.mem eip) s s₁ ∧
      Decoded w reg (regLoc s.mem eip) s s₁ := by
  have hsize : ((sizeAt s rm w.bytes).ops.get rm).size = w.bytes := by rw [get_sizeAt]
  obtain ⟨s₁, hread, hmach, ⟨hloc, hval, hsz⟩, hreg⟩ :=
    readModRM_run (s := sizeAt s rm w.bytes) hne hsize hin hacc
  rw [machine_sizeAt] at hmach
  have hcpu : s₁.cpu = s.cpu := congrArg Machine.cpu hmach
  have hregOf : regOf (s₁.ops.get reg) s₁ = .ok (regNo (regField s.mem eip), s₁) := by
    rw [regOf, hreg]
    rfl
  rw [decodeRmInternal, run_bind_ok (setSize_sizeAt ..), run_bind_ok hread,
    run_bind_ok (getOp_run ..), run_bind_ok hregOf, run_bind_ok (readReg32_run ..),
    run_bind_ok (setVal_valAt ..), run_pure]
  refine ⟨_, rfl, ?_, ⟨?_, ?_, ?_⟩, ⟨?_, ?_, ?_⟩⟩
  · rw [machine_valAt, hmach]
  · rw [get_valAt_ne _ _ hne]
    exact hloc
  · rw [get_valAt_ne _ _ hne]
    exact hval
  · rw [get_valAt_ne _ _ hne]
    exact hsz
  · rw [get_valAt]
    exact hreg
  · rw [get_valAt, hcpu]
    rfl
  · exact fun a h => OpLoc.noConfusion h

-- the immediate of `n` bytes at an address
def immLoc (m : FlatMem) (a : Addr) (n : Nat) : OpLoc :=
  .imm (BitVec.ofNat 32 (ByteSeq.load m a.toNat n))

-- an immediate is the `n`-bit value of its own bytes
theorem val_immLoc (w : Width) (s : Emu) (a : Addr) :
    (immLoc s.mem a w.bytes).val w s = (OpLoc.mem a).val w s :=
  BitVec.setWidth_ofNat_of_le w.bits_le _

theorem decodeI_decoded (hin : InRange eip w.bytes) :
    ∃ s₁, decodeI w eip s = .ok (w.bytes, s₁) ∧ machine s₁ = machine s ∧
      Decoded w .src (immLoc s.mem eip w.bytes) s s₁ ∧
      ∀ x, x ≠ .src → s₁.ops.get x = s.ops.get x := by
  rw [decodeI, run_bind_ok (instrFetch_run (accessLen_bytes w) hin),
    run_bind_ok (setLoc_locAt ..), run_bind_ok (setVal_valAt ..), run_pure]
  refine ⟨_, rfl, ?_, ⟨?_, ?_, ?_⟩, ?_⟩
  · rw [machine_valAt, machine_locAt]
  · rw [get_valAt, get_locAt]
    rfl
  · rw [get_valAt, val_immLoc, setWidth_val_mem]
  · exact fun a h => OpLoc.noConfusion h
  · intro x hx
    rw [get_valAt_ne _ _ hx, get_locAt_ne _ _ hx]

-- the accumulator
theorem decodeA_run (x : OpSel) :
    ∃ s₁, decodeA w x s = .ok (0, s₁) ∧ machine s₁ = machine s ∧
      Decoded w x (.reg R_EAX) s s₁ := by
  rw [decodeA, run_bind_ok (setLoc_locAt ..), run_bind_ok (readReg32_run ..),
    run_bind_ok (setVal_valAt ..), run_pure]
  refine ⟨_, rfl, ?_, ⟨?_, ?_, ?_⟩⟩
  · rw [machine_valAt, machine_locAt]
  · rw [get_valAt, get_locAt]
  · rw [get_valAt]
    rfl
  · exact fun a h => OpLoc.noConfusion h

-- the register in the opcode
theorem decodeRInternal_run (x : OpSel) :
    ∃ s₁, decodeRInternal w x s = .ok (0, s₁) ∧ machine s₁ = machine s ∧
      Decoded w x (.reg (regNo s.ops.opcode.toNat)) s s₁ := by
  rw [decodeRInternal, run_bind_ok (getOps_run s), run_bind_ok (setLoc_locAt ..),
    run_bind_ok (readReg32_run ..), run_bind_ok (setVal_valAt ..), run_pure]
  refine ⟨_, rfl, ?_, ⟨?_, ?_, ?_⟩⟩
  · rw [machine_valAt, machine_locAt]
  · rw [get_valAt, get_locAt]
    rfl
  · rw [get_valAt]
    rfl
  · exact fun a h => OpLoc.noConfusion h

end Decode

/-! ## The two-operand forms -/

/-- The decode helpers with a source and a destination. -/
inductive TwoOp where
  | r2rm
  | rm2r
  | i2rm
  | i2r
  | i2a
deriving DecidableEq, Repr

namespace TwoOp

def decode : TwoOp → Width → Addr → EmuM Nat
  | r2rm => decodeR2rm
  | rm2r => decodeRm2r
  | i2rm => decodeI2rm
  | i2r => decodeI2r
  | i2a => decodeI2a

/-- The destination of a form whose operands are encoded from `b` on. -/
def dest (s : Emu) (b : Addr) : TwoOp → OpLoc
  | r2rm | i2rm => rmLoc s.cpu.gpr s.mem b
  | rm2r => regLoc s.mem b
  | i2r => .reg (regNo s.ops.opcode.toNat)
  | i2a => .reg R_EAX

def src (w : Width) (s : Emu) (b : Addr) : TwoOp → OpLoc
  | r2rm => regLoc s.mem b
  | rm2r => rmLoc s.cpu.gpr s.mem b
  | i2rm => immLoc s.mem (b + BitVec.ofNat 32 (modrmLength s.mem b)) w.bytes
  | i2r | i2a => immLoc s.mem b w.bytes

def len (w : Width) (s : Emu) (b : Addr) : TwoOp → Nat
  | r2rm | rm2r => modrmLength s.mem b
  | i2rm => modrmLength s.mem b + w.bytes
  | i2r | i2a => w.bytes

section

variable {w : Width} {s : Emu} {b : Addr}

theorem dest_isPlace (f : TwoOp) : (f.dest s b).IsPlace := by
  cases f with
  | r2rm | i2rm => exact rmLoc_isPlace ..
  | rm2r | i2r | i2a => exact trivial

/-- Every form decodes its two operands and changes nothing else. -/
theorem decode_run (f : TwoOp) (hin : InRange b (f.len w s b))
    (hdest : (f.dest s b).Accessible w) (hsrc : (f.src w s b).Accessible w) :
    ∃ s₁, f.decode w b s = .ok (f.len w s b, s₁) ∧ machine s₁ = machine s ∧
      Decoded w .dest (f.dest s b) s s₁ ∧ Decoded w .src (f.src w s b) s s₁ := by
  cases f with
  | r2rm =>
      have hne : OpSel.dest ≠ OpSel.src := OpSel.noConfusion
      exact decodeRmInternal_run hne hin hdest
  | rm2r =>
      have hne : OpSel.src ≠ OpSel.dest := OpSel.noConfusion
      obtain ⟨s₁, hdec, hmach, hl, hd⟩ := decodeRmInternal_run hne hin hsrc
      exact ⟨s₁, hdec, hmach, hd, hl⟩
  | i2rm =>
      have hne : OpSel.dest ≠ OpSel.src2 := OpSel.noConfusion
      obtain ⟨s₁, hrm, hmach₁, hd, -⟩ :=
        decodeRmInternal_run hne (hin.mono (Nat.le_add_right _ _)) hdest
      have hmem₁ : s₁.mem = s.mem := congrArg Machine.mem hmach₁
      obtain ⟨s₂, himm, hmach₂, hl, hkeep⟩ :=
        decodeI_decoded (s := s₁) (hin.part (k := modrmLength s.mem b) (Nat.le_refl _))
      rw [hmem₁] at hl
      refine ⟨s₂, ?_, hmach₂.trans hmach₁, hd.of_kept (hkeep .dest OpSel.noConfusion),
        hl.of_start hmach₁⟩
      show decodeI2rm w b s = _
      rw [decodeI2rm, run_bind_ok hrm, run_bind_ok himm, run_pure]
      rfl
  | i2r =>
      obtain ⟨s₁, hreg, hmach₁, hd⟩ := decodeRInternal_run (w := w) (s := s) .dest
      have hmem₁ : s₁.mem = s.mem := congrArg Machine.mem hmach₁
      obtain ⟨s₂, himm, hmach₂, hl, hkeep⟩ := decodeI_decoded (s := s₁) hin
      rw [hmem₁] at hl
      refine ⟨s₂, ?_, hmach₂.trans hmach₁, hd.of_kept (hkeep .dest OpSel.noConfusion),
        hl.of_start hmach₁⟩
      show decodeI2r w b s = _
      rw [decodeI2r, run_bind_ok hreg]
      exact himm
  | i2a =>
      obtain ⟨s₁, hreg, hmach₁, hd⟩ := decodeA_run (w := w) (s := s) .dest
      have hmem₁ : s₁.mem = s.mem := congrArg Machine.mem hmach₁
      obtain ⟨s₂, himm, hmach₂, hl, hkeep⟩ := decodeI_decoded (s := s₁) hin
      rw [hmem₁] at hl
      refine ⟨s₂, ?_, hmach₂.trans hmach₁, hd.of_kept (hkeep .dest OpSel.noConfusion),
        hl.of_start hmach₁⟩
      show decodeI2a w b s = _
      rw [decodeI2a, run_bind_ok hreg]
      exact himm

end

end TwoOp

/-- The decode helpers of the unary operations. -/
inductive OneOp where
  | rm
  | r
deriving DecidableEq, Repr

namespace OneOp

def decode : OneOp → Width → Addr → EmuM Nat
  | rm => decodeRm
  | r => decodeR

def loc (s : Emu) (b : Addr) : OneOp → OpLoc
  | rm => rmLoc s.cpu.gpr s.mem b
  | r => .reg (regNo s.ops.opcode.toNat)

def len (s : Emu) (b : Addr) : OneOp → Nat
  | rm => modrmLength s.mem b
  | r => 0

theorem loc_isPlace (f : OneOp) (s : Emu) (b : Addr) : (f.loc s b).IsPlace := by
  cases f with
  | rm => exact rmLoc_isPlace ..
  | r => exact trivial

theorem decode_run (f : OneOp) {w : Width} {s : Emu} {b : Addr} (hin : Covers b (f.len s b))
    (hacc : (f.loc s b).Accessible w) :
    ∃ s₁, f.decode w b s = .ok (f.len s b, s₁) ∧ machine s₁ = machine s ∧
      Decoded w .src (f.loc s b) s s₁ := by
  cases f with
  | rm =>
      have hne : OpSel.src ≠ OpSel.src2 := OpSel.noConfusion
      obtain ⟨s₁, hdec, hmach, hl, -⟩ :=
        decodeRmInternal_run hne (hin.inRange (modrmLength_pos _ _)) hacc
      exact ⟨s₁, hdec, hmach, hl⟩
  | r => exact decodeRInternal_run .src

end OneOp

/-! ## Writing an operand -/

section Write

variable {w : Width} {s : Emu}

theorem writeOperand_put {o : Operand} {l : OpLoc} (hloc : o.loc = l)
    (hsize : ∀ a, l = .mem a → o.size = w.bytes) (hacc : l.Accessible w) (hl : l.IsPlace)
    (v : BitVec w.bits) : writeOperand w o v s = .ok ((), l.put w v s) := by
  rw [writeOperand, hloc]
  cases l with
  | reg i => rfl
  | mem a =>
      dsimp only
      rw [hsize a rfl]
      have hv : (v.setWidth 32).toNat = v.toNat := BitVec.toNat_setWidth_of_le w.bits_le
      have hwrite : s.mem.write a w.bytes (v.setWidth 32)
          = .ok (ByteSeq.store s.mem a.toNat w.bytes v.toNat) :=
        write_eq_ok.mpr ⟨hacc, by rw [hv]⟩
      exact memW_run hwrite
  | imm x => exact hl.elim

/-- The end of the arithmetic and logic templates: the result is stored, then the flags
    are set. -/
theorem writeOperand_flags {o : Operand} {l : OpLoc} (hloc : o.loc = l)
    (hsize : ∀ a, l = .mem a → o.size = w.bytes) (hacc : l.Accessible w) (hl : l.IsPlace)
    (v : BitVec w.bits) (g : EFlags → EFlags) {k : EmuM Unit}
    (hk : ∀ t, k t = .ok ((), { t with cpu := { t.cpu with eflags := g t.cpu.eflags } })) :
    ∃ s', (do writeOperand w o v; k) s = .ok ((), s') ∧ l.val w s' = v ∧
      s'.cpu.eflags = g s.cpu.eflags := by
  have hput := OpLoc.put_writes hl v s
  rw [run_bind_ok (writeOperand_put hloc hsize hacc hl v), hk]
  refine ⟨_, rfl, ?_, ?_⟩
  · exact (OpLoc.val_eflags l (l.put w v s) _).trans hput.value
  · exact congrArg g hput.eflags

-- a template: the decode helper, then the body
theorem idex_run {dec : Addr → EmuM Nat} {ex : EmuM Unit} {eip : Addr} {s₁ s₂ : Emu} {n : Nat}
    (hdec : dec (eip + 1) s = .ok (n, s₁)) (hex : ex s₁ = .ok ((), s₂)) :
    idex dec ex eip s = .ok (n + 1, s₂) := by
  rw [idex, run_bind_ok hdec, run_bind_ok hex, run_pure]

end Write

end Emu

end Nemu
