/-
  Nemu.Cpu.RepString

  `rep movs` and `rep stos`: the loop of the `rep` helper around one string
  instruction.

  `repLoop_iterate` follows the loop while an invariant holds.  For the two string
  instructions the invariant gives registers and memory after `i` elements; memory is
  the element-by-element copy or fill, and the loop finds its instruction again because
  no element lies on it.
-/

import Nemu.Cpu.ExecRun
import Nemu.Cpu.Operand
import Nemu.Lib.Strided

namespace Nemu

open Outcome FlatMem I386 Emu Strided

/-! ## The loop -/

section Loop

variable {exec' : Addr → EmuM Nat} {opcodes : List (BitVec 32)} {stop : EFlags → Bool}
  {eip : Addr} {t t₁ : Emu} {len : Nat}

-- a 32-bit register replaced
def gprAt (c : CpuState) (r : RegIdx) (v : BitVec 32) : CpuState :=
  { c with gpr := Function.update c.gpr r v }

-- `cpu.ecx --`
def ecxDown (t : Emu) : Emu := { t with cpu := gprAt t.cpu R_ECX (t.cpu.gpr R_ECX - 1) }

theorem repLoop_done (k : Nat) (hcx : t.cpu.gpr R_ECX = 0) :
    repLoop exec' opcodes stop eip (k + 1) t = .ok ((), t) := by
  rw [repLoop, run_bind_ok (readRegL_run ..), if_pos hcx, run_pure]

theorem repLoop_next (k : Nat) (hcx : t.cpu.gpr R_ECX ≠ 0)
    (hexec : exec' (eip + 1) t = .ok (len, t₁)) (hop : opcodes.contains t₁.ops.opcode = true) :
    repLoop exec' opcodes stop eip (k + 1) t
      = if stop t₁.cpu.eflags then .ok ((), ecxDown t₁)
        else repLoop exec' opcodes stop eip k (ecxDown t₁) := by
  have hdown : writeRegL R_ECX (t₁.cpu.gpr R_ECX - 1) t₁ = .ok ((), ecxDown t₁) := rfl
  have hcheck : check (opcodes.contains (ecxDown t₁).ops.opcode) (ecxDown t₁)
      = .ok ((), ecxDown t₁) := by
    rw [show (ecxDown t₁).ops = t₁.ops from rfl, hop]
    rfl
  rw [repLoop, run_bind_ok (readRegL_run ..), if_neg hcx, run_bind_ok hexec,
    run_bind_ok (readRegL_run ..), run_bind_ok hdown, run_bind_ok (getOps_run _),
    run_bind_ok hcheck, run_bind_ok (getCpu_run _)]
  show (if stop t₁.cpu.eflags then (pure () : EmuM Unit)
    else repLoop exec' opcodes stop eip k) (ecxDown t₁) = _
  cases stop t₁.cpu.eflags <;> rfl

variable (exec' opcodes stop eip)

/-- `n` iterations that keep an invariant and do not stop. -/
theorem repLoop_iterate (I : Nat → Emu → Prop) (n : Nat)
    (hstep : ∀ i t, i < n → I i t → t.cpu.gpr R_ECX ≠ 0 ∧ ∃ len t₁,
      exec' (eip + 1) t = .ok (len, t₁) ∧ opcodes.contains t₁.ops.opcode = true ∧
      stop t₁.cpu.eflags = false ∧ I (i + 1) (ecxDown t₁))
    (h0 : I 0 t) (fuel : Nat) :
    ∃ t', repLoop exec' opcodes stop eip (n + fuel) t = repLoop exec' opcodes stop eip fuel t' ∧
      I n t' := by
  induction n generalizing fuel with
  | zero => exact ⟨t, by rw [Nat.zero_add], h0⟩
  | succ n ih =>
      -- the last iteration comes after the first `n`
      obtain ⟨t', hrun, hI⟩ := ih (fun i t hi => hstep i t (by omega)) (fuel + 1)
      obtain ⟨hcx, len, t₁, hexec, hop, hstop, hnext⟩ := hstep n t' (Nat.lt_succ_self n) hI
      refine ⟨ecxDown t₁, ?_, hnext⟩
      rw [show n + 1 + fuel = n + (fuel + 1) by omega, hrun, repLoop_next fuel hcx hexec hop, hstop]
      rfl

end Loop

/-! ## Counting down in a register -/

section Count

variable {c : BitVec 32} {i : Nat}

theorem sub_ofNat (hi : i ≤ c.toNat) : c - BitVec.ofNat 32 i = BitVec.ofNat 32 (c.toNat - i) := by
  have hlt := c.isLt
  apply BitVec.eq_of_toNat_eq
  rw [BitVec.toNat_sub, BitVec.toNat_ofNat, BitVec.toNat_ofNat]
  omega

-- the count is not zero before the last element
theorem sub_ofNat_ne_zero (hi : i < c.toNat) : c - BitVec.ofNat 32 i ≠ 0 := by
  have hlt := c.isLt
  rw [sub_ofNat (Nat.le_of_lt hi)]
  intro hzero
  have hnat : (c.toNat - i) % 2 ^ 32 = 0 := congrArg BitVec.toNat hzero
  omega

-- and it is zero behind it
theorem sub_ofNat_toNat (c : BitVec 32) : c - BitVec.ofNat 32 c.toNat = 0 := by
  rw [sub_ofNat (Nat.le_refl _), Nat.sub_self]
  rfl

end Count

/-! ## One element -/

/-- The string instructions that only move data. -/
inductive StringOp where
  | movs
  | stos
deriving DecidableEq, Repr

/-- Element `i` of the string that register `r` points to. -/
def element (w : Width) (c : CpuState) (r : RegIdx) (i : Nat) : Addr :=
  elem c.eflags.DF w.bytes (c.gpr r) i

theorem stepIndex_run (w : Width) (r : RegIdx) (t : Emu) : stepIndex w r t
    = .ok ((), { t with cpu := gprAt t.cpu r (element w t.cpu r 1) }) := by
  have hnext : element w t.cpu r 1 = if t.cpu.eflags.DF then t.cpu.gpr r - BitVec.ofNat 32 w.bytes
      else t.cpu.gpr r + BitVec.ofNat 32 w.bytes := by
    rw [element, elem_succ, elem_zero]
  rw [stepIndex, run_bind_ok (getCpu_run t), hnext]
  exact writeRegL_run ..

section Element

variable {w : Width} {t : Emu} (eip : Addr)

theorem movs_run (hsrc : InRange (t.cpu.gpr R_ESI) w.bytes)
    (hdst : InRange (t.cpu.gpr R_EDI) w.bytes) :
    movs w eip t = .ok (1, { t with
      mem := ByteSeq.store t.mem (t.cpu.gpr R_EDI).toNat w.bytes
        (ByteSeq.load t.mem (t.cpu.gpr R_ESI).toNat w.bytes)
      cpu := gprAt (gprAt t.cpu R_ESI (element w t.cpu R_ESI 1)) R_EDI
        (element w t.cpu R_EDI 1) }) := by
  have hread := memR_run (s := t) (read_eq_ok.mpr ⟨hsrc, rfl⟩)
  have hlt := ByteSeq.load_lt t.mem (t.cpu.gpr R_ESI).toNat w.bytes
  have hvalue : (BitVec.ofNat 32 (ByteSeq.load t.mem (t.cpu.gpr R_ESI).toNat w.bytes)).toNat
      = ByteSeq.load t.mem (t.cpu.gpr R_ESI).toNat w.bytes := by
    rw [BitVec.toNat_ofNat, Nat.mod_eq_of_lt]
    exact Nat.lt_of_lt_of_le hlt (by cases w <;> decide)
  have hwrite := memW_run (s := t) (write_eq_ok.mpr ⟨hdst, congrArg (ByteSeq.store t.mem _ _) hvalue⟩)
  rw [movs, run_bind_ok (getCpu_run t), run_bind_ok hread, run_bind_ok hwrite,
    run_bind_ok (stepIndex_run ..), run_bind_ok (stepIndex_run ..), run_pure]
  rfl

theorem stos_run (hdst : InRange (t.cpu.gpr R_EDI) w.bytes) :
    stos w eip t = .ok (1, { t with
      mem := ByteSeq.store t.mem (t.cpu.gpr R_EDI).toNat w.bytes (t.cpu.reg w R_EAX).toNat
      cpu := gprAt t.cpu R_EDI (element w t.cpu R_EDI 1) }) := by
  have hvalue : ((t.cpu.reg w R_EAX).setWidth 32).toNat = (t.cpu.reg w R_EAX).toNat :=
    BitVec.toNat_setWidth_of_le w.bits_le
  have hwrite := memW_run (s := t) (write_eq_ok.mpr ⟨hdst, congrArg (ByteSeq.store t.mem _ _) hvalue⟩)
  rw [stos, run_bind_ok (getCpu_run t), run_bind_ok hwrite, run_bind_ok (stepIndex_run ..),
    run_pure]

namespace StringOp

-- the opcode for bytes; the next one is for the operand size
def opcode : StringOp → Nat
  | movs => 0xa4
  | stos => 0xaa

def helper : StringOp → Width → Addr → EmuM Nat
  | movs => Emu.movs
  | stos => Emu.stos

/-- Memory after `n` elements. -/
def memory (w : Width) (s : Emu) (n : Nat) : StringOp → FlatMem
  | movs => copy w.bytes s.mem (fun i => (element w s.cpu R_ESI i).toNat)
      (fun i => (element w s.cpu R_EDI i).toNat) n
  | stos => fill w.bytes s.mem (fun i => (element w s.cpu R_EDI i).toNat)
      (s.cpu.reg w R_EAX).toNat n

/-- The registers after `n` iterations. -/
def registers (w : Width) (c : CpuState) (n : Nat) (op : StringOp) : RegIdx → BitVec 32 := fun j =>
  if j = R_ECX then c.gpr R_ECX - BitVec.ofNat 32 n
  else if j = R_EDI then element w c R_EDI n
  else if j = R_ESI ∧ op = movs then element w c R_ESI n
  else c.gpr j

end StringOp

/-- From `s`, `i` iterations have led to `t`. -/
structure Iterated (op : StringOp) (w : Width) (s : Emu) (i : Nat) (t : Emu) : Prop where
  cpu : t.cpu = { s.cpu with gpr := op.registers w s.cpu i }
  mem : t.mem = op.memory w s i
  op16 : t.ops.is_operand_size_16 = s.ops.is_operand_size_16
  nemuState : t.nemuState = s.nemuState

/-- The elements `rep` accesses lie in memory. -/
def ElementsIn (op : StringOp) (w : Width) (s : Emu) (n : Nat) : Prop :=
  ∀ i, i < n → InRange (element w s.cpu R_EDI i) w.bytes ∧
    (op = .movs → InRange (element w s.cpu R_ESI i) w.bytes)

end Element

section Registers

variable {op : StringOp} {w : Width} {c : CpuState} {n : Nat}

theorem registers_ecx : op.registers w c n R_ECX = c.gpr R_ECX - BitVec.ofNat 32 n := if_pos rfl

theorem registers_edi : op.registers w c n R_EDI = element w c R_EDI n := by
  rw [StringOp.registers, if_neg (by decide), if_pos rfl]

theorem registers_esi : StringOp.movs.registers w c n R_ESI = element w c R_ESI n := by
  rw [StringOp.registers, if_neg (by decide), if_neg (by decide), if_pos ⟨rfl, rfl⟩]

theorem registers_other {j : RegIdx} (hcx : j ≠ R_ECX) (hdi : j ≠ R_EDI)
    (hsi : ¬ (j = R_ESI ∧ op = .movs)) : op.registers w c n j = c.gpr j := by
  rw [StringOp.registers, if_neg hcx, if_neg hdi, if_neg hsi]

-- before the first element
theorem registers_zero : op.registers w c 0 = c.gpr := by
  have hzero : ∀ r, element w c r 0 = c.gpr r := fun r => elem_zero ..
  have hsub : ∀ v : BitVec 32, v - BitVec.ofNat 32 0 = v := BitVec.sub_zero
  funext j
  rw [StringOp.registers, hsub, hzero, hzero]
  by_cases hcx : j = R_ECX
  · rw [if_pos hcx, hcx]
  · rw [if_neg hcx]
    by_cases hdi : j = R_EDI
    · rw [if_pos hdi, hdi]
    · rw [if_neg hdi]
      by_cases hsi : j = R_ESI ∧ op = .movs
      · rw [if_pos hsi, hsi.1]
      · rw [if_neg hsi]

end Registers

section Iterate

variable {op : StringOp} {w : Width} {s t : Emu} {i : Nat}

theorem Iterated.zero (op : StringOp) (w : Width) (s : Emu) : Iterated op w s 0 s := by
  refine ⟨?_, ?_, rfl, rfl⟩
  · rw [registers_zero]
  · cases op <;> rfl

theorem Iterated.gpr (h : Iterated op w s i t) : t.cpu.gpr = op.registers w s.cpu i := by
  rw [h.cpu]

theorem Iterated.eflags (h : Iterated op w s i t) : t.cpu.eflags = s.cpu.eflags := by
  rw [h.cpu]

-- one stride from where the iterations before have led
theorem element_next {r : RegIdx} (hflags : t.cpu.eflags.DF = s.cpu.eflags.DF)
    (hr : t.cpu.gpr r = element w s.cpu r i) : element w t.cpu r 1 = element w s.cpu r (i + 1) := by
  rw [element, element, elem_succ, elem_succ, elem_zero, hr, hflags]
  rfl

-- the accumulator is not one of the counting registers
theorem Iterated.accumulator (h : Iterated op w s i t) : t.cpu.reg w R_EAX = s.cpu.reg w R_EAX := by
  have hax : op.registers w s.cpu i R_EAX = s.cpu.gpr R_EAX :=
    registers_other (by decide) (by decide) (fun hsi => absurd hsi.1 (by decide))
  rw [h.cpu]
  cases w with
  | byte => exact congrArg (fun v : BitVec 32 => (v >>> 0).setWidth 8) hax
  | word => exact congrArg (BitVec.setWidth 16) hax
  | long => exact hax

/-- One stride of the pointers and one count less: the registers after one more iteration. -/
theorem Iterated.registers_next (h : Iterated op w s i t) {g : RegIdx → BitVec 32}
    (hcx : g R_ECX = t.cpu.gpr R_ECX - 1) (hdi : g R_EDI = element w t.cpu R_EDI 1)
    (hsi : op = .movs → g R_ESI = element w t.cpu R_ESI 1)
    (hother : ∀ j, j ≠ R_ECX → j ≠ R_EDI → ¬ (j = R_ESI ∧ op = .movs) → g j = t.cpu.gpr j) :
    g = op.registers w s.cpu (i + 1) := by
  have hflags := congrArg EFlags.DF h.eflags
  have hgpr := h.gpr
  funext j
  by_cases h1 : j = R_ECX
  · subst h1
    have hone : BitVec.ofNat 32 (i + 1) = BitVec.ofNat 32 i + 1 := BitVec.ofNat_add i 1
    rw [hcx, hgpr, registers_ecx, registers_ecx, hone, BitVec.sub_sub]
  · by_cases h2 : j = R_EDI
    · subst h2
      have hat : t.cpu.gpr R_EDI = element w s.cpu R_EDI i := by rw [hgpr, registers_edi]
      rw [hdi, registers_edi, element_next hflags hat]
    · by_cases h3 : j = R_ESI ∧ op = .movs
      · obtain ⟨rfl, rfl⟩ := h3
        have hat : t.cpu.gpr R_ESI = element w s.cpu R_ESI i := by rw [hgpr, registers_esi]
        rw [hsi rfl, registers_esi, element_next hflags hat]
      · rw [hother j h1 h2 h3, hgpr, registers_other h1 h2 h3, registers_other h1 h2 h3]

/-- One more element: the helper completes and the iterations are one more once ECX is
    counted down. -/
theorem Iterated.next (h : Iterated op w s i t) (eip : Addr)
    (hdst : InRange (element w s.cpu R_EDI i) w.bytes)
    (hsrc : op = .movs → InRange (element w s.cpu R_ESI i) w.bytes) :
    ∃ t₁, op.helper w eip t = .ok (1, t₁) ∧ t₁.ops = t.ops ∧
      Iterated op w s (i + 1) (ecxDown t₁) := by
  have hgpr := h.gpr
  have hdi : t.cpu.gpr R_EDI = element w s.cpu R_EDI i := by rw [hgpr, registers_edi]
  have hcpu : ∀ g : RegIdx → BitVec 32, { t.cpu with gpr := g } = { s.cpu with gpr := g } := by
    intro g
    rw [h.cpu]
  cases op with
  | movs =>
      have hsi : t.cpu.gpr R_ESI = element w s.cpu R_ESI i := by rw [hgpr, registers_esi]
      refine ⟨_, movs_run eip (by rw [hsi]; exact hsrc rfl) (by rw [hdi]; exact hdst), rfl, ?_⟩
      refine ⟨?_, ?_, h.op16, h.nemuState⟩
      · refine (hcpu _).trans (congrArg (fun g => { s.cpu with gpr := g }) ?_)
        refine h.registers_next ?_ ?_ (fun _ => ?_) ?_
        · rfl
        · rfl
        · rfl
        · intro j h1 h2 h3
          have h3' : j ≠ R_ESI := fun hj => h3 ⟨hj, rfl⟩
          show Function.update (Function.update (Function.update _ _ _) _ _) _ _ j = _
          rw [Function.update_of_ne h1, Function.update_of_ne h2, Function.update_of_ne h3']
      · show ByteSeq.store t.mem _ _ _ = _
        rw [hdi, hsi, h.mem]
        rfl
  | stos =>
      refine ⟨_, stos_run eip (by rw [hdi]; exact hdst), rfl, ?_⟩
      refine ⟨?_, ?_, h.op16, h.nemuState⟩
      · refine (hcpu _).trans (congrArg (fun g => { s.cpu with gpr := g }) ?_)
        refine h.registers_next ?_ ?_ (fun hop => StringOp.noConfusion hop) ?_
        · rfl
        · rfl
        · intro j h1 h2 _
          show Function.update (Function.update _ _ _) _ _ j = _
          rw [Function.update_of_ne h1, Function.update_of_ne h2]
      · show ByteSeq.store t.mem _ _ _ = _
        rw [hdi, h.accumulator, h.mem]
        rfl

end Iterate

/-! ## The loop around it -/

/-- No destination element of `n` lies on the `len` bytes at `a`. -/
def ElementsApart (w : Width) (s : Emu) (n : Nat) (a : Addr) (len : Nat) : Prop :=
  ∀ i, i < n → (element w s.cpu R_EDI i).toNat + w.bytes ≤ a.toNat ∨
    a.toNat + len ≤ (element w s.cpu R_EDI i).toNat

section Loop

variable {op : StringOp} {w : Width} {s t : Emu} {a : Addr} {n k : Nat}

theorem StringOp.memory_outside {x : Nat} (h : ∀ i, i < n →
      x < (element w s.cpu R_EDI i).toNat ∨ (element w s.cpu R_EDI i).toNat + w.bytes ≤ x) :
    op.memory w s n x = s.mem x := by
  cases op with
  | movs => exact copy_outside h
  | stos => exact fill_outside h

-- a string instruction behind the prefix, the first byte of its pair or the second
theorem Sized.opcode (hop : Sized s.mem s.ops.is_operand_size_16 a op.opcode w) :
    byteAt s.mem a ≠ 0xc3 ∧ repOpcodes.contains (BitVec.ofNat 32 (byteAt s.mem a)) = true := by
  rcases hop with ⟨hb, -⟩ | ⟨hb, -⟩ <;> rw [hb] <;> cases op <;> exact ⟨by decide, rfl⟩

/-- `exec` on the string instruction is its helper. -/
theorem exec_string (hop : Sized s.mem s.ops.is_operand_size_16 a op.opcode w)
    (hin : InRange a 1) :
    exec (k + 1) a s = op.helper w a (opcodeAt s (byteAt s.mem a)) := by
  cases op with
  | movs => exact exec_sized k .movsB .movsV hop rfl rfl rfl rfl hin
  | stos => exact exec_sized k .stosB .stosV hop rfl rfl rfl rfl hin

/-- One iteration. -/
theorem Iterated.exec_next {i : Nat} (h : Iterated op w s i t) (hi : i < n)
    (hop : Sized s.mem s.ops.is_operand_size_16 a op.opcode w) (hin : InRange a 1)
    (hel : ElementsIn op w s n) (hapart : ElementsApart w s n a 1) :
    ∃ len t₁, exec (k + 1) a t = .ok (len, t₁) ∧
      repOpcodes.contains t₁.ops.opcode = true ∧ Iterated op w s (i + 1) (ecxDown t₁) := by
  -- the instruction is still there
  have hbyte : byteAt t.mem a = byteAt s.mem a := by
    rw [byteAt, byteAt, h.mem, StringOp.memory_outside]
    intro j hj
    have hj := hapart j (Nat.lt_trans hj hi)
    omega
  have hop' : Sized t.mem t.ops.is_operand_size_16 a op.opcode w := by
    rw [Sized, hbyte, h.op16]
    exact hop
  have hat : Iterated op w s i (opcodeAt t (byteAt t.mem a)) := ⟨h.cpu, h.mem, h.op16, h.nemuState⟩
  obtain ⟨t₁, hrun, hops, hnext⟩ := hat.next a (hel i hi).1 (hel i hi).2
  refine ⟨1, t₁, (exec_string hop' hin).trans hrun, ?_, hnext⟩
  rw [hops]
  exact (Sized.opcode hop').2

/-- The loop runs until ECX is 0. -/
theorem repLoop_run (hop : Sized s.mem s.ops.is_operand_size_16 (a + 1) op.opcode w)
    (hin : InRange (a + 1) 1) (hel : ElementsIn op w s (s.cpu.gpr R_ECX).toNat)
    (hapart : ElementsApart w s (s.cpu.gpr R_ECX).toNat (a + 1) 1)
    (hk : (s.cpu.gpr R_ECX).toNat ≤ k) :
    ∃ t, repLoop (exec (k + 1)) repOpcodes (fun _ => false) a (k + 1) s = .ok ((), t) ∧
      Iterated op w s (s.cpu.gpr R_ECX).toNat t := by
  have hstep : ∀ i t, i < (s.cpu.gpr R_ECX).toNat → Iterated op w s i t →
      t.cpu.gpr R_ECX ≠ 0 ∧ ∃ len t₁, exec (k + 1) (a + 1) t = .ok (len, t₁) ∧
        repOpcodes.contains t₁.ops.opcode = true ∧ false = false ∧
        Iterated op w s (i + 1) (ecxDown t₁) := by
    intro i t hi h
    obtain ⟨len, t₁, hexec, hopcode, hnext⟩ := h.exec_next hi hop hin hel hapart
    refine ⟨?_, len, t₁, hexec, hopcode, rfl, hnext⟩
    rw [h.gpr, registers_ecx]
    exact sub_ofNat_ne_zero hi
  obtain ⟨j, hj⟩ : ∃ j, k + 1 = (s.cpu.gpr R_ECX).toNat + (j + 1) :=
    ⟨k - (s.cpu.gpr R_ECX).toNat, by omega⟩
  obtain ⟨t, hrun, hend⟩ := repLoop_iterate (exec (k + 1)) repOpcodes (fun _ => false) a
    (Iterated op w s) _ hstep (Iterated.zero op w s) (j + 1)
  have hcx : t.cpu.gpr R_ECX = 0 := by
    rw [hend.gpr, registers_ecx, sub_ofNat_toNat]
  refine ⟨t, ?_, hend⟩
  rw [← hj] at hrun
  rw [hrun]
  exact repLoop_done j hcx

/-- `rep`, in front of an instruction other than `ret`, is the loop. -/
theorem exec_rep (hb : byteAt s.mem a = 0xf3) (hnext : byteAt s.mem (a + 1) ≠ 0xc3)
    (hin : InRange a 2) :
    exec (k + 1) a s
      = (do repLoop (exec k) repOpcodes (fun _ => false) a k; return 2) (opcodeAt s 0xf3) := by
  have hin₁ : InRange (a + 1) 1 := hin.part (k := 1) (Nat.le_refl 2)
  have hentry : opcodeTable.getD 0xf3 Instr.inv = .rep := rfl
  have hret : BitVec.ofNat 32 (byteAt s.mem (a + 1)) ≠ 0xc3 := by
    intro heq
    exact hnext ((toNat_byteAt _ _).symm.trans (congrArg BitVec.toNat heq))
  rw [exec_run k (hin.mono (by omega)), hb, hentry]
  show rep (exec k) k a _ = _
  rw [rep, run_bind_ok (instrFetch_run rfl hin₁), load_one]
  exact congrFun (if_neg hret) _

end Loop

/-! ## The whole instruction -/

/-- At `a` stands the string instruction under `rep`, with any number of operand-size
    prefixes in front; the instruction takes `len` bytes. -/
inductive RepAt (m : FlatMem) (op : StringOp) : Bool → Addr → Width → Nat → Prop where
  | rep {op16 : Bool} {a : Addr} {w : Width} (hb : byteAt m a = 0xf3)
      (hop : Sized m op16 (a + 1) op.opcode w) : RepAt m op op16 a w 2
  | operandSize {op16 : Bool} {a : Addr} {w : Width} {len : Nat} (hb : isOperandSize (byteAt m a))
      (hrest : RepAt m op true (a + 1) w len) : RepAt m op op16 a w (len + 1)

/-- What `rep` of `op` has done from `s` to `s'`. -/
structure RepDone (op : StringOp) (w : Width) (s s' : Emu) : Prop where
  mem : s'.mem = op.memory w s (s.cpu.gpr R_ECX).toNat
  -- each element of a `stos` holds the accumulator in the end
  filled : op = .stos → ∀ i, i < (s.cpu.gpr R_ECX).toNat →
    (OpLoc.mem (element w s.cpu R_EDI i)).val w s' = s.cpu.reg w R_EAX
  outside : ∀ x, (∀ i, i < (s.cpu.gpr R_ECX).toNat →
    x < (element w s.cpu R_EDI i).toNat ∨ (element w s.cpu R_EDI i).toNat + w.bytes ≤ x) →
      s'.mem x = s.mem x
  ecx : s'.cpu.gpr R_ECX = 0
  edi : s'.cpu.gpr R_EDI = element w s.cpu R_EDI (s.cpu.gpr R_ECX).toNat
  esi : op = .movs → s'.cpu.gpr R_ESI = element w s.cpu R_ESI (s.cpu.gpr R_ECX).toNat
  others : ∀ j, j ≠ R_ECX → j ≠ R_EDI → ¬ (j = R_ESI ∧ op = .movs) → s'.cpu.gpr j = s.cpu.gpr j
  eip : s'.cpu.eip = s.cpu.eip
  eflags : s'.cpu.eflags = s.cpu.eflags
  nemuState : s'.nemuState = s.nemuState
  unmoved : s.cpu.gpr R_ECX = 0 → s'.cpu = s.cpu ∧ s'.mem = s.mem

section Whole

variable {op : StringOp} {w : Width} {s s' t : Emu} {a : Addr} {n k : Nat}

-- the elements of a string are the same or apart
theorem element_apart (w : Width) (c : CpuState) (r : RegIdx) (i j : Nat) :
    (element w c r i).toNat = (element w c r j).toNat ∨
      (element w c r i).toNat + w.bytes ≤ (element w c r j).toNat ∨
      (element w c r j).toNat + w.bytes ≤ (element w c r i).toNat := by
  have hdvd : w.bytes ∣ 2 ^ 32 := by cases w <;> decide
  apply eq_or_apart
  rw [element, element, elem_mod _ hdvd, elem_mod _ hdvd]

theorem Iterated.filled (h : Iterated .stos w s n t) {i : Nat} (hi : i < n) :
    (OpLoc.mem (element w s.cpu R_EDI i)).val w t = s.cpu.reg w R_EAX := by
  show BitVec.ofNat w.bits (ByteSeq.load t.mem _ _) = _
  rw [h.mem]
  show BitVec.ofNat w.bits (ByteSeq.load (fill _ _ _ _ _) _ _) = _
  rw [load_fill (fun i j => element_apart w s.cpu R_EDI i j) i hi, pow_bytes,
    Nat.mod_eq_of_lt (BitVec.isLt _), BitVec.ofNat_toNat, BitVec.setWidth_eq]

theorem Iterated.done (h : Iterated op w s (s.cpu.gpr R_ECX).toNat t) : RepDone op w s t where
  mem := h.mem
  filled hop i hi := by
    subst hop
    exact h.filled hi
  outside x hx := by
    rw [h.mem]
    exact StringOp.memory_outside hx
  ecx := by
    rw [h.gpr, registers_ecx, sub_ofNat_toNat]
  edi := by rw [h.gpr, registers_edi]
  esi hop := by
    subst hop
    rw [h.gpr, registers_esi]
  others j h1 h2 h3 := by rw [h.gpr, registers_other h1 h2 h3]
  eip := by rw [h.cpu]
  eflags := h.eflags
  nemuState := h.nemuState
  unmoved hzero := by
    have hcount : (s.cpu.gpr R_ECX).toNat = 0 := by rw [hzero]; rfl
    rw [hcount] at h
    rw [h.cpu, h.mem, registers_zero]
    cases op <;> exact ⟨rfl, rfl⟩

-- the decoded operands do not matter
theorem RepDone.of_machine {s₁ s₁' : Emu} (h : RepDone op w s₁ s₁') (hcpu : s₁.cpu = s.cpu)
    (hmem : s₁.mem = s.mem) (hstate : s₁.nemuState = s.nemuState) (hcpu' : s₁'.cpu = s'.cpu)
    (hmem' : s₁'.mem = s'.mem) (hstate' : s₁'.nemuState = s'.nemuState) : RepDone op w s s' := by
  obtain ⟨cpu, ops, mem, nemuState⟩ := s
  obtain ⟨cpu', ops', mem', nemuState'⟩ := s'
  subst hcpu hmem hstate hcpu' hmem' hstate'
  exact ⟨h.mem.trans (by cases op <;> rfl), h.filled, h.outside, h.ecx, h.edi, h.esi, h.others,
    h.eip, h.eflags, h.nemuState, h.unmoved⟩

theorem RepAt.len_pos {m : FlatMem} {op16 : Bool} {len : Nat} (h : RepAt m op op16 a w len) :
    0 < len := by
  cases h with
  | rep hb hop => exact Nat.succ_pos 1
  | operandSize hb hrest => exact Nat.succ_pos _

-- the elements that miss an instruction miss a part of it
theorem ElementsApart.part {len j : Nat} (h : ElementsApart w s n a len) (hin : InRange a len)
    (hj : k + j ≤ len) : ElementsApart w s n (a + BitVec.ofNat 32 k) j := by
  intro i hi
  have haddr := hin.toNat_add (k := k) (by omega)
  have hi := h i hi
  omega

/-- Under the prefix itself. -/
theorem exec_rep_done (hb : byteAt s.mem a = 0xf3)
    (hop : Sized s.mem s.ops.is_operand_size_16 (a + 1) op.opcode w) (hin : InRange a 2)
    (hel : ElementsIn op w s (s.cpu.gpr R_ECX).toNat)
    (hapart : ElementsApart w s (s.cpu.gpr R_ECX).toNat a 2)
    (hk : (s.cpu.gpr R_ECX).toNat ≤ k) :
    ∃ s', exec (k + 2) a s = .ok (2, s') ∧ RepDone op w s s' := by
  have hin₁ : InRange (a + 1) 1 := hin.part (k := 1) (Nat.le_refl 2)
  have hapart₁ : ElementsApart w s (s.cpu.gpr R_ECX).toNat (a + 1) 1 :=
    hapart.part (k := 1) hin (Nat.le_refl 2)
  obtain ⟨t, hrun, hend⟩ := repLoop_run (s := opcodeAt s 0xf3) hop hin₁ hel hapart₁ hk
  refine ⟨t, ?_, hend.done.of_machine rfl rfl rfl rfl rfl rfl⟩
  rw [exec_rep hb (Sized.opcode hop).1 hin, run_bind_ok hrun, run_pure]

/-- `rep movs` and `rep stos` at every width, with operand-size prefixes in front: `exec`
    returns the length of the instruction, memory is the element-by-element copy, or holds
    the accumulator in every element, EDI and ESI have moved ECX elements, ECX is 0, and
    nothing else changed. -/
theorem exec_repString_done (s : Emu) (a : Addr) (op : StringOp) (w : Width) (len fuel : Nat)
    (hat : RepAt s.mem op s.ops.is_operand_size_16 a w len) (hin : InRange a len)
    (hel : ElementsIn op w s (s.cpu.gpr R_ECX).toNat)
    (hapart : ElementsApart w s (s.cpu.gpr R_ECX).toNat a len)
    (hfuel : (s.cpu.gpr R_ECX).toNat + len ≤ fuel) :
    ∃ s', exec fuel a s = .ok (len, s') ∧ RepDone op w s s' := by
  generalize hm : s.mem = m at hat
  generalize h16 : s.ops.is_operand_size_16 = op16 at hat
  induction hat generalizing s fuel with
  | @rep op16 a w hb hop =>
      subst hm h16
      obtain ⟨k, rfl⟩ : ∃ k, fuel = k + 2 := ⟨fuel - 2, by omega⟩
      exact exec_rep_done hb hop hin hel hapart (by omega)
  | @operandSize op16 a w len hb hrest ih =>
      subst hm h16
      have hpos := hrest.len_pos
      obtain ⟨k, rfl⟩ : ∃ k, fuel = k + 1 := ⟨fuel - 1, by omega⟩
      have hlen : 1 + len ≤ len + 1 := by omega
      obtain ⟨s', hrun, hdone⟩ := ih (op16At (opcodeAt s (byteAt s.mem a)) true) k
        (hin.part (k := 1) hlen) hel (hapart.part (k := 1) hin hlen)
        (Nat.le_of_succ_le_succ hfuel) rfl rfl
      have hexec := exec_operandSize hb (hin.mono (Nat.le_add_left 1 _)) hrun
      exact ⟨_, hexec, hdone.of_machine rfl rfl rfl rfl rfl rfl⟩

-- `rep movsw` of two words, the second read where the first was written
theorem exec_repString_movsw :
    let m : FlatMem := fun i => if i = 0x20 then 0x11 else [0x66, 0xf3, 0xa5].getD i 0
    let s : Emu := { Emu.zeroed m with
      cpu := { (Emu.zeroed m).cpu with
        gpr := fun r => if r = R_ECX then 2 else if r = R_ESI then 0x20 else 0x22 } }
    ∃ s', exec 5 0 s = .ok (3, s') ∧ RepDone .movs .word s s' := by
  intro m s
  have hin : ∀ i, i < 2 → InRange (element .word s.cpu R_EDI i) 2 ∧
      InRange (element .word s.cpu R_ESI i) 2 := by decide
  have hapart : ∀ i, i < 2 → (element .word s.cpu R_EDI i).toNat + 2 ≤ 0 ∨
      0 + 3 ≤ (element .word s.cpu R_EDI i).toNat := by decide
  have hop : Sized m true 2 StringOp.movs.opcode .word := Or.inr (by decide)
  exact exec_repString_done s 0 .movs .word 3 5
    (.operandSize (by decide) (.rep (by decide) hop)) (by decide)
    (fun i hi => ⟨(hin i hi).1, fun _ => (hin i hi).2⟩) hapart (Nat.le_refl 5)

end Whole

end Nemu
