/-
  Nemu.Cpu.PushPop

  `k` register pushes followed by `k` register pops, executed from memory.

  With 32-bit operands they refine a stack of lists: `StackInv` relates the slots below the
  first stack pointer to a list, a push is a cons and a pop takes the head.  With 16-bit
  operands `push` moves ESP by four bytes all the same, so no such run is right.
-/

import Nemu.Cpu.CallRet
import Nemu.Cpu.ExecRun
import Nemu.Cpu.StackRead
import Nemu.Lib.DetSystem
import Nemu.Lib.DownStack

namespace Nemu

open Outcome FlatMem I386 Emu DetSystem DownStack

/-! ## Programs of pushes and pops -/

inductive StackOp where
  | push (r : RegIdx)
  | pop (r : RegIdx)
deriving DecidableEq, Repr

namespace StackOp

/-- The encoding, with the operand-size prefix for 16-bit operands. -/
def bytes (op16 : Bool) (op : StackOp) : List Nat :=
  let opcode := match op with
    | push r => 0x50 + r.val
    | pop r => 0x58 + r.val
  if op16 then [0x66, opcode] else [opcode]

-- the value pushed, or the value delivered
def value (w : Width) (s s' : Emu) : StackOp → BitVec w.bits
  | push r => s.cpu.reg w r
  | pop r => s'.cpu.reg w r

end StackOp

-- the bytes at `a`
def CodeAt (m : FlatMem) (a : Addr) : List Nat → Prop
  | [] => True
  | b :: bs => byteAt m a = b ∧ CodeAt m (a + 1) bs

/-- One step of the main loop, with the value that was moved and by how much ESP was. -/
def stackStep (w : Width) (fuel : Nat) (s : Emu) (op : StackOp) :
    Except Abort ((BitVec w.bits × Addr) × Emu) := do
  let (_, s') ← advance (exec fuel) s
  return ((op.value w s s', esp s' - esp s), s')

/-- The program of a push for each of `rs` and a pop for each of `ds` is at EIP, with the
    slots it needs below ESP, in memory and apart from the code. -/
structure PushPopCode (op16 : Bool) (rs ds : List RegIdx) (s : Emu) : Prop where
  size : s.ops.is_operand_size_16 = false
  code : CodeAt s.mem s.cpu.eip ((rs.map StackOp.push ++ ds.map StackOp.pop).flatMap (·.bytes op16))
  range : InRange s.cpu.eip ((rs.map StackOp.push ++ ds.map StackOp.pop).flatMap (·.bytes op16)).length
  room : (opWidth op16).bytes * rs.length ≤ (esp s).toNat
  top : (esp s).toNat ≤ HW_MEM_SIZE
  apart : s.cpu.eip.toNat
        + ((rs.map StackOp.push ++ ds.map StackOp.pop).flatMap (·.bytes op16)).length
      ≤ (esp s).toNat - (opWidth op16).bytes * rs.length ∨ (esp s).toNat ≤ s.cpu.eip.toNat

/-- The pushes from `s` to `mid` and the pops from there to `s'` are a stack: last in, first
    out, a slot for each value, and nothing else in memory changed. -/
structure Lifo (w : Width) (fuel : Nat) (rs ds : List RegIdx) (s mid s' : Emu)
    (os os' : List (BitVec w.bits × Addr)) : Prop where
  pushes : run (stackStep w fuel) s (rs.map .push) = .ok (os, mid)
  pops : run (stackStep w fuel) mid (ds.map .pop) = .ok (os', s')
  values : os'.map Prod.fst = (os.map Prod.fst).reverse
  down : ∀ o ∈ os, o.2 = -BitVec.ofNat 32 w.bytes
  up : ∀ o ∈ os', o.2 = BitVec.ofNat 32 w.bytes
  esp : esp s' = esp s
  mem : ∀ x, x < (Nemu.esp s).toNat - w.bytes * rs.length ∨ (Nemu.esp s).toNat ≤ x →
    s'.mem x = s.mem x

/-! ## One push, one pop -/

section Step

variable {s s' : Emu} {r d : RegIdx} {a : Addr}

-- the opcode rows of `push` and `pop` of a register
theorem push_entry : ∀ r : RegIdx, opcodeTable.getD (0x50 + r.val) Instr.inv = .instr .pushRV := by
  decide

theorem pop_entry :
    ∀ r : RegIdx, r ≠ R_ESP → opcodeTable.getD (0x58 + r.val) Instr.inv = .instr .popRV := by
  decide

theorem regNo_push : ∀ r : RegIdx, regNo (BitVec.ofNat 32 (0x50 + r.val)).toNat = r := by decide

theorem regNo_pop : ∀ r : RegIdx, regNo (BitVec.ofNat 32 (0x58 + r.val)).toNat = r := by decide

theorem stackPtr_long (c : CpuState) : stackPtr .long c = c.gpr R_ESP := BitVec.setWidth_eq _

/-- The body of `push`: ESP moves by four bytes at every width. -/
theorem doPush_eq {w : Width} (hw : w ≠ .byte) : doPush w s
    = memW .long (esp s - 4) (s.ops.get .src).val
        (setEsp (valAt s .src (s.ops.get .src).val) (esp s - 4)) := by
  rw [doPush, run_bind_ok (getOp_run ..)]
  simp only [if_neg hw]
  rfl

/-- `push %r` with 16- or 32-bit operands moves ESP down by four bytes, if it completes. -/
theorem push_ok {w : Width} {n : Nat} (hw : w ≠ .byte)
    (h : idex (decodeR w) (doPush w) a s = .ok (n, s')) : esp s' = esp s - 4 := by
  obtain ⟨s₁, hdec, hmach, -⟩ := decodeRInternal_run (w := w) (s := s) .src
  obtain ⟨u, s₂, hpush, hend⟩ := run_bind_eq_ok.mp ((run_bind_ok hdec).symm.trans h)
  cases hend
  rw [doPush_eq hw] at hpush
  obtain ⟨m, -, rfl⟩ := memW_ok hpush
  have hesp : esp s₁ = esp s := congrArg (fun c : CpuState => c.gpr R_ESP) (congrArg Machine.cpu hmach)
  rw [← hesp]
  exact esp_setEsp _ _

/-- `push %r` with 32-bit operands, run. -/
theorem push_run (hr : regNo s.ops.opcode.toNat = r) (hslot : InRange (esp s - 4) 4) :
    ∃ s', idex (decodeR .long) (doPush .long) a s = .ok (1, s') ∧
      s'.cpu = s.cpu.setReg .long R_ESP (esp s - (4 : Addr)) ∧
      s'.mem = ByteSeq.store s.mem (esp s - 4).toNat 4 (s.cpu.gpr r).toNat ∧
      s'.ops.is_operand_size_16 = s.ops.is_operand_size_16 := by
  obtain ⟨s₁, hdec, hmach, hsrc⟩ := decodeRInternal_run (w := .long) (s := s) .src
  have hcpu : s₁.cpu = s.cpu := congrArg Machine.cpu hmach
  have hmem : s₁.mem = s.mem := congrArg Machine.mem hmach
  have hesp : esp s₁ = esp s := congrArg (fun c : CpuState => c.gpr R_ESP) hcpu
  have hval : (s₁.ops.get .src).val = s.cpu.gpr r := by
    rw [hsrc.val, hr]
    exact BitVec.setWidth_eq _
  have hlong : Width.long ≠ .byte := by decide
  have hbody := doPush_eq (s := s₁) hlong
  rw [hesp, hval] at hbody
  have hwrite : s₁.mem.write (esp s - 4) 4 (s.cpu.gpr r)
      = .ok (ByteSeq.store s.mem (esp s - 4).toNat 4 (s.cpu.gpr r).toNat) :=
    write_eq_ok.mpr ⟨hslot, by rw [hmem]⟩
  refine ⟨_, idex_run hdec (hbody.trans (memW_run hwrite)), ?_, rfl, ?_⟩
  · exact congrArg (fun c : CpuState => c.setReg .long R_ESP (esp s - (4 : Addr))) hcpu
  · exact congrArg Machine.is_operand_size_16 hmach

/-- `pop %d` with 32-bit operands, not into ESP, run. -/
theorem pop_long_run (hd : regNo s.ops.opcode.toNat = d) (hne : d ≠ R_ESP)
    (hslot : InRange (esp s) 4) :
    ∃ s', idex (decodeR .long) (doPop .long) a s = .ok (1, s') ∧ esp s' = esp s + 4 ∧
      s'.cpu.gpr d = BitVec.ofNat 32 (ByteSeq.load s.mem (esp s).toNat 4) ∧
      s'.cpu.eip = s.cpu.eip ∧ s'.mem = ByteSeq.store s.mem (esp s).toNat 4 0 ∧
      s'.ops.is_operand_size_16 = s.ops.is_operand_size_16 := by
  have hlong : Width.long ≠ .byte := by decide
  have hsp : (popped .long d s).gpr R_ESP = esp s := gpr_setReg_ne hlong hne.symm _
  have hptr : stackPtr .long (popped .long d s) = esp s := (stackPtr_long _).trans hsp
  obtain ⟨s', hrun, hmach⟩ := pop_run (a := a) hd
    (by rw [stackPtr_long]; exact hslot) (by rw [hptr]; exact hslot)
  have hcpu : s'.cpu = (popAt .long d s).cpu := congrArg Machine.cpu hmach
  have hmem : s'.mem = (popAt .long d s).mem := congrArg Machine.mem hmach
  refine ⟨s', hrun, ?_, ?_, ?_, ?_, congrArg Machine.is_operand_size_16 hmach⟩
  · rw [esp, hcpu]
    have hnew : (popAt .long d s).cpu.gpr R_ESP = (popped .long d s).gpr R_ESP + 4 :=
      reg_setReg _ .long R_ESP _
    rw [hnew, hsp]
  · rw [hcpu]
    have hval : (popAt .long d s).cpu.gpr d = (popped .long d s).gpr d := gpr_setReg_ne hlong hne _
    have hload : (popped .long d s).gpr d = (OpLoc.mem (stackPtr .long s.cpu)).val .long s :=
      reg_setReg s.cpu .long d _
    rw [hval, hload, stackPtr_long]
    rfl
  · rw [hcpu]
    exact (eip_setReg ..).trans (eip_setReg ..)
  · rw [hmem, popAt, hptr]
    rfl

end Step

/-! ## From the helper to the main loop -/

section Advance

variable {s s₁ s' : Emu} {fuel n : Nat}

-- EIP moved over the instruction just executed
def stepped (s : Emu) (n : Nat) : Emu :=
  { s with cpu := { s.cpu with eip := s.cpu.eip + BitVec.ofNat 32 n } }

theorem advance_eq_ok {f : Addr → EmuM Nat} :
    advance f s = .ok (n, s') ↔ ∃ s₁, f s.cpu.eip s = .ok (n, s₁) ∧ s' = stepped s₁ n := by
  apply Iff.intro
  · intro h
    obtain ⟨cpu, s₀, hcpu, hrun⟩ := run_bind_eq_ok.mp h
    cases hcpu
    obtain ⟨k, s₂, hf, hrest⟩ := run_bind_eq_ok.mp hrun
    cases hrest
    exact ⟨s₂, hf, rfl⟩
  · rintro ⟨s₁, hf, rfl⟩
    rw [advance, run_bind_ok (getCpu_run s), run_bind_ok hf, run_bind_ok (modifyCpu_run _ s₁)]
    rfl

/-- A step of the program is `exec` at EIP, and EIP moved by the length. -/
theorem stackStep_eq_ok {w : Width} {op : StackOp} {o : BitVec w.bits × Addr} :
    stackStep w fuel s op = .ok (o, s') ↔ ∃ n s₁, exec fuel s.cpu.eip s = .ok (n, s₁) ∧
      s' = stepped s₁ n ∧ o = (op.value w s s', esp s' - esp s) := by
  rw [stackStep, bind_eq_ok]
  apply Iff.intro
  · rintro ⟨⟨n, s₂⟩, hadv, hret⟩
    obtain ⟨s₁, hexec, rfl⟩ := advance_eq_ok.mp hadv
    obtain ⟨rfl, rfl⟩ := Prod.mk.inj (pure_eq_ok.mp hret)
    exact ⟨n, s₁, hexec, rfl, rfl⟩
  · rintro ⟨n, s₁, hexec, rfl, rfl⟩
    exact ⟨(n, stepped s₁ n), advance_eq_ok.mpr ⟨s₁, hexec, rfl⟩, rfl⟩

/-- The code behind the first byte, and in another memory. -/
theorem CodeAt.frame {m m' : FlatMem} {bs : List Nat} {a : Addr} (h : CodeAt m a bs)
    (hin : InRange a bs.length)
    (hsame : ∀ x, a.toNat ≤ x → x < a.toNat + bs.length → m' x = m x) : CodeAt m' a bs := by
  induction bs generalizing a with
  | nil => exact trivial
  | cons b bs ih =>
      rw [List.length_cons] at hin hsame
      have hnext := hin.toNat_add (k := 1) (by omega)
      refine ⟨?_, ih h.2 (hin.part (k := 1) (by omega)) (fun x hlo hhi => hsame x ?_ ?_)⟩
      · rw [byteAt, hsame _ (Nat.le_refl _) (by omega)]
        exact h.1
      · change (a + 1).toNat ≤ x at hlo
        change (a + 1).toNat = _ at hnext
        omega
      · change x < (a + 1).toNat + _ at hhi
        change (a + 1).toNat = _ at hnext
        omega

end Advance

/-! ## The stack as a list -/

/-- With 32-bit operands: the stack over `s₀` holds `vs` and the program still to run is
    `prog`. -/
structure StackInv (s₀ : Emu) (k : Nat) (vs : List (BitVec 32)) (prog : List StackOp) (s : Emu) :
    Prop where
  size : s.ops.is_operand_size_16 = false
  room : 4 * k ≤ (esp s₀).toNat
  top : (esp s₀).toNat ≤ HW_MEM_SIZE
  sp : (esp s).toNat + 4 * vs.length = (esp s₀).toNat
  slots : Holds s.mem 4 (esp s₀).toNat (vs.map BitVec.toNat)
  others : ∀ x, x < (esp s₀).toNat - 4 * k ∨ (esp s₀).toNat ≤ x → s.mem x = s₀.mem x
  code : CodeAt s.mem s.cpu.eip (prog.flatMap (·.bytes false))
  range : InRange s.cpu.eip (prog.flatMap (·.bytes false)).length
  apart : s.cpu.eip.toNat + (prog.flatMap (·.bytes false)).length ≤ (esp s₀).toNat - 4 * k
      ∨ (esp s₀).toNat ≤ s.cpu.eip.toNat

section Stack

variable {s₀ s s₁ : Emu} {k n : Nat} {vs vs' : List (BitVec 32)} {op : StackOp}
  {prog : List StackOp}

-- the program behind an operation: one byte further on
theorem StackInv.next (h : StackInv s₀ k vs (op :: prog) s)
    (hsize : s₁.ops.is_operand_size_16 = false) (heip : s₁.cpu.eip = s.cpu.eip)
    (hsp : (esp s₁).toNat + 4 * vs'.length = (esp s₀).toNat)
    (hslots : Holds s₁.mem 4 (esp s₀).toNat (vs'.map BitVec.toNat))
    (hframe : ∀ x, x < (esp s₀).toNat - 4 * k ∨ (esp s₀).toNat ≤ x → s₁.mem x = s.mem x) :
    StackInv s₀ k vs' prog (stepped s₁ 1) := by
  have hlen : ((op :: prog).flatMap (·.bytes false)).length
      = (prog.flatMap (·.bytes false)).length + 1 := by
    cases op <;> rfl
  have hrange := h.range
  have hapart := h.apart
  have hcode : CodeAt s.mem (s.cpu.eip + 1) (prog.flatMap (·.bytes false)) := by
    cases op <;> exact h.code.2
  rw [hlen] at hrange hapart
  have hpc : (s₁.cpu.eip + BitVec.ofNat 32 1).toNat = s.cpu.eip.toNat + 1 := by
    rw [heip]
    exact hrange.toNat_add (by omega)
  have hnext : InRange (s.cpu.eip + 1) (prog.flatMap (·.bytes false)).length :=
    hrange.part (k := 1) (by omega)
  refine ⟨hsize, h.room, h.top, hsp, hslots, fun x hx => (hframe x hx).trans (h.others x hx), ?_, ?_, ?_⟩
  · have hkept : CodeAt s₁.mem (s.cpu.eip + 1) (prog.flatMap (·.bytes false)) := by
      refine hcode.frame hnext (fun x hlo hhi => hframe x ?_)
      change (s.cpu.eip + BitVec.ofNat 32 1).toNat ≤ x at hlo
      change x < (s.cpu.eip + BitVec.ofNat 32 1).toNat + _ at hhi
      rw [← heip, hpc] at hlo hhi
      omega
    rw [← heip] at hkept
    exact hkept
  · rw [← heip] at hnext
    exact hnext
  · show (s₁.cpu.eip + BitVec.ofNat 32 1).toNat + _ ≤ _ ∨ _ ≤ (s₁.cpu.eip + BitVec.ofNat 32 1).toNat
    rw [hpc]
    omega

/-- A push is a cons. -/
theorem StackInv.push {fuel : Nat} {r : RegIdx} (h : StackInv s₀ k vs (.push r :: prog) s)
    (hfuel : 0 < fuel) (hroom : vs.length < k) :
    ∃ s', stackStep .long fuel s (.push r) = .ok ((s.cpu.gpr r, -4), s') ∧
      StackInv s₀ k (s.cpu.gpr r :: vs) prog s' := by
  obtain ⟨fuel, rfl⟩ : ∃ f, fuel = f + 1 := ⟨fuel - 1, by omega⟩
  have hspace := h.room
  have htop := h.top
  have hsp := h.sp
  have hesp : (esp s - 4).toNat + 4 * (vs.length + 1) = (esp s₀).toNat := by
    rw [BitVec.toNat_sub_of_le (by rw [BitVec.le_def]; simp; omega)]
    simp
    omega
  have hslot : InRange (esp s - 4) 4 := by
    rw [InRange]
    omega
  have hbyte : byteAt s.mem s.cpu.eip = 0x50 + r.val := h.code.1
  have hin : InRange s.cpu.eip 1 := h.range.mono (by simp [StackOp.bytes])
  obtain ⟨s₁, hrun, hcpu, hmem, hsize⟩ := push_run (s := opcodeAt s (0x50 + r.val)) (a := s.cpu.eip)
    (regNo_push r) hslot
  have hsize₀ : (opcodeAt s (0x50 + r.val)).ops.is_operand_size_16 = false := h.size
  have hexec : exec (fuel + 1) s.cpu.eip s = .ok (1, s₁) := by
    rw [exec_run fuel hin, hbyte, push_entry]
    exact (Transfer.helperV_long hsize₀ (fun w => idex (decodeR w) (doPush w)) _).trans hrun
  have hesp₁ : esp s₁ = esp s - 4 := by
    rw [esp, hcpu]
    exact reg_setReg _ .long R_ESP _
  have haddr : (esp s₀).toNat - 4 * (vs.length + 1) = (esp s - 4).toNat := by omega
  refine ⟨stepped s₁ 1, stackStep_eq_ok.mpr ⟨1, s₁, hexec, rfl, ?_⟩,
    h.next (hsize.trans h.size) ?_ ?_ ?_ ?_⟩
  · have hmove : esp (stepped s₁ 1) - esp s = -4 := by
      change esp s₁ - esp s = -4
      rw [hesp₁, BitVec.sub_sub, BitVec.add_comm, ← BitVec.sub_sub, BitVec.sub_self]
      rfl
    rw [hmove]
    rfl
  · rw [hcpu]
    exact eip_setReg ..
  · rw [hesp₁]
    exact hesp
  · have hpush := h.slots.push (v := (s.cpu.gpr r).toNat) (s.cpu.gpr r).isLt
      (by rw [List.length_map]; omega)
    rw [List.length_map, haddr] at hpush
    rw [hmem]
    exact hpush
  · intro x hx
    rw [hmem]
    exact ByteSeq.store_outside (show x < (esp s - 4).toNat ∨ (esp s - 4).toNat + 4 ≤ x by omega)

/-- A pop takes the head. -/
theorem StackInv.pop {fuel : Nat} {d : RegIdx} {v : BitVec 32}
    (h : StackInv s₀ k (v :: vs) (.pop d :: prog) s) (hfuel : 0 < fuel) (hk : vs.length < k)
    (hd : d ≠ R_ESP) :
    ∃ s', stackStep .long fuel s (.pop d) = .ok ((v, 4), s') ∧ StackInv s₀ k vs prog s' := by
  obtain ⟨fuel, rfl⟩ : ∃ f, fuel = f + 1 := ⟨fuel - 1, by omega⟩
  have hspace := h.room
  have htop := h.top
  have hsp := h.sp
  rw [List.length_cons] at hsp
  have hlt : (esp s₀).toNat < 2 ^ 32 := (esp s₀).isLt
  have hslot : InRange (esp s) 4 := by
    rw [InRange]
    omega
  have hesp : (esp s + 4).toNat + 4 * vs.length = (esp s₀).toNat := by
    have hadd := hslot.toNat_add (k := 4) (Nat.le_refl _)
    change (esp s + 4).toNat = _ at hadd
    omega
  have hbyte : byteAt s.mem s.cpu.eip = 0x58 + d.val := h.code.1
  have hin : InRange s.cpu.eip 1 := h.range.mono (by simp [StackOp.bytes])
  obtain ⟨s₁, hrun, hesp₁, hval, heip, hmem, hsize⟩ := pop_long_run
    (s := opcodeAt s (0x58 + d.val)) (a := s.cpu.eip) (regNo_pop d) hd hslot
  have hsize₀ : (opcodeAt s (0x58 + d.val)).ops.is_operand_size_16 = false := h.size
  have hexec : exec (fuel + 1) s.cpu.eip s = .ok (1, s₁) := by
    rw [exec_run fuel hin, hbyte, pop_entry d hd]
    exact (Transfer.helperV_long hsize₀ (fun w => idex (decodeR w) (doPop w)) _).trans hrun
  have haddr : (esp s₀).toNat - 4 * (vs.length + 1) = (esp s).toNat := by omega
  obtain ⟨htopv, hrest⟩ := h.slots
  rw [List.length_map, haddr] at htopv
  have hfound : s₁.cpu.gpr d = v := by
    rw [hval]
    exact (congrArg (BitVec.ofNat 32) htopv).trans ((BitVec.ofNat_toNat 32 v).trans (BitVec.setWidth_eq v))
  refine ⟨stepped s₁ 1, stackStep_eq_ok.mpr ⟨1, s₁, hexec, rfl, ?_⟩,
    h.next (hsize.trans h.size) heip ?_ ?_ ?_⟩
  · have hmove : esp (stepped s₁ 1) - esp s = 4 := by
      change esp s₁ - esp s = 4
      rw [hesp₁]
      change esp s + 4 - esp s = 4
      rw [BitVec.add_comm, BitVec.add_sub_cancel]
    rw [hmove]
    exact congrArg (fun u => (u, (4 : Addr))) hfound.symm
  · rw [hesp₁]
    exact hesp
  · rw [hmem]
    exact hrest.store (by rw [List.length_map]; omega)
      (Or.inl (by rw [List.length_map]; change (esp s).toNat + 4 ≤ _; omega))
  · intro x hx
    rw [hmem]
    exact ByteSeq.store_outside (show x < (esp s).toNat ∨ (esp s).toNat + 4 ≤ x by omega)

/-- Pushes cons their values, the last one on top. -/
theorem StackInv.pushes {fuel : Nat} (hfuel : 0 < fuel) {rs : List RegIdx}
    (h : StackInv s₀ k vs (rs.map .push ++ prog) s) (hroom : vs.length + rs.length ≤ k) :
    ∃ (os : List (BitVec 32 × Addr)) (mid : Emu),
      run (stackStep .long fuel) s (rs.map .push) = .ok (os, mid) ∧
      StackInv s₀ k ((os.map Prod.fst).reverse ++ vs) prog mid ∧ os.length = rs.length ∧
      ∀ o ∈ os, o.2 = -4 := by
  induction rs generalizing vs s with
  | nil => exact ⟨[], s, rfl, h, rfl, nofun⟩
  | cons r rs ih =>
      rw [List.length_cons] at hroom
      obtain ⟨s₁, hstep, h₁⟩ := h.push hfuel (by omega)
      obtain ⟨os, mid, hrun, hmid, hlen, hdown⟩ := ih h₁ (by rw [List.length_cons]; omega)
      refine ⟨(s.cpu.gpr r, -4) :: os, mid, run_cons_ok.mpr ⟨_, s₁, os, hstep, hrun, rfl⟩, ?_, ?_, ?_⟩
      · rw [List.map_cons, List.reverse_cons, List.append_assoc]
        exact hmid
      · rw [List.length_cons, List.length_cons, hlen]
      · exact List.forall_mem_cons.mpr ⟨rfl, hdown⟩

/-- Pops take the values off in order. -/
theorem StackInv.pops {fuel : Nat} (hfuel : 0 < fuel) {ds : List RegIdx}
    (h : StackInv s₀ k vs (ds.map .pop) s) (hlen : vs.length = ds.length) (hk : vs.length ≤ k)
    (hds : ∀ d ∈ ds, d ≠ R_ESP) :
    ∃ (os : List (BitVec 32 × Addr)) (s' : Emu),
      run (stackStep .long fuel) s (ds.map .pop) = .ok (os, s') ∧
      StackInv s₀ k [] [] s' ∧ os.map Prod.fst = vs ∧ ∀ o ∈ os, o.2 = 4 := by
  induction ds generalizing vs s with
  | nil =>
      obtain rfl := List.eq_nil_of_length_eq_zero hlen
      exact ⟨[], s, rfl, h, rfl, nofun⟩
  | cons d ds ih =>
      obtain ⟨v, vs, rfl⟩ := List.exists_cons_of_length_eq_add_one hlen
      obtain ⟨hd, hds⟩ := List.forall_mem_cons.mp hds
      obtain ⟨s₁, hstep, h₁⟩ := h.pop hfuel hk hd
      obtain ⟨os, s', hrun, hend, hvals, hup⟩ := ih h₁ (Nat.succ.inj hlen) (Nat.le_of_lt hk) hds
      refine ⟨(v, 4) :: os, s', run_cons_ok.mpr ⟨_, s₁, os, hstep, hrun, rfl⟩, hend, ?_, ?_⟩
      · exact congrArg (v :: ·) hvals
      · exact List.forall_mem_cons.mpr ⟨rfl, hup⟩

end Stack

/-! ## Both operand sizes -/

section Sizes

variable {s s' : Emu} {rs ds : List RegIdx} {fuel : Nat}

/-- The 32-bit program starts as an empty stack. -/
theorem PushPopCode.start (h : PushPopCode false rs ds s) :
    StackInv s rs.length [] (rs.map .push ++ ds.map .pop) s where
  size := h.size
  room := h.room
  top := h.top
  sp := Nat.add_zero _
  slots := trivial
  others := fun _ _ => rfl
  code := h.code
  range := h.range
  apart := h.apart

/-- With 32-bit operands the program is a stack. -/
theorem PushPopCode.lifo (h : PushPopCode false rs ds s) (hfuel : 0 < fuel)
    (hlen : ds.length = rs.length) (hds : ∀ d ∈ ds, d ≠ R_ESP) :
    ∃ os mid os' s', Lifo .long fuel rs ds s mid s' os os' := by
  obtain ⟨os, mid, hpush, hmid, hos, hdown⟩ := h.start.pushes hfuel (by simp)
  rw [List.append_nil] at hmid
  obtain ⟨os', s', hpop, hend, hvals, hup⟩ := hmid.pops hfuel (by simp [hos, hlen]) (by simp [hos]) hds
  refine ⟨os, mid, os', s', hpush, hpop, hvals, hdown, hup, ?_, hend.others⟩
  exact BitVec.eq_of_toNat_eq hend.sp

-- the operand-size prefix, taken apart
theorem exec_operandSize_ok {a : Addr} {n : Nat} (hb : byteAt s.mem a = 0x66) (hin : InRange a 1)
    (h : exec (fuel + 1) a s = .ok (n, s')) :
    ∃ m s₂, exec fuel (a + 1) (op16At (opcodeAt s 0x66) true) = .ok (m, s₂) ∧
      s' = op16At s₂ false := by
  have hentry : opcodeTable.getD 0x66 Instr.inv = .operandSize := by decide
  rw [exec_run fuel hin, hb, hentry] at h
  obtain ⟨u, s₁, hset, h⟩ := run_bind_eq_ok.mp h
  cases hset
  obtain ⟨m, s₂, hexec, h⟩ := run_bind_eq_ok.mp h
  cases h
  exact ⟨m, s₂, hexec, rfl⟩

/-- With 16-bit operands a push that completes moves ESP by four bytes. -/
theorem push_word_moves {r : RegIdx} {bs : List Nat} {o : BitVec 16 × Addr}
    (hcode : CodeAt s.mem s.cpu.eip (0x66 :: (0x50 + r.val) :: bs)) (hin : InRange s.cpu.eip 2)
    (h : stackStep .word (fuel + 2) s (.push r) = .ok (o, s')) : o.2 = -4 := by
  obtain ⟨hsize, hop, -⟩ := hcode
  obtain ⟨n, s₁, hexec, rfl, rfl⟩ := stackStep_eq_ok.mp h
  obtain ⟨m, s₂, hrest, rfl⟩ := exec_operandSize_ok hsize (hin.mono (by omega)) hexec
  have hin' : InRange (s.cpu.eip + 1) 1 := hin.part (k := 1) (Nat.le_refl 2)
  have hop' : byteAt (op16At (opcodeAt s 0x66) true).mem (s.cpu.eip + 1) = 0x50 + r.val := hop
  rw [exec_run fuel hin', hop', push_entry] at hrest
  have hpush := (helperV_run (fun w => idex (decodeR w) (doPush w)) _ _).symm.trans hrest
  have hesp : esp s₂ = esp s - 4 := push_ok (w := .word)
    (s := opcodeAt (op16At (opcodeAt s 0x66) true) (0x50 + r.val)) (by decide) hpush
  change esp s₂ - esp s = -4
  rw [hesp, BitVec.sub_sub, BitVec.add_comm, ← BitVec.sub_sub, BitVec.sub_self]
  rfl

/-- With 16-bit operands no program with a push in it is a stack of two-byte slots. -/
theorem PushPopCode.not_lifo {mid : Emu} {os os' : List (BitVec 16 × Addr)} {r : RegIdx}
    (h : PushPopCode true (r :: rs) ds s) (hfuel : 2 ≤ fuel) :
    ¬ Lifo .word fuel (r :: rs) ds s mid s' os os' := by
  intro hlifo
  obtain ⟨fuel, rfl⟩ : ∃ f, fuel = f + 2 := ⟨fuel - 2, by omega⟩
  obtain ⟨o, s₁, os₁, hstep, -, rfl⟩ := run_cons_ok.mp hlifo.pushes
  have hmoved : o.2 = -4 := push_word_moves h.code
    (h.range.mono (by simp [StackOp.bytes])) hstep
  have hdown : o.2 = -BitVec.ofNat 32 2 := hlifo.down o (List.mem_cons_self ..)
  rw [hmoved] at hdown
  exact absurd hdown (by decide)

end Sizes

/-- A push for each of `rs` and a pop for each of `ds` are last in, first out, with a slot of
    the operand size for each value, exactly with 32-bit operands, or when there are none. -/
theorem pushPop_lifo_iff (op16 : Bool) (rs ds : List RegIdx) (s : Emu) (fuel : Nat)
    (hfuel : 2 ≤ fuel) (hlen : ds.length = rs.length) (hds : ∀ d ∈ ds, d ≠ R_ESP)
    (hcode : PushPopCode op16 rs ds s) :
    (∃ os mid os' s', Lifo (opWidth op16) fuel rs ds s mid s' os os') ↔ op16 = false ∨ rs = [] := by
  cases op16 with
  | false =>
      have hlifo := hcode.lifo (show 0 < fuel by omega) hlen hds
      exact iff_of_true hlifo (Or.inl rfl)
  | true =>
      cases rs with
      | nil =>
          obtain rfl := List.eq_nil_of_length_eq_zero hlen
          refine iff_of_true ⟨[], s, [], s, rfl, rfl, rfl, nofun, nofun, rfl, fun _ _ => rfl⟩ (Or.inr rfl)
      | cons r rs =>
          refine iff_of_false ?_ (by simp)
          rintro ⟨os, mid, os', s', hlifo⟩
          exact hcode.not_lifo hfuel hlifo

-- `bs` at address 0, with a stack below 64
def programAt (bs : List Byte) : Emu := setEsp (Emu.zeroed fun x => bs.getD x 0) 64

-- `push %eax; push %ecx; pop %edx; pop %ebx`
theorem pushPop_lifo_two :
    (∃ os mid os' s', Lifo .long 2 [R_EAX, R_ECX] [R_EDX, R_EBX] (programAt [0x50, 0x51, 0x5a, 0x5b])
      mid s' os os') ↔ false = false ∨ [R_EAX, R_ECX] = [] :=
  pushPop_lifo_iff false [R_EAX, R_ECX] [R_EDX, R_EBX] _ 2 (by decide) rfl (by decide)
    ⟨rfl, ⟨rfl, rfl, rfl, rfl, trivial⟩, by decide, by decide, by decide, by decide⟩

/-- `pushw %ax; popw %cx` is no stack of two-byte slots. -/
theorem pushw_moves_four :
    ¬ ∀ (op16 : Bool) (rs ds : List RegIdx) (s : Emu) (fuel : Nat), 2 ≤ fuel →
      ds.length = rs.length → (∀ d ∈ ds, d ≠ R_ESP) → PushPopCode op16 rs ds s →
      ∃ os mid os' s', Lifo (opWidth op16) fuel rs ds s mid s' os os' := by
  intro h
  have hcode : PushPopCode true [R_EAX] [R_ECX] (programAt [0x66, 0x50, 0x66, 0x59]) :=
    ⟨rfl, ⟨rfl, rfl, rfl, rfl, trivial⟩, by decide, by decide, by decide, by decide⟩
  obtain ⟨os, mid, os', s', hlifo⟩ := h true [R_EAX] [R_ECX] _ 2 (by decide) rfl (by decide) hcode
  exact hcode.not_lifo (by decide) hlifo

end Nemu
