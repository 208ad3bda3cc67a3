/-
  Nemu.Cpu.StackRead

  The instructions that take something off the stack: `pop` into a register, `ret`, `ret`
  with an immediate, and `leave`.

  On the i386 they only read memory.  Here `pop` stores a zero where it popped, and `ret`
  with an immediate stores zeros over the arguments it skips; `ret` and `leave` leave memory
  alone.  `ClearsTo` says what such stores do, and when they do nothing.
-/

import Nemu.Cpu.Operand
import Nemu.Cpu.ExecLength
import Nemu.Lib.Strided

namespace Nemu

open Outcome FlatMem I386 Emu

/-! ## Storing zeros -/

/-- `m'` is `m` with the bytes of `P` cleared. -/
def ClearsTo (P : Nat → Prop) (m m' : FlatMem) : Prop :=
  ∀ x, (P x → m' x = 0) ∧ (¬ P x → m' x = m x)

section Clear

variable {P Q : Nat → Prop} {m m' m'' : FlatMem}

theorem clearsTo_nothing (h : ∀ x, ¬ P x) : ClearsTo P m m :=
  fun x => ⟨fun hx => absurd hx (h x), fun _ => rfl⟩

theorem clearsTo_store (a n : Nat) :
    ClearsTo (fun x => a ≤ x ∧ x < a + n) m (ByteSeq.store m a n 0) := by
  intro x
  refine ⟨?_, ?_⟩
  · rintro ⟨hlo, hhi⟩
    rw [ByteSeq.store, ByteSeq.patch_inside hlo hhi, ByteSeq.leByte, Nat.zero_div]
    rfl
  · intro hx
    exact ByteSeq.store_outside (by omega)

theorem ClearsTo.trans (h : ClearsTo P m m') (h' : ClearsTo Q m' m'') :
    ClearsTo (fun x => P x ∨ Q x) m m'' := by
  intro x
  refine ⟨?_, ?_⟩
  · intro hx
    by_cases hQ : Q x
    · exact (h' x).1 hQ
    · rw [(h' x).2 hQ, (h x).1 (hx.resolve_right hQ)]
  · intro hx
    obtain ⟨hP, hQ⟩ := not_or.mp hx
    rw [(h' x).2 hQ, (h x).2 hP]

theorem ClearsTo.congr (h : ClearsTo P m m') (hPQ : ∀ x, P x ↔ Q x) : ClearsTo Q m m' :=
  fun x => ⟨fun hx => (h x).1 ((hPQ x).mpr hx), fun hx => (h x).2 (fun hP => hx ((hPQ x).mp hP))⟩

/-- Clearing is invisible exactly where there are zeros already. -/
theorem ClearsTo.eq_iff (h : ClearsTo P m m') : m' = m ↔ ∀ x, P x → m x = 0 := by
  apply Iff.intro
  · intro heq x hx
    rw [← heq]
    exact (h x).1 hx
  · intro hzero
    funext x
    by_cases hx : P x
    · rw [(h x).1 hx, hzero x hx]
    · exact (h x).2 hx

end Clear

/-! ## The instructions -/

inductive StackRead where
  | pop_r
  | ret_n
  | ret_i
  | leave
deriving DecidableEq, Repr

namespace StackRead

def helper : StackRead → Addr → EmuM Nat
  | pop_r => runInstr .popRV
  | ret_n => helperV retN
  | ret_i => helperV retI
  | leave => runInstr .leave

/-- The registers it may change. -/
def Alters (s : Emu) (j : RegIdx) : StackRead → Prop
  | pop_r => j = regNo s.ops.opcode.toNat ∨ j = R_ESP
  | ret_n | ret_i => j = R_ESP
  | leave => j = R_ESP ∨ j = R_EBP

-- it sets EIP
def jumps : StackRead → Bool
  | ret_n | ret_i => true
  | pop_r | leave => false

/-- From `s` to `s'` the instruction only read memory. -/
structure OnlyReads (i : StackRead) (s s' : Emu) : Prop where
  mem : s'.mem = s.mem
  regs : ∀ j, ¬ i.Alters s j → s'.cpu.gpr j = s.cpu.gpr j
  eip : i.jumps = false → s'.cpu.eip = s.cpu.eip
  eflags : s'.cpu.eflags = s.cpu.eflags
  nemuState : s'.nemuState = s.nemuState

end StackRead

/-! ## `pop` -/

-- the stack pointer an instance uses, `REG(R_ESP)`
def stackPtr (w : Width) (c : CpuState) : Addr := (c.reg w R_ESP).setWidth 32

theorem readStackPtr_run (w : Width) (s : Emu) :
    readReg32 w R_ESP s = .ok (stackPtr w s.cpu, s) := readReg32_run ..

section Pop

variable {w : Width} {s s₁ s' : Emu} {d : RegIdx} {u : Unit}

-- the registers after `OPERAND_W(op_src, MEM_R(REG(R_ESP)))`
def popped (w : Width) (d : RegIdx) (s : Emu) : CpuState :=
  s.cpu.setReg w d ((OpLoc.mem (stackPtr w s.cpu)).val w s)

/-- The state `pop` leaves: the slot it clears is found with the new stack pointer. -/
def popAt (w : Width) (d : RegIdx) (s : Emu) : Emu :=
  { s with
    cpu := (popped w d s).setReg w R_ESP ((popped w d s).reg w R_ESP + BitVec.ofNat _ w.bytes)
    mem := ByteSeq.store s.mem (stackPtr w (popped w d s)).toNat w.bytes 0 }

-- the value popped is the one read, cut to the operand
theorem setWidth_load (w : Width) (s : Emu) (a : Addr) :
    (BitVec.ofNat 32 (ByteSeq.load s.mem a.toNat w.bytes)).setWidth w.bits = (OpLoc.mem a).val w s := by
  rw [← setWidth_val_mem, setWidth_setWidth_bits]

/-- The body of `pop` into a register completes exactly if both slots are in memory. -/
theorem doPop_eq_ok (hloc : (s.ops.get .src).loc = .reg d) :
    doPop w s = .ok (u, s') ↔ InRange (stackPtr w s.cpu) w.bytes ∧
      InRange (stackPtr w (popped w d s)) w.bytes ∧ s' = popAt w d s := by
  have hwrite : writeOperand w (s.ops.get .src) ((OpLoc.mem (stackPtr w s.cpu)).val w s) s
      = .ok ((), { s with cpu := popped w d s }) := by
    rw [writeOperand, hloc]
    rfl
  rw [doPop, run_bind_ok (getOp_run ..), run_bind_ok (readStackPtr_run ..)]
  apply Iff.intro
  · intro h
    obtain ⟨v, s₁, hread, hrest⟩ := run_bind_eq_ok.mp h
    obtain ⟨rfl, hv⟩ := instrFetch_ok hread
    obtain ⟨hin, rfl⟩ := read_eq_ok.mp hv
    rw [setWidth_load, run_bind_ok hwrite, run_bind_ok (readStackPtr_run ..)] at hrest
    obtain ⟨u', s₂, hclear, hend⟩ := run_bind_eq_ok.mp hrest
    obtain ⟨m, hm, rfl⟩ := memW_ok hclear
    obtain ⟨hin', rfl⟩ := write_eq_ok.mp hm
    rw [run_bind_ok (readReg_run ..)] at hend
    cases hend
    exact ⟨hin, hin', rfl⟩
  · rintro ⟨hin, hin', rfl⟩
    have hread : memR w (stackPtr w s.cpu) s = .ok (_, s) := memR_run (read_eq_ok.mpr ⟨hin, rfl⟩)
    have hclear : memW w (stackPtr w (popped w d s)) 0 { s with cpu := popped w d s }
        = .ok ((), _) := memW_run (write_eq_ok.mpr ⟨hin', rfl⟩)
    rw [run_bind_ok hread, setWidth_load, run_bind_ok hwrite, run_bind_ok (readStackPtr_run ..),
      run_bind_ok hclear]
    rfl

-- what is popped depends on the registers and memory only
theorem machine_popAt (hmach : machine s₁ = machine s) :
    machine (popAt w d s₁) = machine (popAt w d s) := by
  have hcpu : s₁.cpu = s.cpu := congrArg Machine.cpu hmach
  have hmem : s₁.mem = s.mem := congrArg Machine.mem hmach
  have hpopped : popped w d s₁ = popped w d s := by
    rw [popped, popped, hcpu, OpLoc.val_congr hcpu hmem]
  have hstate : s₁.nemuState = s.nemuState := congrArg Machine.nemuState hmach
  have hopcode : s₁.ops.opcode = s.ops.opcode := congrArg Machine.opcode hmach
  have hsize : s₁.ops.is_operand_size_16 = s.ops.is_operand_size_16 :=
    congrArg Machine.is_operand_size_16 hmach
  simp only [machine, popAt, hpopped, hmem, hstate, hopcode, hsize]

/-- `pop` into the register in the opcode, run. -/
theorem pop_run {a : Addr} (hd : regNo s.ops.opcode.toNat = d)
    (hin : InRange (stackPtr w s.cpu) w.bytes) (hin' : InRange (stackPtr w (popped w d s)) w.bytes) :
    ∃ s', idex (decodeR w) (doPop w) a s = .ok (1, s') ∧ machine s' = machine (popAt w d s) := by
  obtain ⟨s₁, hdec, hmach, hloc⟩ := decodeRInternal_run (w := w) (s := s) .src
  rw [hd] at hloc
  have hcpu : s₁.cpu = s.cpu := congrArg Machine.cpu hmach
  have hpopped : popped w d s₁ = popped w d s := by
    rw [popped, popped, hcpu, OpLoc.val_congr hcpu (congrArg Machine.mem hmach)]
  rw [← hpopped] at hin'
  rw [← hcpu] at hin
  refine ⟨popAt w d s₁, ?_, machine_popAt hmach⟩
  exact idex_run hdec ((doPop_eq_ok hloc.loc).mpr ⟨hin, hin', rfl⟩)

/-- And taken apart. -/
theorem pop_ok {eip : Addr} {n : Nat} (hd : regNo s.ops.opcode.toNat = d)
    (h : idex (decodeR w) (doPop w) eip s = .ok (n, s')) : machine s' = machine (popAt w d s) := by
  obtain ⟨s₁, hdec, hmach, hloc⟩ := decodeRInternal_run (w := w) (s := s) .src
  rw [hd] at hloc
  obtain ⟨u, s₂, hpop, hend⟩ := run_bind_eq_ok.mp ((run_bind_ok hdec).symm.trans h)
  cases hend
  obtain ⟨-, -, rfl⟩ := (doPop_eq_ok hloc.loc).mp hpop
  exact machine_popAt hmach

end Pop

/-! ## `ret` and its argument area -/

-- `REG(R_ESP)` behind the return address, where the arguments start
def argPtr (w : Width) (c : CpuState) : Addr :=
  (c.reg w R_ESP + BitVec.ofNat _ w.bytes).setWidth 32

/-- A byte of the arguments that a `ret` with the immediate `value` skips, taken in whole
    elements. -/
def ArgByte (w : Width) (sp : Addr) (value x : Nat) : Prop :=
  ∃ k, k < value ∧ k % w.bytes = 0 ∧ (sp + BitVec.ofNat 32 k).toNat ≤ x ∧
    x < (sp + BitVec.ofNat 32 k).toNat + w.bytes

section Ret

variable {w : Width} {s s' : Emu} {u : Unit}

theorem popEip_ok (h : popEip w s = .ok (u, s')) :
    ∃ v, s' = { s with cpu := { s.cpu with eip := v } } := by
  rw [popEip, run_bind_ok (readRegL_run ..)] at h
  obtain ⟨v, s₁, hread, hset⟩ := run_bind_eq_ok.mp h
  obtain ⟨rfl, -⟩ := instrFetch_ok hread
  cases hset
  exact ⟨_, rfl⟩

/-- The loop from `i` on clears the arguments from `i` on, and changes only memory. -/
theorem clearArgs_ok {value fuel i : Nat} (hi : i % w.bytes = 0)
    (h : clearArgs w value i fuel s = .ok (u, s')) :
    (∃ m, s' = { s with mem := m }) ∧
      ClearsTo (fun x => ∃ k, i ≤ k ∧ k < i + w.bytes * fuel ∧ k < value ∧ k % w.bytes = 0 ∧
        (stackPtr w s.cpu + BitVec.ofNat 32 k).toNat ≤ x ∧
        x < (stackPtr w s.cpu + BitVec.ofNat 32 k).toNat + w.bytes) s.mem s'.mem := by
  induction fuel generalizing i s with
  | zero =>
      cases h
      refine ⟨⟨_, rfl⟩, clearsTo_nothing ?_⟩
      rintro x ⟨k, hik, hk, -⟩
      omega
  | succ fuel ih =>
      have hpos := w.bytes_pos
      rw [clearArgs] at h
      by_cases hv : i < value
      · rw [if_pos hv, run_bind_ok (readStackPtr_run ..)] at h
        obtain ⟨u', s₁, hclear, hrest⟩ := run_bind_eq_ok.mp h
        obtain ⟨m, hm, rfl⟩ := memW_ok hclear
        obtain ⟨-, rfl⟩ := write_eq_ok.mp hm
        have hnext : (i + w.bytes) % w.bytes = 0 := by rw [Nat.add_mod_right, hi]
        obtain ⟨⟨m, rfl⟩, hclears⟩ := ih hnext hrest
        refine ⟨⟨m, rfl⟩, ((clearsTo_store _ _).trans hclears).congr (fun x => ?_)⟩
        rw [Nat.mul_succ]
        apply Iff.intro
        · rintro (⟨hlo, hhi⟩ | ⟨k, hik, hk, hrest⟩)
          · exact ⟨i, Nat.le_refl i, by omega, hv, hi, hlo, hhi⟩
          · exact ⟨k, by omega, by omega, hrest⟩
        · rintro ⟨k, hik, hk, hkv, hmod, hx⟩
          -- elements are the same or a whole element apart
          rcases Strided.eq_or_apart (hi.trans hmod.symm) with rfl | hsep
          · exact .inl hx
          · exact .inr ⟨k, by omega, by omega, hkv, hmod, hx⟩
      · rw [if_neg hv] at h
        cases h
        refine ⟨⟨_, rfl⟩, clearsTo_nothing ?_⟩
        rintro x ⟨k, hik, -, hkv, -⟩
        omega

theorem retN_ok {eip : Addr} {n : Nat} (h : retN w eip s = .ok (n, s')) :
    ∃ v sp, s' = { s with cpu := { s.cpu with eip := v }.setReg .long R_ESP sp } := by
  obtain ⟨u', s₁, hpop, hrest⟩ := run_bind_eq_ok.mp h
  obtain ⟨v, rfl⟩ := popEip_ok hpop
  cases hrest
  exact ⟨v, _, rfl⟩

/-- A completed `ret` with an immediate cleared the arguments and moved ESP. -/
theorem retI_ok {eip : Addr} {n : Nat} (h : retI w eip s = .ok (n, s')) :
    (∃ v sp sp', s'.cpu = ({ s.cpu with eip := v }.setReg w R_ESP sp).setReg w R_ESP sp') ∧
      s'.nemuState = s.nemuState ∧
      ClearsTo (ArgByte w (argPtr w s.cpu) (ByteSeq.load s.mem (eip + 1).toNat 2)) s.mem s'.mem := by
  obtain ⟨value, s₁, hfetch, h₁⟩ := run_bind_eq_ok.mp h
  obtain ⟨rfl, hvalue⟩ := instrFetch_ok hfetch
  obtain ⟨-, rfl⟩ := read_eq_ok.mp hvalue
  obtain ⟨u', s₂, hpop, h₂⟩ := run_bind_eq_ok.mp h₁
  obtain ⟨v, rfl⟩ := popEip_ok hpop
  rw [run_bind_ok (readReg_run ..), run_bind_ok (writeReg_run ..)] at h₂
  obtain ⟨u'', s₃, hclear, h₃⟩ := run_bind_eq_ok.mp h₂
  obtain ⟨⟨m, rfl⟩, hclears⟩ := clearArgs_ok (Nat.zero_mod _) hclear
  cases h₃
  have hlt := ByteSeq.load_lt s₁.mem (eip + 1).toNat 2
  have himm : (BitVec.ofNat 32 (ByteSeq.load s₁.mem (eip + 1).toNat 2)).toNat
      = ByteSeq.load s₁.mem (eip + 1).toNat 2 := by
    rw [BitVec.toNat_ofNat]
    omega
  have heip : ({ s₁.cpu with eip := v } : CpuState).reg w R_ESP = s₁.cpu.reg w R_ESP := by
    cases w <;> rfl
  have hsp : stackPtr w (({ s₁.cpu with eip := v } : CpuState).setReg w R_ESP
      (({ s₁.cpu with eip := v } : CpuState).reg w R_ESP + BitVec.ofNat _ w.bytes))
        = argPtr w s₁.cpu := by
    rw [stackPtr, reg_setReg, heip, argPtr]
  refine ⟨⟨v, _, _, rfl⟩, rfl, hclears.congr (fun x => ?_)⟩
  have hfuel := Nat.le_mul_of_pos_left (ByteSeq.load s₁.mem (eip + 1).toNat 2) w.bytes_pos
  rw [himm]
  apply Iff.intro
  · rintro ⟨k, -, -, hk, hmod, hx⟩
    rw [hsp] at hx
    exact ⟨k, hk, hmod, hx⟩
  · rintro ⟨k, hk, hmod, hx⟩
    refine ⟨k, Nat.zero_le k, by omega, hk, hmod, ?_⟩
    rw [hsp]
    exact hx

end Ret

/-! ## What an instruction clears -/

namespace StackRead

/-- The bytes it stores a zero to. -/
def Clears (s : Emu) (eip : Addr) (x : Nat) : StackRead → Prop
  | pop_r =>
      let w := opWidth s.ops.is_operand_size_16
      let sp := stackPtr w (popped w (regNo s.ops.opcode.toNat) s)
      sp.toNat ≤ x ∧ x < sp.toNat + w.bytes
  | ret_i =>
      let w := opWidth s.ops.is_operand_size_16
      ArgByte w (argPtr w s.cpu) (ByteSeq.load s.mem (eip + 1).toNat 2) x
  | ret_n | leave => False

section Frame

variable {s s' : Emu} {eip : Addr} {n : Nat}

/-- A completed instruction changed the registers it may change, and cleared its bytes. -/
theorem helper_frame (i : StackRead) (h : i.helper eip s = .ok (n, s')) :
    ClearsTo (fun x => i.Clears s eip x) s.mem s'.mem ∧
      (∀ j, ¬ i.Alters s j → s'.cpu.gpr j = s.cpu.gpr j) ∧
      (i.jumps = false → s'.cpu.eip = s.cpu.eip) ∧ s'.cpu.eflags = s.cpu.eflags ∧
      s'.nemuState = s.nemuState := by
  have hw := opWidth_ne_byte s.ops.is_operand_size_16
  have hlong : Width.long ≠ .byte := by decide
  cases i with
  | pop_r =>
      have hrun := (helperV_run (fun w => idex (decodeR w) (doPop w)) eip s).symm.trans h
      generalize hwidth : opWidth s.ops.is_operand_size_16 = w at hrun hw
      have hmach := pop_ok rfl hrun
      have hcpu : s'.cpu = (popAt w (regNo s.ops.opcode.toNat) s).cpu := congrArg Machine.cpu hmach
      have hmem : s'.mem = (popAt w (regNo s.ops.opcode.toNat) s).mem := congrArg Machine.mem hmach
      rw [hcpu, hmem]
      refine ⟨?_, ?_, ?_, ?_, congrArg Machine.nemuState hmach⟩
      · refine (clearsTo_store _ _).congr (fun x => ?_)
        rw [Clears, hwidth]
      · intro j hj
        obtain ⟨hdest, hesp⟩ := not_or.mp hj
        exact (gpr_setReg_ne hw hesp _).trans (gpr_setReg_ne hw hdest _)
      · exact fun _ => (eip_setReg ..).trans (eip_setReg ..)
      · exact (eflags_setReg ..).trans (eflags_setReg ..)
  | ret_n =>
      obtain ⟨v, sp, rfl⟩ := retN_ok ((helperV_run retN eip s).symm.trans h)
      refine ⟨clearsTo_nothing (fun _ => id), ?_, nofun, rfl, rfl⟩
      exact fun j hj => gpr_setReg_ne hlong hj sp
  | ret_i =>
      obtain ⟨⟨v, sp, sp', hcpu⟩, hstate, hclears⟩ := retI_ok ((helperV_run retI eip s).symm.trans h)
      refine ⟨hclears, ?_, nofun, ?_, hstate⟩
      · intro j hj
        rw [hcpu]
        exact (gpr_setReg_ne hw hj _).trans (gpr_setReg_ne hw hj _)
      · rw [hcpu]
        exact (eflags_setReg ..).trans (eflags_setReg ..)
  | leave =>
      have hrun : Emu.leave eip s = .ok (n, s') := h
      rw [Emu.leave, run_bind_ok (readRegL_run ..), run_bind_ok (writeRegL_run ..)] at hrun
      obtain ⟨v, s₁, hread, hrest⟩ := run_bind_eq_ok.mp hrun
      obtain ⟨rfl, -⟩ := instrFetch_ok hread
      rw [run_bind_ok (writeRegL_run ..), run_bind_ok (writeRegL_run ..)] at hrest
      cases hrest
      refine ⟨clearsTo_nothing (fun _ => id), ?_, fun _ => rfl, rfl, rfl⟩
      intro j hj
      obtain ⟨hesp, hebp⟩ := not_or.mp hj
      exact (gpr_setReg_ne hlong hesp _).trans
        ((gpr_setReg_ne hlong hebp _).trans (gpr_setReg_ne hlong hesp _))

end Frame

end StackRead

/-- **Reading the stack.** Whatever the state it completes in, an instruction changes its
    registers only; it leaves all of memory alone exactly if the bytes it clears are zero
    already, which `ret` and `leave` do everywhere. -/
theorem stackRead_onlyReads_iff (i : StackRead) (s s' : Emu) (eip : Addr) (n : Nat)
    (h : i.helper eip s = .ok (n, s')) :
    i.OnlyReads s s' ↔ ∀ x, i.Clears s eip x → s.mem x = 0 := by
  obtain ⟨hclears, hregs, heip, hflags, hstate⟩ := i.helper_frame h
  rw [← hclears.eq_iff]
  exact ⟨fun hreads => hreads.mem, fun hmem => ⟨hmem, hregs, heip, hflags, hstate⟩⟩

-- `pop %eax` where there are zeros
theorem stackRead_pop :
    ∃ n s', StackRead.pop_r.helper 0 (Emu.zeroed fun _ => 0) = .ok (n, s') ∧
      (StackRead.pop_r.OnlyReads (Emu.zeroed fun _ => 0) s' ↔
        ∀ x, StackRead.pop_r.Clears (Emu.zeroed fun _ => 0) 0 x → (0 : Byte) = 0) := by
  let s := Emu.zeroed fun _ => 0
  obtain ⟨s', hpop, -⟩ := pop_run (w := .long) (s := s) (a := 0) rfl (by decide) (by decide)
  have hrun : StackRead.pop_r.helper 0 s = .ok (1, s') :=
    (helperV_run (fun w => idex (decodeR w) (doPop w)) 0 s).trans hpop
  exact ⟨1, s', hrun, stackRead_onlyReads_iff .pop_r _ s' 0 1 hrun⟩

/-- `pop %eax` from memory full of sevens leaves zeros behind. -/
theorem pop_clears_slot :
    ¬ ∀ (i : StackRead) (s s' : Emu) (eip : Addr) (n : Nat),
      i.helper eip s = .ok (n, s') → i.OnlyReads s s' := by
  intro h
  let s := Emu.zeroed fun _ => 7
  obtain ⟨s', hpop, -⟩ := pop_run (w := .long) (s := s) (a := 0) rfl (by decide) (by decide)
  have hrun : StackRead.pop_r.helper 0 s = .ok (1, s') :=
    (helperV_run (fun w => idex (decodeR w) (doPop w)) 0 s).trans hpop
  have hmem := (h .pop_r _ s' 0 1 hrun).mem
  obtain ⟨hclears, -⟩ := StackRead.pop_r.helper_frame hrun
  have hzero := hclears.eq_iff.mp hmem 0 ⟨by decide, by decide⟩
  exact absurd hzero (by decide)

end Nemu
