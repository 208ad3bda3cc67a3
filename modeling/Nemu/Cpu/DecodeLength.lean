/-
  Nemu.Cpu.DecodeLength

  What the decode helpers leave alone and how many bytes they consume.  A helper
  changes nothing but the decoded operands, so every fetch of an instruction sees
  the same memory, and the returned lengths add up to those of the encoding.
-/

import Nemu.Cpu.Decode
import Nemu.Cpu.Encoding
import Nemu.Lib.Frame

namespace Nemu

open Outcome Frame I386 FlatMem

/-- All of an `Emu` but the decoded operands. -/
structure Machine where
  cpu : CpuState
  mem : FlatMem
  nemuState : NemuState
  opcode : BitVec 32
  is_operand_size_16 : Bool

def Emu.machine (s : Emu) : Machine :=
  { cpu := s.cpu
    mem := s.mem
    nemuState := s.nemuState
    opcode := s.ops.opcode
    is_operand_size_16 := s.ops.is_operand_size_16 }

namespace Emu

/-! ## Primitives -/

@[simp] theorem keeps_abort {γ α : Type} (f : Emu → γ) (a : Abort) : Keeps f (abort a : EmuM α) :=
  fun _ _ _ h => nomatch h

section Primitives

@[simp] theorem machine_setOp (s : Emu) (x : OpSel) (o : Operand) :
    machine { s with ops := s.ops.set x o } = machine s := by
  cases x <;> rfl

@[simp] theorem keeps_machine_setLoc (x : OpSel) (l : OpLoc) : Keeps machine (setLoc x l) := by
  intro s a s' h
  rw [setLoc_run] at h
  cases h
  exact machine_setOp ..

@[simp] theorem keeps_machine_setVal (x : OpSel) (v : BitVec 32) : Keeps machine (setVal x v) := by
  intro s a s' h
  rw [setVal_run] at h
  cases h
  exact machine_setOp ..

@[simp] theorem keeps_machine_setSize (x : OpSel) (n : Nat) : Keeps machine (setSize x n) := by
  intro s a s' h
  rw [setSize_run] at h
  cases h
  exact machine_setOp ..

-- reading changes nothing at all
theorem keeps_of_reads {γ α : Type} (f : Emu → γ) {x : EmuM α} (g : Emu → α)
    (h : ∀ s, x s = .ok (g s, s)) : Keeps f x := by
  intro s a s' hrun
  rw [h] at hrun
  cases hrun
  rfl

@[simp] theorem keeps_getOp {γ : Type} (f : Emu → γ) (x : OpSel) : Keeps f (getOp x) :=
  keeps_of_reads f _ (getOp_run x)

@[simp] theorem keeps_getOps {γ : Type} (f : Emu → γ) : Keeps f getOps :=
  keeps_of_reads f _ getOps_run

@[simp] theorem keeps_getCpu {γ : Type} (f : Emu → γ) : Keeps f getCpu :=
  keeps_of_reads f _ getCpu_run

@[simp] theorem keeps_readReg {γ : Type} (f : Emu → γ) (w : Width) (i : RegIdx) :
    Keeps f (readReg w i) :=
  keeps_of_reads f _ (readReg_run w i)

@[simp] theorem keeps_readRegL {γ : Type} (f : Emu → γ) (i : RegIdx) : Keeps f (readRegL i) :=
  keeps_readReg f .long i

@[simp] theorem keeps_check {γ : Type} (f : Emu → γ) (b : Bool) : Keeps f (check b) := by
  intro s a s' h
  cases b
  · exact nomatch h
  · cases h
    rfl

theorem check_yields {γ : Type} (f : Emu → γ) (b : Bool) :
    Yields f (check b) (fun _ _ => b = true) := by
  intro s a s' h
  cases b
  · exact nomatch h
  · exact ⟨keeps_check f true s a s' h, rfl⟩

end Primitives

/-! ## Fetching -/

/-- A fetch changes nothing and reads memory inside its bounds. -/
theorem instrFetch_ok {addr : Addr} {len : Nat} {s s' : Emu} {v : BitVec 32}
    (h : instrFetch addr len s = .ok (v, s')) : s' = s ∧ s.mem.read addr len = .ok v := by
  rw [instrFetch, swaddrRead, bind_eq_ok] at h
  obtain ⟨-, -, h⟩ := h
  obtain ⟨x, hread, hx⟩ := bind_eq_ok.mp h
  cases hx
  exact ⟨rfl, hread⟩

/-- A completed store replaced the bytes in memory and nothing else. -/
theorem memW_ok {w : Width} {addr : Addr} {v : BitVec 32} {s s' : Emu} {u : Unit}
    (h : memW w addr v s = .ok (u, s')) :
    ∃ m, s.mem.write addr w.bytes v = .ok m ∧ s' = { s with mem := m } := by
  rw [memW, swaddrWrite, bind_eq_ok] at h
  obtain ⟨-, -, h⟩ := h
  obtain ⟨m, hwrite, hm⟩ := bind_eq_ok.mp h
  cases hm
  exact ⟨m, hwrite, rfl⟩

@[simp] theorem keeps_swaddrRead {γ : Type} (f : Emu → γ) (addr : Addr) (len : Nat) :
    Keeps f (swaddrRead addr len) := by
  intro s a s' h
  rw [(instrFetch_ok h).1]

@[simp] theorem keeps_instrFetch {γ : Type} (f : Emu → γ) (addr : Addr) (len : Nat) :
    Keeps f (instrFetch addr len) :=
  keeps_swaddrRead f addr len

/-- `n` bytes from `a` on have been fetched: they are in memory. -/
def Covers (a : Addr) (n : Nat) : Prop := n = 0 ∨ InRange a n

theorem covers_zero (a : Addr) : Covers a 0 := .inl rfl

theorem Covers.append {a : Addr} {k n : Nat} (h₁ : Covers a k) (h₂ : Covers (a + BitVec.ofNat 32 k) n) :
    Covers a (k + n) := by
  rcases h₁ with rfl | h₁
  · simpa using h₂
  rcases h₂ with rfl | h₂
  · exact .inr h₁
  · -- the first part does not reach the end of the address space
    right
    rw [InRange, HW_MEM_SIZE] at *
    rw [BitVec.toNat_add, BitVec.toNat_ofNat, Nat.mod_eq_of_lt (a := k) (by omega),
      Nat.mod_eq_of_lt (by omega)] at h₂
    omega

theorem Covers.inRange {a : Addr} {n : Nat} (h : Covers a n) (hn : 0 < n) : InRange a n :=
  h.resolve_left (by omega)

theorem instrFetch_yields (addr : Addr) (len : Nat) :
    Yields machine (instrFetch addr len)
      (fun o v => o.mem.read addr len = .ok v ∧ InRange addr len) := by
  intro s v s' h
  obtain ⟨rfl, hread⟩ := instrFetch_ok h
  exact ⟨rfl, hread, (read_eq_ok.mp hread).1⟩

-- one fetched byte is the byte there
theorem setWidth_load_one (m : FlatMem) (a : Addr) :
    (BitVec.ofNat 32 (ByteSeq.load m a.toNat 1)).setWidth 8 = m a.toNat := by
  have hlt := (m a.toNat).isLt
  apply BitVec.eq_of_toNat_eq
  simp only [ByteSeq.load, ByteSeq.leNat_succ, ByteSeq.leNat_zero, Nat.add_zero, Nat.mul_zero,
    BitVec.toNat_setWidth, BitVec.toNat_ofNat]
  omega

/-- The ModR/M byte is the byte at `eip`. -/
theorem fetchModRM_yields (eip : Addr) :
    Yields machine (fetchModRM eip) (fun o m => m.val = o.mem eip.toNat ∧ InRange eip 1) := by
  refine yields_bind (instrFetch_yields eip 1) (fun v => ?_)
  refine yields_pure (fun o => ?_)
  rintro ⟨hread, hin⟩
  obtain ⟨-, rfl⟩ := read_eq_ok.mp hread
  exact ⟨setWidth_load_one .., hin⟩

theorem fetchSIB_yields (eip : Addr) :
    Yields machine (fetchSIB eip) (fun o x => x.val = o.mem eip.toNat ∧ InRange eip 1) := by
  refine yields_bind (instrFetch_yields eip 1) (fun v => ?_)
  refine yields_pure (fun o => ?_)
  rintro ⟨hread, hin⟩
  obtain ⟨-, rfl⟩ := read_eq_ok.mp hread
  exact ⟨setWidth_load_one .., hin⟩

-- fetches inside memory succeed
section Fetch

variable {s : Emu} {a : Addr}

theorem instrFetch_run {n : Nat} (hlen : accessLen n = true) (hin : InRange a n) :
    instrFetch a n s = .ok (BitVec.ofNat 32 (ByteSeq.load s.mem a.toNat n), s) :=
  swaddrRead_run hlen (read_eq_ok.mpr ⟨hin, rfl⟩)

theorem fetchModRM_run (hin : InRange a 1) : fetchModRM a s = .ok (⟨s.mem a.toNat⟩, s) := by
  rw [fetchModRM, run_bind_ok (instrFetch_run rfl hin), setWidth_load_one, run_pure]

theorem fetchSIB_run (hin : InRange a 1) : fetchSIB a s = .ok (⟨s.mem a.toNat⟩, s) := by
  rw [fetchSIB, run_bind_ok (instrFetch_run rfl hin), setWidth_load_one, run_pure]

end Fetch

/-! ## Effective addresses -/

section ModRMBytes

variable {m : ModRM} {mem : FlatMem} {eip : Addr}

theorem mod_eq (h : m.val = mem eip.toNat) : m.mod = byteAt mem eip / 64 := by
  rw [ModRM.mod, byteAt, h]

theorem rm_eq (h : m.val = mem eip.toNat) : m.rm.val = byteAt mem eip % 8 := by
  rw [byteAt, ← h]
  rfl

theorem reg_eq (h : m.val = mem eip.toNat) : m.reg.val = regField mem eip := by
  rw [regField, byteAt, ← h]
  rfl

theorem dispSize_fst (m : ModRM) (r : RegIdx) :
    (dispSize m (some r)).1 = dispLength m.mod r.val := by
  have hebp : some r = some R_EBP ↔ r.val = 5 := by
    rw [Option.some_inj, ← Fin.val_inj]
    rfl
  by_cases h0 : m.mod = 0
  · by_cases h5 : r.val = 5
    · simp [dispSize, dispLength, h0, hebp.mpr h5, h5]
    · simp only [dispSize, dispLength, h0, if_true, if_neg (mt hebp.mp h5), if_neg h5]
  · by_cases h1 : m.mod = 1
    · simp [dispSize, dispLength, h1]
    · simp only [dispSize, if_neg h0, if_neg h1]
      rw [dispLength]
      · exact h0
      · exact h1

end ModRMBytes

/-- The base register of a memory operand, and where its displacement starts. -/
theorem addrForm_yields (eip : Addr) (m : ModRM) :
    Yields machine (addrForm eip m) (fun o f =>
      (m.rm.val = 4 → f.disp_offset = 2 ∧ InRange (eip + 1) 1 ∧
        ∃ base : RegIdx, f.base_reg = some base ∧ base.val = byteAt o.mem (eip + 1) % 8) ∧
      (m.rm.val ≠ 4 → f.disp_offset = 1 ∧ f.base_reg = some m.rm)) := by
  have hesp : m.rm = R_ESP ↔ m.rm.val = 4 := Fin.val_inj.symm
  rw [addrForm]
  by_cases h : m.rm = R_ESP
  · rw [if_pos h]
    refine yields_bind (fetchSIB_yields (eip + 1)) (fun x => yields_pure (fun o => ?_))
    rintro ⟨hval, hin⟩
    refine ⟨fun _ => ⟨rfl, hin, x.base, rfl, ?_⟩, fun hne => absurd (hesp.mp h) hne⟩
    rw [byteAt, ← hval]
    rfl
  · rw [if_neg h]
    exact yields_pure (fun o => ⟨fun h4 => absurd (hesp.mpr h4) h, fun _ => ⟨rfl, rfl⟩⟩)

theorem fetchDisp_yields (eip : Addr) (n : Nat) :
    Yields machine (fetchDisp eip n) (fun _ _ => Covers eip n) := by
  rw [fetchDisp]
  by_cases h : n = 0
  · rw [if_neg (not_not_intro h)]
    exact yields_pure (fun _ => .inl h)
  · rw [if_pos h]
    exact yields_bind (instrFetch_yields eip n) (fun _ => yields_pure (fun _ hin => .inr hin.2))

/-- `load_addr` returns the length of ModR/M, SIB and displacement. -/
theorem loadAddr_yields (eip : Addr) (m : ModRM) (rm : OpSel) :
    Yields machine (loadAddr eip m rm) (fun o n =>
      m.val = o.mem eip.toNat → InRange eip 1 →
        n = modrmLength o.mem eip ∧ InRange eip n) := by
  rw [loadAddr]
  refine yields_bind (check_yields machine _) (fun _ => ?_)
  refine yields_bind (addrForm_yields eip m) (fun f => ?_)
  rcases hd : dispSize m f.base_reg with ⟨size, base_reg⟩
  refine yields_bind (fetchDisp_yields _ size) (fun disp => ?_)
  refine yields_after (keeps_getCpu machine) (fun cpu => ?_)
  refine yields_after (keeps_machine_setLoc rm _) (fun _ => ?_)
  refine yields_pure (fun o hcov hform hcheck hval hin => ?_)
  have hmod : byteAt o.mem eip / 64 ≠ 3 := by
    rw [← mod_eq hval]
    simpa using hcheck
  have hsize : ∀ base, f.base_reg = some base → size = dispLength m.mod base.val := by
    intro base hbase
    rw [← dispSize_fst, ← hbase, hd]
  rw [modrmLength, if_neg hmod]
  by_cases h4 : m.rm.val = 4
  · -- with a SIB byte, which has been fetched as well
    obtain ⟨hoff, hin₁, base, hbase, hbv⟩ := hform.1 h4
    have hlen : f.disp_offset + size
        = 2 + dispLength (byteAt o.mem eip / 64) (byteAt o.mem (eip + 1) % 8) := by
      rw [hoff, hsize base hbase, hbv, mod_eq hval]
    rw [if_pos (by rw [← rm_eq hval]; exact h4)]
    have hsib : Covers eip (1 + 1) := Covers.append (.inr hin) (.inr hin₁)
    rw [hoff] at hcov
    exact ⟨hlen, by rw [hoff]; exact (Covers.append hsib hcov).inRange (by omega)⟩
  · obtain ⟨hoff, hbase⟩ := hform.2 h4
    have hlen : f.disp_offset + size
        = 1 + dispLength (byteAt o.mem eip / 64) (byteAt o.mem eip % 8) := by
      rw [hoff, hsize m.rm hbase, rm_eq hval, mod_eq hval]
    rw [if_neg (by rw [← rm_eq hval]; exact h4)]
    rw [hoff] at hcov
    exact ⟨hlen, by rw [hoff]; exact (Covers.append (.inr hin) hcov).inRange (by omega)⟩

/-! ## Decode helpers -/

@[simp] theorem keeps_readSizedReg {γ : Type} (f : Emu → γ) (size : Nat) (i : RegIdx) :
    Keeps f (readSizedReg size i) := by
  unfold readSizedReg
  split <;> simp

@[simp] theorem keeps_regOf {γ : Type} (f : Emu → γ) (o : Operand) : Keeps f (regOf o) := by
  rw [regOf]
  split <;> simp

@[simp] theorem keeps_readReg32 {γ : Type} (f : Emu → γ) (w : Width) (i : RegIdx) :
    Keeps f (readReg32 w i) := by
  simp [readReg32]

/-- A decode helper at `eip` consumes `L` bytes, all in memory, and changes nothing but
    the decoded operands. -/
def Consumes (x : EmuM Nat) (eip : Addr) (L : FlatMem → Nat) : Prop :=
  Yields machine x (fun o n => n = L o.mem ∧ Covers eip n)

/-- `read_ModR_M` consumes the ModR/M bytes. -/
theorem readModRM_consumes (eip : Addr) (rm reg : OpSel) :
    Consumes (readModRM eip rm reg) eip (fun m => modrmLength m eip) := by
  rw [readModRM]
  refine yields_bind (fetchModRM_yields eip) (fun m => ?_)
  refine yields_after (keeps_machine_setLoc reg _) (fun _ => ?_)
  by_cases h3 : m.mod = 3
  · rw [if_pos h3]
    refine yields_after (by simp) (fun _ => ?_)
    refine yields_after (by simp) (fun o => ?_)
    refine yields_after (by simp) (fun v => ?_)
    refine yields_after (by simp) (fun _ => yields_pure (fun o => ?_))
    rintro ⟨hval, hin⟩
    rw [mod_eq hval] at h3
    have hlen : 1 = modrmLength o.mem eip := by rw [modrmLength, if_pos h3]
    exact ⟨hlen, .inr hin⟩
  · rw [if_neg h3]
    refine yields_bind (loadAddr_yields eip m rm) (fun n => ?_)
    refine yields_after (by simp) (fun o => ?_)
    split
    · refine yields_after (by simp) (fun v => ?_)
      refine yields_after (by simp) (fun _ => yields_pure (fun o hlen => ?_))
      rintro ⟨hval, hin⟩
      obtain ⟨hn, hin'⟩ := hlen hval hin
      exact ⟨hn, .inr hin'⟩
    · exact fun _ _ _ h => nomatch h

/-- Consuming first one part and then another. -/
theorem consumes_append {x : EmuM Nat} {y : Nat → EmuM Nat} {eip : Addr} {L : FlatMem → Nat}
    {K : Nat} (hx : Consumes x eip L)
    (hy : ∀ n, Consumes (y n) (eip + BitVec.ofNat 32 n) (fun _ => K)) :
    Consumes (do let n ← x; let k ← y n; return n + k) eip (fun m => L m + K) := by
  refine yields_bind hx (fun n => ?_)
  refine yields_bind (hy n) (fun k => yields_pure (fun o => ?_))
  rintro ⟨rfl, hk⟩ ⟨rfl, hn⟩
  exact ⟨rfl, hn.append hk⟩

/-- An operand without bytes of its own. -/
theorem consumes_zero {x : EmuM Nat} {eip : Addr} (hx : Keeps machine x)
    (h0 : ∀ s n s', x s = .ok (n, s') → n = 0) : Consumes x eip (fun _ => 0) := by
  intro s n s' hrun
  obtain rfl := h0 s n s' hrun
  exact ⟨hx s 0 s' hrun, rfl, covers_zero eip⟩

/-- The helpers of a template consume ModR/M if `rm`, and an immediate of `imm w` bytes. -/
def Decodes (dec : Width → Addr → EmuM Nat) (rm : Bool) (imm : Width → Nat) : Prop :=
  ∀ w a, Consumes (dec w a) a (fun m => (if rm then modrmLength m a else 0) + imm w)

theorem decodeRmInternal_consumes (w : Width) (eip : Addr) (rm reg : OpSel) :
    Consumes (decodeRmInternal w eip rm reg) eip (fun m => modrmLength m eip) := by
  rw [decodeRmInternal]
  refine yields_after (by simp) (fun _ => ?_)
  refine yields_bind (readModRM_consumes eip rm reg) (fun n => ?_)
  refine yields_after (by simp) (fun o => ?_)
  refine yields_after (by simp) (fun i => ?_)
  refine yields_after (by simp) (fun v => ?_)
  exact yields_after (by simp) (fun _ => yields_pure (fun o h => h))

theorem decodeI_consumes (w : Width) (eip : Addr) :
    Consumes (decodeI w eip) eip (fun _ => w.bytes) := by
  rw [decodeI]
  refine yields_bind (instrFetch_yields eip w.bytes) (fun v => ?_)
  refine yields_after (by simp) (fun _ => ?_)
  exact yields_after (by simp) (fun _ => yields_pure (fun o h => ⟨rfl, .inr h.2⟩))

theorem decodeRmInternal_decodes (rm reg : OpSel) :
    Decodes (fun w eip => decodeRmInternal w eip rm reg) true (fun _ => 0) :=
  fun w a => decodeRmInternal_consumes w a rm reg

theorem decodeI_decodes : Decodes decodeI false Width.bytes := by
  intro w a
  simp only [Bool.false_eq_true, if_false, Nat.zero_add]
  exact decodeI_consumes w a

/-- ModR/M followed by an immediate. -/
theorem decodeRmInternal_imm (imm : Width → Width) (rm reg : OpSel) :
    Decodes (fun w eip => do
      let len ← decodeRmInternal w eip rm reg
      let len' ← decodeI (imm w) (eip + BitVec.ofNat 32 len)
      return len + len') true (fun w => (imm w).bytes) :=
  fun w a => consumes_append (decodeRmInternal_consumes w a rm reg)
    (fun _ => decodeI_consumes (imm w) _)

@[simp] theorem keeps_machine_decodeA (w : Width) (x : OpSel) : Keeps machine (decodeA w x) := by
  unfold decodeA
  repeat' with_reducible refine keeps_bind ?_ fun _ => ?_
  all_goals simp

@[simp] theorem keeps_machine_decodeRInternal (w : Width) (x : OpSel) :
    Keeps machine (decodeRInternal w x) := by
  unfold decodeRInternal
  repeat' with_reducible refine keeps_bind ?_ fun _ => ?_
  all_goals simp

theorem decodeR_decodes : Decodes decodeR false (fun _ => 0) := by
  intro w a
  refine consumes_zero (keeps_machine_decodeRInternal w .src) (fun s n s' hrun => ?_)
  cases hrun
  rfl

-- the register operand is implied, the immediate follows
theorem decodeI2a_decodes : Decodes decodeI2a false Width.bytes :=
  fun w a => yields_after (keeps_machine_decodeA w .dest) (fun _ => decodeI_decodes w a)

theorem decodeI2r_decodes : Decodes decodeI2r false Width.bytes :=
  fun w a => yields_after (keeps_machine_decodeRInternal w .dest) (fun _ => decodeI_decodes w a)

theorem decodeRm1_decodes : Decodes decodeRm1 true (fun _ => 0) := by
  intro w a
  refine yields_bind (decodeRmInternal_consumes w a .dest .src) (fun n => ?_)
  refine yields_after (by simp) (fun _ => ?_)
  exact yields_after (by simp) (fun _ => yields_pure (fun o h => h))

theorem decodeRmCl_decodes : Decodes decodeRmCl true (fun _ => 0) := by
  intro w a
  refine yields_bind (decodeRmInternal_consumes w a .dest .src) (fun n => ?_)
  refine yields_after (by simp) (fun _ => ?_)
  refine yields_after (by simp) (fun _ => ?_)
  exact yields_after (by simp) (fun _ => yields_pure (fun o h => h))

-- a sign-extended immediate is not implemented: the helper never returns
theorem decodeSi_decodes (rm reg : OpSel) (b : Bool) (imm : Width → Nat) :
    Decodes (fun w eip => do
      let len ← decodeRmInternal w eip rm reg
      let len' ← decodeSi .byte (eip + BitVec.ofNat 32 len)
      return len + len') b imm := by
  intro w a s n s' h
  obtain ⟨len, s₁, -, h⟩ := run_bind_eq_ok.mp h
  exact nomatch h

end Emu

end Nemu
