/-
  Nemu.Cpu.CallRet

  Calls, returns and the indirect jump, stepped as the main loop steps them: the
  helper runs and the length it returns is added to EIP.

  A helper that sets EIP has to take that length off first.  `call_rm` and `jmp_rm`
  do; `ret_n` and `ret_i` do not and end one byte behind the return address; `call_i`
  never adds its displacement.  `Nested` follows calls and their returns through any
  nesting that preserves the saved slots.
-/

import Nemu.Cpu.ExecLength

namespace Nemu

open Outcome Frame I386 FlatMem

-- the stack pointer
def esp (s : Emu) : Addr := s.cpu.gpr R_ESP

/-- The control transfers of `cpu/exec/control`, as their helpers are called with
    32-bit operands or 16-bit ones. -/
inductive Transfer where
  | call_i
  | call_rm
  | jmp_rm
  | ret_n
  | ret_i
deriving DecidableEq, Repr

namespace Transfer

def helper : Transfer → Addr → EmuM Nat
  | call_i => Emu.helperV Emu.callI
  | call_rm => Emu.helperV Emu.callRm
  | jmp_rm => Emu.jmpRmL
  | ret_n => Emu.helperV Emu.retN
  | ret_i => Emu.helperV Emu.retI

-- one step of the main loop
def step (t : Transfer) (s : Emu) : Except Abort (Nat × Emu) := Emu.advance t.helper s

end Transfer

/-! ## What each transfer should do -/

-- a return address was pushed
def Pushed (s s' : Emu) (ret : Addr) : Prop :=
  esp s' = esp s - 4 ∧ s'.mem.read (esp s') 4 = .ok ret

-- the encoded length of an instruction with a ModR/M operand
def rmLength (s : Emu) : Nat := 1 + modrmLength s.mem (s.cpu.eip + 1)

/-- The step from `s` to `s'` is the transfer `t`: EIP, ESP and the pushed slot are
    where the transfer puts them. -/
def Transfer.Meets (t : Transfer) (s s' : Emu) : Prop :=
  match t with
  | call_i => ∃ d, s.mem.read (s.cpu.eip + 1) 4 = .ok d ∧ s'.cpu.eip = s.cpu.eip + 5 + d ∧
      Pushed s s' (s.cpu.eip + 5)
  | call_rm => ∃ n s₁, Emu.decodeRm .long (s.cpu.eip + 1) s = .ok (n, s₁) ∧
      s'.cpu.eip = s₁.ops.src.val ∧ Pushed s s' (s.cpu.eip + BitVec.ofNat 32 (rmLength s))
  | jmp_rm => ∃ n s₁, Emu.decodeRm .long (s.cpu.eip + 1) s = .ok (n, s₁) ∧
      s'.cpu.eip = s₁.ops.src.val
  | ret_n => ∃ v, s.mem.read (esp s) 4 = .ok v ∧ s'.cpu.eip = v ∧ esp s' = esp s + 4
  | ret_i => ∃ v k, s.mem.read (esp s) 4 = .ok v ∧ s.mem.read (s.cpu.eip + 1) 2 = .ok k ∧
      s'.cpu.eip = v ∧ esp s' = esp s + 4 + k

/-- When it does: always for the indirect call and jump, for a direct call by
    displacement zero, never for a return. -/
def Transfer.Right (t : Transfer) (s : Emu) : Prop :=
  match t with
  | call_i => s.mem.read (s.cpu.eip + 1) 4 = .ok 0
  | call_rm => True
  | jmp_rm => True
  | ret_n => False
  | ret_i => False

/-- The memory the transfer uses is there: its own bytes, its operand, the stack slot
    and, for `ret_i`, the arguments it clears. -/
def Transfer.Accessible (t : Transfer) (s : Emu) : Prop :=
  match t with
  | call_i => InRange (s.cpu.eip + 1) 4 ∧ InRange (esp s - 4) 4
  | call_rm => (∃ r, Emu.decodeRm .long (s.cpu.eip + 1) s = .ok r) ∧ InRange (esp s - 4) 4
  | jmp_rm => ∃ r, Emu.decodeRm .long (s.cpu.eip + 1) s = .ok r
  | ret_n => InRange (esp s) 4
  | ret_i => InRange (esp s) 4 ∧ ∃ k, s.mem.read (s.cpu.eip + 1) 2 = .ok k ∧
      ∀ i, i < k.toNat → i % 4 = 0 → InRange (esp s + 4 + BitVec.ofNat 32 i) 4

/-! ## Running the helpers -/

-- ESP replaced
def setEsp (s : Emu) (v : Addr) : Emu := { s with cpu := s.cpu.setReg .long R_ESP v }

theorem gpr_setReg_long (c : CpuState) (i : RegIdx) (v : BitVec 32) :
    (c.setReg .long i v).gpr = Function.update c.gpr i v := rfl

@[simp] theorem esp_setEsp (s : Emu) (v : Addr) : esp (setEsp s v) = v := by
  rw [esp, setEsp, gpr_setReg_long, Function.update_self]

theorem writeRegL_esp_run (v : Addr) (s : Emu) :
    Emu.writeRegL R_ESP v s = .ok ((), setEsp s v) := rfl

section Helpers

variable {s s₁ : Emu} {eip : Addr} {m : FlatMem} {n : Nat} {v : BitVec 32}

/-- The 32-bit `call_i`: the return address is pushed and the displacement not added. -/
theorem callI_run (hdec : Emu.decodeI .long (eip + 1) s = .ok (n, s₁))
    (hw : s₁.mem.write (esp s₁ - 4) 4 (s₁.cpu.eip + BitVec.ofNat 32 (n + 1)) = .ok m) :
    Emu.callI .long eip s = .ok (n + 1, { setEsp s₁ (esp s₁ - 4) with mem := m }) := by
  have hwrite : Emu.memW .long (esp (setEsp s₁ (esp s₁ - 4)))
      ((setEsp s₁ (esp s₁ - 4)).cpu.eip + BitVec.ofNat 32 (n + 1)) (setEsp s₁ (esp s₁ - 4))
        = .ok ((), { setEsp s₁ (esp s₁ - 4) with mem := m }) :=
    Emu.memW_run (by rw [esp_setEsp]; exact hw)
  rw [Emu.callI, run_bind_ok hdec, run_bind_ok (Emu.readRegL_run ..),
    run_bind_ok (writeRegL_esp_run ..), run_bind_ok (Emu.getCpu_run _)]
  exact run_bind_ok hwrite

/-- The 32-bit `call_rm`: the operand, less the length the main loop will add. -/
theorem callRm_run (hdec : Emu.decodeRm .long (eip + 1) s = .ok (n, s₁))
    (hw : s₁.mem.write (esp s₁ - 4) 4 (s₁.cpu.eip + BitVec.ofNat 32 (n + 1)) = .ok m) :
    ∃ s', Emu.callRm .long eip s = .ok (n + 1, s') ∧
      s'.cpu.eip = s₁.ops.src.val - BitVec.ofNat 32 (n + 1) ∧ esp s' = esp s₁ - 4 ∧
      s'.mem = m := by
  have hwrite : Emu.memW .long (esp (setEsp s₁ (esp s₁ - 4)))
      ((setEsp s₁ (esp s₁ - 4)).cpu.eip + BitVec.ofNat 32 (n + 1)) (setEsp s₁ (esp s₁ - 4))
        = .ok ((), { setEsp s₁ (esp s₁ - 4) with mem := m }) :=
    Emu.memW_run (by rw [esp_setEsp]; exact hw)
  rw [Emu.callRm, run_bind_ok hdec, run_bind_ok (Emu.readRegL_run ..),
    run_bind_ok (writeRegL_esp_run ..), run_bind_ok (Emu.getCpu_run _)]
  refine ⟨_, run_bind_ok hwrite, ?_, esp_setEsp s₁ _, rfl⟩
  have hext : (s₁.ops.src.val.setWidth 32).signExtend 32 = s₁.ops.src.val := by
    rw [BitVec.setWidth_eq, BitVec.signExtend_eq]
  exact congrArg (· - BitVec.ofNat 32 (n + 1)) hext

theorem jmpRmL_run (hdec : Emu.decodeRm .long (eip + 1) s = .ok (n, s₁)) :
    Emu.jmpRmL eip s = .ok (n + 1, { s₁ with
      cpu := { s₁.cpu with eip := s₁.ops.src.val - BitVec.ofNat 32 (n + 1) } }) := by
  rw [Emu.jmpRmL, run_bind_ok hdec]
  rfl

/-- The 32-bit `ret_n` sets EIP to the return address itself. -/
theorem retN_run (hv : s.mem.read (esp s) 4 = .ok v) :
    Emu.retN .long eip s
      = .ok (1, setEsp { s with cpu := { s.cpu with eip := v } } (esp s + 4)) := by
  have hpop : Emu.popEip .long s = .ok ((), { s with cpu := { s.cpu with eip := v } }) := by
    rw [Emu.popEip, run_bind_ok (Emu.readRegL_run ..), run_bind_ok (Emu.memR_run hv)]
    rfl
  rw [Emu.retN, run_bind_ok hpop]
  rfl

/-- Clearing the arguments completes if they are in memory, and changes only memory. -/
theorem clearArgs_run (k : Nat) (fuel : Nat) : ∀ (i : Nat) (s : Emu),
    i % 4 = 0 → (∀ j, j < k → j % 4 = 0 → InRange (esp s + BitVec.ofNat 32 j) 4) →
    ∃ m, Emu.clearArgs .long k i fuel s = .ok ((), { s with mem := m }) := by
  induction fuel with
  | zero => exact fun i s _ _ => ⟨s.mem, rfl⟩
  | succ fuel ih =>
      intro i s hi hacc
      rw [Emu.clearArgs]
      by_cases hik : i < k
      · rw [if_pos hik]
        obtain ⟨m₁, hm₁⟩ : ∃ m₁, s.mem.write (esp s + BitVec.ofNat 32 i) 4 0 = .ok m₁ :=
          ⟨_, write_eq_ok.mpr ⟨hacc i hik hi, rfl⟩⟩
        have hwrite : Emu.memW .long (esp s + BitVec.ofNat 32 i) 0 s
            = .ok ((), { s with mem := m₁ }) := Emu.memW_run hm₁
        have hread : Emu.readReg32 .long R_ESP s = .ok (esp s, s) := by
          rw [Emu.readReg32, run_bind_ok (Emu.readReg_run ..)]
          exact congrArg (fun v => Except.ok (v, s)) (BitVec.setWidth_eq (esp s))
        obtain ⟨m, hm⟩ := ih (i + 4) { s with mem := m₁ } (by omega) hacc
        rw [run_bind_ok hread, run_bind_ok hwrite]
        exact ⟨m, hm⟩
      · rw [if_neg hik]
        exact ⟨s.mem, rfl⟩

/-- The 32-bit `ret_i`. -/
theorem retI_run {k : BitVec 32} (hk : s.mem.read (eip + 1) 2 = .ok k)
    (hv : s.mem.read (esp s) 4 = .ok v)
    (hacc : ∀ j, j < k.toNat → j % 4 = 0 → InRange (esp s + 4 + BitVec.ofNat 32 j) 4) :
    ∃ s', Emu.retI .long eip s = .ok (1, s') ∧ s'.cpu.eip = v ∧ esp s' = esp s + 4 + k := by
  have hfetch : Emu.instrFetch (eip + 1) 2 s = .ok (k, s) := Emu.swaddrRead_run rfl hk
  have hpop : Emu.popEip .long s = .ok ((), { s with cpu := { s.cpu with eip := v } }) := by
    rw [Emu.popEip, run_bind_ok (Emu.readRegL_run ..), run_bind_ok (Emu.memR_run hv)]
    rfl
  generalize hst : ({ s with cpu := { s.cpu with eip := v } } : Emu) = st at hpop
  have hesp : esp st = esp s := by rw [← hst]; rfl
  have heip : st.cpu.eip = v := by rw [← hst]
  have hskip : Emu.writeReg .long R_ESP (st.cpu.reg .long R_ESP + BitVec.ofNat _ Width.long.bytes)
      st = .ok ((), setEsp st (esp s + 4)) := by
    rw [← hesp]
    rfl
  obtain ⟨m, hclear⟩ := clearArgs_run k.toNat k.toNat 0 (setEsp st (esp s + 4)) rfl
    (by rw [esp_setEsp]; exact hacc)
  have hpops : Emu.writeReg .long R_ESP
      ((setEsp st (esp s + 4)).cpu.reg .long R_ESP + k.setWidth Width.long.bits)
      { setEsp st (esp s + 4) with mem := m } = .ok ((), setEsp
        { setEsp st (esp s + 4) with mem := m } (esp (setEsp st (esp s + 4)) + k.setWidth 32)) :=
    rfl
  rw [Emu.retI, run_bind_ok hfetch, run_bind_ok hpop, run_bind_ok (Emu.readReg_run ..),
    run_bind_ok hskip, run_bind_ok hclear, run_bind_ok (Emu.readReg_run ..), run_bind_ok hpops]
  refine ⟨_, rfl, heip, ?_⟩
  rw [esp_setEsp, esp_setEsp, BitVec.setWidth_eq]

end Helpers

/-! ## One step of each transfer -/

/-- A cleared argument was in memory. -/
theorem clearArgs_inRange (k : Nat) (fuel : Nat) : ∀ (i : Nat) (s s' : Emu) (u : Unit),
    i % 4 = 0 → Emu.clearArgs .long k i fuel s = .ok (u, s') →
    ∀ j, i ≤ j → j < k → j < i + 4 * fuel → j % 4 = 0 →
      InRange (esp s + BitVec.ofNat 32 j) 4 := by
  induction fuel with
  | zero => intro i s s' u _ _ j hij _ hj _; omega
  | succ fuel ih =>
      intro i s s' u hi h j hij hjk hj hj4
      rw [Emu.clearArgs, if_pos (by omega)] at h
      have hread : Emu.readReg32 .long R_ESP s = .ok (esp s, s) := by
        rw [Emu.readReg32, run_bind_ok (Emu.readReg_run ..)]
        exact congrArg (fun v => Except.ok (v, s)) (BitVec.setWidth_eq (esp s))
      rw [run_bind_ok hread] at h
      obtain ⟨u₁, s₁, hwrite, hrest⟩ := run_bind_eq_ok.mp h
      obtain ⟨m, hm, rfl⟩ := Emu.memW_ok hwrite
      by_cases hji : j = i
      · rw [hji]
        exact (write_eq_ok.mp hm).1
      · exact ih (i + 4) _ s' u (by omega) hrest j (by omega) hjk (by omega) hj4

namespace Transfer

section Step

variable {t : Transfer} {s s' : Emu} {n : Nat}

-- a step is the helper, then the addition to EIP
theorem step_of_helper {s₁ : Emu} (h : t.helper s.cpu.eip s = .ok (n, s₁)) :
    t.step s = .ok (n, { s₁ with
      cpu := { s₁.cpu with eip := s₁.cpu.eip + BitVec.ofNat 32 n } }) := by
  rw [step, Emu.advance, run_bind_ok (Emu.getCpu_run s), run_bind_ok h,
    run_bind_ok (Emu.modifyCpu_run _ s₁)]
  rfl

theorem helper_of_step (h : t.step s = .ok (n, s')) :
    ∃ s₁, t.helper s.cpu.eip s = .ok (n, s₁) := by
  obtain ⟨cpu, s₁, hcpu, hrun⟩ := run_bind_eq_ok.mp h
  obtain ⟨k, s₂, hhelper, hrest⟩ := run_bind_eq_ok.mp hrun
  cases hcpu
  cases hrest
  exact ⟨s₂, hhelper⟩

theorem helperV_long (h32 : s.ops.is_operand_size_16 = false) (g : Width → Addr → EmuM Nat)
    (eip : Addr) : Emu.helperV g eip s = g .long eip s := by
  rw [Emu.helperV_run, h32]
  rfl

/-- A completed push had its slot in memory. -/
theorem push_inRange {w : BitVec 32 → BitVec 32} {k : EmuM Nat}
    (h : (do
      let sp ← Emu.readRegL R_ESP
      Emu.writeRegL R_ESP (sp - BitVec.ofNat 32 Width.long.bytes)
      let cpu ← Emu.getCpu
      Emu.memW .long (cpu.gpr R_ESP) (w cpu.eip)
      k) s = .ok (n, s')) : InRange (esp s - 4) 4 := by
  rw [run_bind_ok (Emu.readRegL_run ..), run_bind_ok (writeRegL_esp_run ..),
    run_bind_ok (Emu.getCpu_run _)] at h
  obtain ⟨u, s₁, hwrite, -⟩ := run_bind_eq_ok.mp h
  obtain ⟨m, hm, -⟩ := Emu.memW_ok hwrite
  have hin := (write_eq_ok.mp hm).1
  have hesp : (setEsp s (s.cpu.gpr R_ESP - 4)).cpu.gpr R_ESP = esp s - 4 := esp_setEsp s _
  rw [← hesp]
  exact hin

/-- A completed pop of the return address read it at ESP. -/
theorem popEip_inRange {u : Unit} (h : Emu.popEip .long s = .ok (u, s')) :
    InRange (esp s) 4 ∧ ∃ v, s' = { s with cpu := { s.cpu with eip := v } } := by
  rw [Emu.popEip, run_bind_ok (Emu.readRegL_run ..)] at h
  obtain ⟨v, s₁, hread, hset⟩ := run_bind_eq_ok.mp h
  obtain ⟨rfl, hread⟩ := Emu.instrFetch_ok hread
  cases hset
  exact ⟨(read_eq_ok.mp hread).1, _, rfl⟩

/-- A step that completes found its memory. -/
theorem accessible_of_step (h32 : s.ops.is_operand_size_16 = false)
    (h : t.step s = .ok (n, s')) : t.Accessible s := by
  obtain ⟨s₁, hrun⟩ := helper_of_step h
  cases t with
  | call_i =>
      rw [helper, helperV_long h32] at hrun
      obtain ⟨len, s₂, hdec, hpush⟩ := run_bind_eq_ok.mp hrun
      obtain ⟨v, s₃, hfetch, -⟩ := run_bind_eq_ok.mp hdec
      have hin := (Emu.instrFetch_yields _ _ _ _ _ hfetch).2.2
      have hcpu : s₂.cpu = s.cpu :=
        congrArg Machine.cpu ((Emu.decodeI_consumes .long _).keeps _ _ _ hdec)
      have hslot := push_inRange (w := fun a => a + BitVec.ofNat 32 (len + 1)) hpush
      rw [esp, hcpu] at hslot
      exact ⟨hin, hslot⟩
  | call_rm =>
      rw [helper, helperV_long h32] at hrun
      obtain ⟨len, s₂, hdec, hpush⟩ := run_bind_eq_ok.mp hrun
      have hcpu : s₂.cpu = s.cpu :=
        congrArg Machine.cpu ((Emu.decodeRmInternal_consumes .long _ _ _).keeps _ _ _ hdec)
      have hslot := push_inRange (w := fun a => a + BitVec.ofNat 32 (len + 1)) hpush
      rw [esp, hcpu] at hslot
      exact ⟨⟨_, hdec⟩, hslot⟩
  | jmp_rm =>
      obtain ⟨len, s₂, hdec, -⟩ := run_bind_eq_ok.mp hrun
      exact ⟨_, hdec⟩
  | ret_n =>
      rw [helper, helperV_long h32] at hrun
      obtain ⟨u, s₂, hpop, -⟩ := run_bind_eq_ok.mp hrun
      exact (popEip_inRange hpop).1
  | ret_i =>
      rw [helper, helperV_long h32] at hrun
      obtain ⟨k, s₂, hfetch, hrun₂⟩ := run_bind_eq_ok.mp hrun
      obtain ⟨u, s₃, hpop, hrun₃⟩ := run_bind_eq_ok.mp hrun₂
      obtain ⟨hs₂, hk⟩ := Emu.instrFetch_ok hfetch
      rw [hs₂] at hpop
      obtain ⟨hslot, v, hs₃⟩ := popEip_inRange hpop
      rw [run_bind_ok (Emu.readReg_run ..)] at hrun₃
      obtain ⟨u', s₄, hesp, hrun₄⟩ := run_bind_eq_ok.mp hrun₃
      obtain ⟨u'', s₅, hclear, -⟩ := run_bind_eq_ok.mp hrun₄
      have hs₄ : esp s₄ = esp s + 4 := by
        cases hesp
        rw [hs₃]
        exact esp_setEsp s _
      refine ⟨hslot, k, hk, fun j hj hj4 => ?_⟩
      rw [← hs₄]
      exact clearArgs_inRange k.toNat k.toNat 0 s₄ s₅ u'' rfl hclear j (by omega) hj (by omega) hj4

/-- What the step does: as `Meets`, but for the displacement of `call_i` and the byte
    by which the returns overshoot. -/
def Does (t : Transfer) (s : Emu) (n : Nat) (s' : Emu) : Prop :=
  match t with
  | call_i => ∃ d, s.mem.read (s.cpu.eip + 1) 4 = .ok d ∧ n = 5 ∧
      s'.cpu.eip = s.cpu.eip + 5 ∧ Pushed s s' (s.cpu.eip + 5)
  | call_rm => n = rmLength s ∧ call_rm.Meets s s'
  | jmp_rm => jmp_rm.Meets s s'
  | ret_n => ∃ v, s.mem.read (esp s) 4 = .ok v ∧ s'.cpu.eip = v + 1 ∧ esp s' = esp s + 4
  | ret_i => ∃ v k, s.mem.read (esp s) 4 = .ok v ∧ s.mem.read (s.cpu.eip + 1) 2 = .ok k ∧
      s'.cpu.eip = v + 1 ∧ esp s' = esp s + 4 + k

-- the pushed dword is read back whole
theorem read_pushed {m m' : FlatMem} {a : Addr} {v : BitVec 32} (h : m.write a 4 v = .ok m') :
    m'.read a 4 = .ok v := by
  have hlt : v.toNat < 2 ^ 32 := v.isLt
  rw [read_of_write h]
  congr 1
  rw [Nat.mod_eq_of_lt (by omega), BitVec.ofNat_toNat, BitVec.setWidth_eq]

theorem inRange_read {m : FlatMem} {a : Addr} {k : Nat} (h : InRange a k) :
    ∃ v, m.read a k = .ok v := ⟨_, read_eq_ok.mpr ⟨h, rfl⟩⟩

theorem inRange_write {m : FlatMem} {a : Addr} {k : Nat} (h : InRange a k) (v : BitVec 32) :
    ∃ m', m.write a k v = .ok m' := ⟨_, write_eq_ok.mpr ⟨h, rfl⟩⟩

/-- Every transfer completes where its memory is accessible, and does what `Does` says. -/
theorem step_does (h32 : s.ops.is_operand_size_16 = false) (hacc : t.Accessible s) :
    ∃ n s', t.step s = .ok (n, s') ∧ t.Does s n s' := by
  cases t with
  | call_i =>
      obtain ⟨d, hd⟩ := inRange_read (m := s.mem) hacc.1
      obtain ⟨s₁, hdec, -, hcpu, hmem⟩ := Emu.decodeI_run (w := .long) hd
      obtain ⟨m, hm⟩ := inRange_write (m := s.mem) hacc.2 (s.cpu.eip + 5)
      have hesp : esp s₁ = esp s := congrArg (fun c : CpuState => c.gpr R_ESP) hcpu
      have hrun := callI_run (m := m) hdec (by rw [hesp, hcpu, hmem]; exact hm)
      rw [← helperV_long h32 Emu.callI] at hrun
      have heip := congrArg (fun c : CpuState => c.eip + 5) hcpu
      have hesp' : esp (setEsp s₁ (esp s₁ - 4)) = esp s - 4 := by rw [esp_setEsp, hesp]
      refine ⟨_, _, step_of_helper (t := call_i) hrun, d, hd, rfl, heip, hesp', ?_⟩
      exact (congrArg (fun a => m.read a 4) hesp').trans (read_pushed hm)
  | call_rm =>
      obtain ⟨⟨⟨n, s₁⟩, hdec⟩, hslot⟩ := hacc
      obtain ⟨hkeep, hlen, -⟩ := Emu.decodeRmInternal_consumes .long _ _ _ _ _ _ hdec
      have hcpu : s₁.cpu = s.cpu := congrArg Machine.cpu hkeep
      have hmem : s₁.mem = s.mem := congrArg Machine.mem hkeep
      have hesp : esp s₁ = esp s := congrArg (fun c : CpuState => c.gpr R_ESP) hcpu
      have hn : n + 1 = rmLength s := by
        rw [hlen, Nat.add_comm]
        rfl
      obtain ⟨m, hm⟩ := inRange_write (m := s.mem) hslot
        (s.cpu.eip + BitVec.ofNat 32 (rmLength s))
      obtain ⟨s₂, hrun, heip, hesp₂, hmem₂⟩ := callRm_run (m := m) hdec
        (by rw [hesp, hcpu, hmem, hn]; exact hm)
      rw [← helperV_long h32 Emu.callRm] at hrun
      have hesp' : esp s₂ = esp s - 4 := by rw [hesp₂, hesp]
      refine ⟨_, _, step_of_helper (t := call_rm) hrun, hn, n, s₁, hdec, ?_, hesp', ?_⟩
      · exact (congrArg (· + BitVec.ofNat 32 (n + 1)) heip).trans (BitVec.sub_add_cancel ..)
      · have hread : s₂.mem.read (esp s₂) 4 = .ok (s.cpu.eip + BitVec.ofNat 32 (rmLength s)) := by
          rw [hmem₂, hesp']
          exact read_pushed hm
        exact hread
  | jmp_rm =>
      obtain ⟨⟨n, s₁⟩, hdec⟩ := hacc
      refine ⟨_, _, step_of_helper (t := jmp_rm) (jmpRmL_run hdec), n, s₁, hdec, ?_⟩
      exact BitVec.sub_add_cancel ..
  | ret_n =>
      obtain ⟨v, hv⟩ := inRange_read (m := s.mem) hacc
      have hrun : Emu.retN .long s.cpu.eip s = _ := retN_run hv
      rw [← helperV_long h32 Emu.retN] at hrun
      refine ⟨_, _, step_of_helper (t := ret_n) hrun, v, hv, rfl, ?_⟩
      exact esp_setEsp { s with cpu := { s.cpu with eip := v } } _
  | ret_i =>
      obtain ⟨hslot, k, hk, hargs⟩ := hacc
      obtain ⟨v, hv⟩ := inRange_read (m := s.mem) hslot
      obtain ⟨s₁, hrun, heip, hesp⟩ := retI_run hk hv hargs
      rw [← helperV_long h32 Emu.retI] at hrun
      refine ⟨_, _, step_of_helper (t := ret_i) hrun, v, k, hv, hk, ?_, hesp⟩
      exact congrArg (· + 1) heip

/-- What a step does is what it should do exactly when `Right`. -/
theorem Does.meets_iff (h : t.Does s n s') : t.Meets s s' ↔ t.Right s := by
  have hself : ∀ a b : BitVec 32, a = a + b ↔ b = 0 := by
    intro a b
    rw [BitVec.self_eq_add_right]
    rfl
  have hone : ∀ a : BitVec 32, a + 1 ≠ a := by
    intro a ha
    exact absurd ((hself a 1).mp ha.symm) (by decide)
  cases t with
  | call_i =>
      obtain ⟨d, hd, -, heip, hpushed⟩ := h
      apply Iff.intro
      · rintro ⟨d', hd', heip', -⟩
        obtain rfl : d' = d := Except.ok.inj (hd'.symm.trans hd)
        rw [heip, hself] at heip'
        rw [Right, hd, heip']
      · intro hzero
        obtain rfl : d = 0 := Except.ok.inj (hd.symm.trans hzero)
        exact ⟨0, hd, heip.trans (BitVec.add_zero _).symm, hpushed⟩
  | call_rm => exact iff_of_true h.2 trivial
  | jmp_rm => exact iff_of_true h trivial
  | ret_n =>
      obtain ⟨v, hv, heip, -⟩ := h
      refine iff_of_false ?_ id
      rintro ⟨v', hv', heip', -⟩
      obtain rfl : v' = v := Except.ok.inj (hv'.symm.trans hv)
      exact hone v' (heip.symm.trans heip')
  | ret_i =>
      obtain ⟨v, k, hv, -, heip, -⟩ := h
      refine iff_of_false ?_ id
      rintro ⟨v', k', hv', -, heip', -⟩
      obtain rfl : v' = v := Except.ok.inj (hv'.symm.trans hv)
      exact hone v' (heip.symm.trans heip')

/-- What is known of a step that completed. -/
theorem does_of_step (h32 : s.ops.is_operand_size_16 = false) (h : t.step s = .ok (n, s')) :
    t.Does s n s' := by
  obtain ⟨k, s₁, hrun, hdoes⟩ := step_does h32 (accessible_of_step h32 h)
  rw [h] at hrun
  cases hrun
  exact hdoes

end Step

end Transfer

/-! ## Nested calls and returns -/

/-- A call and the return that ended it: the states before the call and after the
    return, the length of the call and the argument bytes the return popped. -/
structure Activation where
  before : Emu
  len : Nat
  after : Emu
  args : BitVec 32

namespace Activation

/-- The return resumed at the byte after the call, with ESP restored. -/
def Resumed (a : Activation) : Prop :=
  a.after.cpu.eip = a.before.cpu.eip + BitVec.ofNat 32 a.len ∧
    esp a.after = esp a.before + a.args

/-- What a return does instead: it resumes one byte further on. -/
def Overshot (a : Activation) : Prop :=
  a.after.cpu.eip = a.before.cpu.eip + BitVec.ofNat 32 a.len + 1 ∧
    esp a.after = esp a.before + a.args

theorem Overshot.not_resumed {a : Activation} (h : a.Overshot) : ¬ a.Resumed := by
  intro hr
  have hone := h.1.symm.trans hr.1
  rw [BitVec.add_right_eq_self] at hone
  exact absurd hone (by decide)

end Activation

-- the argument bytes a return pops
def Transfer.popped (r : Transfer) (s : Emu) : BitVec 32 :=
  if r = ret_i then BitVec.ofNat 32 (ByteSeq.load s.mem (s.cpu.eip + 1).toNat 2) else 0

/-- A run from `s` to `s'` that changes ESP by `δ`: calls with the bodies and the
    returns that end them, and whatever else happens in between.  A body leaves ESP
    where it found it and preserves the slot of its return address. -/
inductive Nested : Emu → Emu → BitVec 32 → List Activation → Prop
  | done (s : Emu) : Nested s s 0 []
  | other {s s₁ s' : Emu} {δ δ' : BitVec 32} {acts : List Activation}
      (hesp : esp s₁ = esp s + δ) (hrest : Nested s₁ s' δ' acts) : Nested s s' (δ + δ') acts
  | call {s s₁ s₂ s₃ s' : Emu} {c r : Transfer} {n k : Nat} {δ : BitVec 32}
      {inner outer : List Activation}
      (hc : c = .call_i ∨ c = .call_rm) (hr : r = .ret_n ∨ r = .ret_i)
      (h32 : s.ops.is_operand_size_16 = false) (h32' : s₂.ops.is_operand_size_16 = false)
      (hcall : c.step s = .ok (n, s₁)) (hbody : Nested s₁ s₂ 0 inner)
      (hslot : s₂.mem.read (esp s₁) 4 = s₁.mem.read (esp s₁) 4)
      (hret : r.step s₂ = .ok (k, s₃)) (hrest : Nested s₃ s' δ outer) :
      Nested s s' (r.popped s₂ + δ) (⟨s, n, s₃, r.popped s₂⟩ :: (inner ++ outer))

/-- A call pushes the address behind itself. -/
theorem pushed_of_call {c : Transfer} {s s₁ : Emu} {n : Nat} (hc : c = .call_i ∨ c = .call_rm)
    (h32 : s.ops.is_operand_size_16 = false) (hcall : c.step s = .ok (n, s₁)) :
    Pushed s s₁ (s.cpu.eip + BitVec.ofNat 32 n) := by
  have hdoes := Transfer.does_of_step h32 hcall
  rcases hc with rfl | rfl
  · obtain ⟨d, -, rfl, -, hpushed⟩ := hdoes
    exact hpushed
  · obtain ⟨hn, -, -, -, -, hpushed⟩ := hdoes
    rw [hn]
    exact hpushed

/-- A return ends one byte behind the dword at ESP and pops it and its arguments. -/
theorem overshot_of_return {r : Transfer} {s s₁ : Emu} {k : Nat} {v : BitVec 32}
    (hr : r = .ret_n ∨ r = .ret_i) (h32 : s.ops.is_operand_size_16 = false)
    (hret : r.step s = .ok (k, s₁)) (hv : s.mem.read (esp s) 4 = .ok v) :
    s₁.cpu.eip = v + 1 ∧ esp s₁ = esp s + 4 + r.popped s := by
  have hdoes := Transfer.does_of_step h32 hret
  rcases hr with rfl | rfl
  · obtain ⟨v', hv', heip, hesp⟩ := hdoes
    obtain rfl : v' = v := Except.ok.inj (hv'.symm.trans hv)
    exact ⟨heip, hesp.trans (BitVec.add_zero _).symm⟩
  · obtain ⟨v', k', hv', hk', heip, hesp⟩ := hdoes
    obtain rfl : v' = v := Except.ok.inj (hv'.symm.trans hv)
    obtain ⟨-, rfl⟩ := read_eq_ok.mp hk'
    exact ⟨heip, hesp⟩

/-- **Run rule.** A nested run changes ESP as stated, and every return in it resumes
    one byte behind the instruction after its call, with ESP restored. -/
theorem nested_overshot {s s' : Emu} {δ : BitVec 32} {acts : List Activation}
    (h : Nested s s' δ acts) : esp s' = esp s + δ ∧ ∀ a ∈ acts, a.Overshot := by
  induction h with
  | done s => exact ⟨(BitVec.add_zero _).symm, fun a ha => nomatch ha⟩
  | other hesp hrest ih =>
      rw [hesp, BitVec.add_assoc] at ih
      exact ih
  | @call s s₁ s₂ s₃ s' c r n k δ inner outer hc hr h32 h32' hcall hbody hslot hret hrest ihbody
      ihrest =>
      obtain ⟨hesp₁, hsaved⟩ := pushed_of_call hc h32 hcall
      -- the body is back at the slot, which still holds the return address
      have hesp₂ : esp s₂ = esp s₁ := ihbody.1.trans (BitVec.add_zero _)
      have hv : s₂.mem.read (esp s₂) 4 = .ok (s.cpu.eip + BitVec.ofNat 32 n) := by
        rw [hesp₂, hslot, hsaved]
      obtain ⟨heip₃, hesp₃⟩ := overshot_of_return hr h32' hret hv
      have hback : esp s₃ = esp s + r.popped s₂ := by
        rw [hesp₃, hesp₂, hesp₁, BitVec.sub_add_cancel]
      refine ⟨?_, ?_⟩
      · rw [ihrest.1, hback, BitVec.add_assoc]
      · intro a ha
        rcases List.mem_cons.mp ha with rfl | ha
        · exact ⟨heip₃, hback⟩
        · rcases List.mem_append.mp ha with ha | ha
          · exact ihbody.2 a ha
          · exact ihrest.2 a ha

/-- **Control transfers.** A step with 32-bit operands whose memory is accessible
    completes, and is right exactly for an indirect call or jump and for a direct call
    by zero; and a nested run resumes behind its calls exactly when nothing in it
    returned. -/
theorem transfers_right_iff (t : Transfer) (s s' : Emu) (δ : BitVec 32)
    (acts : List Activation) :
    (s.ops.is_operand_size_16 = false → t.Accessible s →
      ∃ n s₁, t.step s = .ok (n, s₁) ∧ (t.Meets s s₁ ↔ t.Right s)) ∧
    (Nested s s' δ acts → ((∀ a ∈ acts, a.Resumed) ↔ acts = [])) := by
  refine ⟨?_, ?_⟩
  · intro h32 hacc
    obtain ⟨n, s₁, hrun, hdoes⟩ := Transfer.step_does h32 hacc
    exact ⟨n, s₁, hrun, hdoes.meets_iff⟩
  · intro h
    apply Iff.intro
    · intro hall
      cases acts with
      | nil => rfl
      | cons a acts =>
          have hover := (nested_overshot h).2 a (List.mem_cons_self ..)
          exact absurd (hall a (List.mem_cons_self ..)) hover.not_resumed
    · rintro rfl a ha
      exact nomatch ha

-- a stack below address 64 in empty memory
def emptyStack : Emu :=
  setEsp (Emu.zeroed fun _ => 0) 64

/-- The rules at a direct call by zero, and at a run of that call and its return. -/
theorem call_then_return :
    ∃ n s₁ k s₂, Transfer.call_i.step emptyStack = .ok (n, s₁) ∧
      Transfer.call_i.Meets emptyStack s₁ ∧ Transfer.ret_n.step s₁ = .ok (k, s₂) ∧
      ¬ Activation.Resumed ⟨emptyStack, n, s₂, 0⟩ := by
  have hacc : Transfer.call_i.Accessible emptyStack := ⟨by decide, by decide⟩
  obtain ⟨n, s₁, hcall, hmeets⟩ := (transfers_right_iff .call_i emptyStack emptyStack 0 []).1 rfl hacc
  obtain ⟨hesp, hsaved⟩ := pushed_of_call (.inl rfl) rfl hcall
  have h32 : s₁.ops.is_operand_size_16 = false := by
    cases hcall
    rfl
  have hslot : InRange (esp s₁) 4 := (read_eq_ok.mp hsaved).1
  obtain ⟨k, s₂, hret, -⟩ := (transfers_right_iff .ret_n s₁ s₁ 0 []).1 h32 hslot
  have hrun : Nested emptyStack s₂ (0 + 0) [⟨emptyStack, n, s₂, 0⟩] :=
    .call (.inl rfl) (.inl rfl) rfl h32 hcall (.done s₁) rfl hret (.done s₂)
  have hresumed := (transfers_right_iff .ret_n _ _ _ _).2 hrun
  refine ⟨n, s₁, k, s₂, hcall, hmeets.mpr rfl, hret, fun h => ?_⟩
  have hnil := hresumed.mp (fun a ha => by rw [List.mem_singleton.mp ha]; exact h)
  exact nomatch hnil

/-- A return to address zero ends at one. -/
theorem ret_n_overshoots :
    ∃ n s', Transfer.ret_n.step emptyStack = .ok (n, s') ∧
      ¬ Transfer.ret_n.Meets emptyStack s' := by
  refine ⟨_, _, rfl, ?_⟩
  rintro ⟨v, hv, heip, -⟩
  obtain rfl : 0 = v := Except.ok.inj hv
  exact absurd heip (by decide)

end Nemu
