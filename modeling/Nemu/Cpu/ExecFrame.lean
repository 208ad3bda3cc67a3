/-
  Nemu.Cpu.ExecFrame

  Who writes EIP.  No decode helper and no execute body does, and of the helpers in
  the opcode tables only the indirect call and the indirect jump do; the rest of the
  program counter's movement is the length the main loop adds.
-/

import Nemu.Cpu.DecodeLength
import Nemu.Cpu.Exec.Table

namespace Nemu

open Outcome Frame

namespace Emu

-- the program counter, as something to keep
def eipOf (s : Emu) : Addr := s.cpu.eip

theorem keeps_eip_of_machine {α : Type} {x : EmuM α} (h : Keeps machine x) : Keeps eipOf x :=
  h.comp (fun m => m.cpu.eip)

/-! ## Primitives -/

@[simp] theorem keeps_eip_setOp (x : OpSel) (o : Operand) : Keeps eipOf (setOp x o) := by
  intro s a s' h
  cases h
  rfl

@[simp] theorem keeps_eip_setVal (x : OpSel) (v : BitVec 32) : Keeps eipOf (setVal x v) :=
  keeps_eip_of_machine (keeps_machine_setVal x v)

@[simp] theorem keeps_eip_setNemuState (n : NemuState) : Keeps eipOf (setNemuState n) := by
  intro s a s' h
  cases h
  rfl

@[simp] theorem keeps_eip_modifyOps (f : Operands → Operands) : Keeps eipOf (modifyOps f) := by
  intro s a s' h
  cases h
  rfl

@[simp] theorem keeps_eip_modifyFlags (f : EFlags → EFlags) : Keeps eipOf (modifyFlags f) := by
  intro s a s' h
  cases h
  rfl

@[simp] theorem keeps_eip_updateEflagsPfZfSf (r : BitVec 32) :
    Keeps eipOf (updateEflagsPfZfSf r) :=
  keeps_eip_modifyFlags _

@[simp] theorem keeps_eip_setCF (b : Bool) : Keeps eipOf (setCF b) := keeps_eip_modifyFlags _

@[simp] theorem keeps_eip_setOF (b : Bool) : Keeps eipOf (setOF b) := keeps_eip_modifyFlags _

theorem eip_setReg (w : Width) (c : CpuState) (i : RegIdx) (v : BitVec w.bits) :
    (c.setReg w i v).eip = c.eip := by
  cases w <;> rfl

@[simp] theorem keeps_eip_writeReg (w : Width) (i : RegIdx) (v : BitVec w.bits) :
    Keeps eipOf (writeReg w i v) := by
  intro s a s' h
  rw [writeReg_run] at h
  cases h
  exact eip_setReg ..

@[simp] theorem keeps_eip_writeRegL (i : RegIdx) (v : BitVec 32) : Keeps eipOf (writeRegL i v) :=
  keeps_eip_writeReg .long i v

@[simp] theorem keeps_eip_swaddrWrite (addr : Addr) (len : Nat) (v : BitVec 32) :
    Keeps eipOf (swaddrWrite addr len v) := by
  intro s a s' h
  rw [swaddrWrite, bind_eq_ok] at h
  obtain ⟨-, -, h⟩ := h
  obtain ⟨m, -, hm⟩ := bind_eq_ok.mp h
  cases hm
  rfl

@[simp] theorem keeps_eip_memW (w : Width) (addr : Addr) (v : BitVec 32) :
    Keeps eipOf (memW w addr v) :=
  keeps_eip_swaddrWrite addr w.bytes v

@[simp] theorem keeps_memR {γ : Type} (f : Emu → γ) (w : Width) (addr : Addr) :
    Keeps f (memR w addr) :=
  keeps_swaddrRead f addr w.bytes

@[simp] theorem keeps_eip_writeOperand (w : Width) (o : Operand) (v : BitVec w.bits) :
    Keeps eipOf (writeOperand w o v) := by
  rw [writeOperand]
  split <;> simp

/-! ## Execute bodies -/

section Bodies

variable (w : Width)

@[simp] theorem keeps_eip_doAdd : Keeps eipOf (doAdd w) := by
  unfold doAdd
  repeat' with_reducible refine keeps_bind ?_ fun _ => ?_
  all_goals simp

@[simp] theorem keeps_eip_doAdc : Keeps eipOf (doAdc w) := by
  unfold doAdc
  repeat' with_reducible refine keeps_bind ?_ fun _ => ?_
  all_goals simp

@[simp] theorem keeps_eip_doSub : Keeps eipOf (doSub w) := by
  unfold doSub
  repeat' with_reducible refine keeps_bind ?_ fun _ => ?_
  all_goals simp

@[simp] theorem keeps_eip_doSbb : Keeps eipOf (doSbb w) := by
  unfold doSbb
  repeat' with_reducible refine keeps_bind ?_ fun _ => ?_
  all_goals simp

@[simp] theorem keeps_eip_doCmp : Keeps eipOf (doCmp w) := by
  unfold doCmp
  repeat' with_reducible refine keeps_bind ?_ fun _ => ?_
  all_goals simp

@[simp] theorem keeps_eip_doInc : Keeps eipOf (doInc w) := by
  unfold doInc
  repeat' with_reducible refine keeps_bind ?_ fun _ => ?_
  all_goals simp

@[simp] theorem keeps_eip_doDec : Keeps eipOf (doDec w) := by
  unfold doDec
  repeat' with_reducible refine keeps_bind ?_ fun _ => ?_
  all_goals simp

@[simp] theorem keeps_eip_doNeg : Keeps eipOf (doNeg w) := by
  unfold doNeg
  repeat' with_reducible refine keeps_bind ?_ fun _ => ?_
  all_goals simp

@[simp] theorem keeps_eip_writeProduct (r : BitVec 64) : Keeps eipOf (writeProduct w r) := by
  cases w with
  | byte => exact keeps_eip_writeReg .word R_EAX _
  | word =>
      exact keeps_bind (keeps_eip_writeReg .word R_EAX _) fun _ =>
        keeps_eip_writeReg .word R_EDX _
  | long =>
      exact keeps_bind (keeps_eip_writeRegL R_EAX _) fun _ => keeps_eip_writeRegL R_EDX _

@[simp] theorem keeps_eip_doMul : Keeps eipOf (doMul w) := by
  unfold doMul
  repeat' with_reducible refine keeps_bind ?_ fun _ => ?_
  all_goals simp

@[simp] theorem keeps_eip_imulRm2aBody : Keeps eipOf (imulRm2aBody w) := by
  unfold imulRm2aBody
  repeat' with_reducible refine keeps_bind ?_ fun _ => ?_
  all_goals simp

@[simp] theorem keeps_eip_doImul : Keeps eipOf (doImul w) := by
  unfold doImul
  repeat' with_reducible refine keeps_bind ?_ fun _ => ?_
  all_goals simp

@[simp] theorem keeps_eip_doDiv : Keeps eipOf (doDiv w) := by
  unfold doDiv
  repeat' with_reducible refine keeps_bind ?_ fun _ => ?_
  · simp
  · simp
  · exact keeps_ite (by simp) (keeps_bind (by simp) fun _ => by simp)

@[simp] theorem keeps_eip_doIdiv : Keeps eipOf (doIdiv w) := by
  unfold doIdiv
  repeat' with_reducible refine keeps_bind ?_ fun _ => ?_
  · simp
  · simp
  · exact keeps_ite (by simp) (keeps_bind (by simp) fun _ => by simp)

@[simp] theorem keeps_eip_doBitwise (op : BitVec 32 → BitVec 32 → BitVec 32) :
    Keeps eipOf (doBitwise op w) := by
  unfold doBitwise
  repeat' with_reducible refine keeps_bind ?_ fun _ => ?_
  all_goals simp

@[simp] theorem keeps_eip_doNot : Keeps eipOf (doNot w) := by
  unfold doNot
  repeat' with_reducible refine keeps_bind ?_ fun _ => ?_
  all_goals simp

@[simp] theorem keeps_eip_doTest : Keeps eipOf (doTest w) := by
  unfold doTest
  repeat' with_reducible refine keeps_bind ?_ fun _ => ?_
  all_goals simp

@[simp] theorem keeps_eip_doShl : Keeps eipOf (doShl w) := by
  unfold doShl
  repeat' with_reducible refine keeps_bind ?_ fun _ => ?_
  all_goals simp

@[simp] theorem keeps_eip_doShr : Keeps eipOf (doShr w) := by
  unfold doShr
  repeat' with_reducible refine keeps_bind ?_ fun _ => ?_
  all_goals simp

@[simp] theorem keeps_eip_doSar : Keeps eipOf (doSar w) := by
  unfold doSar
  repeat' with_reducible refine keeps_bind ?_ fun _ => ?_
  all_goals simp

@[simp] theorem keeps_eip_doMov : Keeps eipOf (doMov w) := by
  unfold doMov
  repeat' with_reducible refine keeps_bind ?_ fun _ => ?_
  all_goals simp

@[simp] theorem keeps_eip_doPush : Keeps eipOf (doPush w) := by
  unfold doPush
  repeat' with_reducible refine keeps_bind ?_ fun _ => ?_
  all_goals simp

@[simp] theorem keeps_eip_doPop : Keeps eipOf (doPop w) := by
  unfold doPop
  repeat' with_reducible refine keeps_bind ?_ fun _ => ?_
  all_goals simp

@[simp] theorem keeps_eip_stepIndex (r : RegIdx) : Keeps eipOf (stepIndex w r) := by
  unfold stepIndex
  repeat' with_reducible refine keeps_bind ?_ fun _ => ?_
  all_goals simp

end Bodies

/-! ## Instruction helpers -/

section Helpers

variable (eip : Addr)

theorem keeps_idex {γ : Type} {f : Emu → γ} {dec : Addr → EmuM Nat} {ex : EmuM Unit}
    (hdec : Keeps f (dec (eip + 1))) (hex : Keeps f ex) : Keeps f (idex dec ex eip) :=
  keeps_bind hdec fun n => keeps_bind hex fun _ => keeps_pure (n + 1)

theorem keeps_helperV {γ : Type} {f : Emu → γ} {g : Width → Addr → EmuM Nat}
    (h : ∀ w, Keeps f (g w eip)) : Keeps f (helperV g eip) :=
  keeps_bind (keeps_getOps f) fun _ => keeps_ite (h .word) (h .long)

theorem keeps_eip_of_decodes {dec : Width → Addr → EmuM Nat} {rm : Bool} {imm : Width → Nat}
    (h : Decodes dec rm imm) (w : Width) : Keeps eipOf (dec w eip) :=
  keeps_eip_of_machine (h w eip).keeps

theorem keeps_eip_movA2moffs (w : Width) : Keeps eipOf (movA2moffs w eip) := by
  unfold movA2moffs
  repeat' with_reducible refine keeps_bind ?_ fun _ => ?_
  all_goals simp

theorem keeps_eip_movMoffs2a (w : Width) : Keeps eipOf (movMoffs2a w eip) := by
  unfold movMoffs2a
  repeat' with_reducible refine keeps_bind ?_ fun _ => ?_
  all_goals simp

theorem keeps_eip_movExt (from_ : Width) (ext : BitVec from_.bits → BitVec 32) (w : Width) :
    Keeps eipOf (movExt from_ ext w eip) := by
  unfold movExt
  refine keeps_bind ?_ fun n => ?_
  · exact keeps_eip_of_decodes (eip + 1) (decodeRmInternal_decodes .src .dest) from_
  · repeat' with_reducible refine keeps_bind ?_ fun _ => ?_
    all_goals simp

theorem keeps_eip_cltd (w : Width) : Keeps eipOf (cltd w eip) := by
  unfold cltd
  repeat' with_reducible refine keeps_bind ?_ fun _ => ?_
  all_goals simp

theorem keeps_eip_lea : Keeps eipOf (lea eip) := by
  unfold lea
  refine keeps_bind (keeps_eip_of_machine (fetchModRM_yields _).keeps) fun m => ?_
  refine keeps_bind (keeps_eip_of_machine (loadAddr_yields (eip + 1) m .src).keeps) fun n => ?_
  refine keeps_bind (by simp) fun o => ?_
  split
  · exact keeps_bind (by simp) fun _ => by simp
  · simp

theorem keeps_eip_leave : Keeps eipOf (leave eip) := by
  unfold leave
  repeat' with_reducible refine keeps_bind ?_ fun _ => ?_
  all_goals simp

theorem keeps_eip_movs (w : Width) : Keeps eipOf (movs w eip) := by
  unfold movs
  repeat' with_reducible refine keeps_bind ?_ fun _ => ?_
  all_goals simp

theorem keeps_eip_stos (w : Width) : Keeps eipOf (stos w eip) := by
  unfold stos
  repeat' with_reducible refine keeps_bind ?_ fun _ => ?_
  all_goals simp

theorem keeps_eip_scas (w : Width) : Keeps eipOf (scas w eip) := by
  unfold scas
  repeat' with_reducible refine keeps_bind ?_ fun _ => ?_
  all_goals simp

theorem keeps_eip_nemuTrap : Keeps eipOf (nemuTrap eip) := by
  unfold nemuTrap
  refine keeps_bind (by simp) fun eax => ?_
  exact keeps_ite (by simp) (keeps_bind (by simp) fun _ => by simp)

-- a call pushes and goes on behind itself: the displacement is not used
theorem keeps_eip_callI (w : Width) : Keeps eipOf (callI w eip) := by
  unfold callI
  refine keeps_bind (keeps_eip_of_decodes (eip + 1) decodeI_decodes w) fun n => ?_
  repeat' with_reducible refine keeps_bind ?_ fun _ => ?_
  all_goals simp

/-- `inv` does not return. -/
theorem inv_fails {s s' : Emu} {n : Nat} : inv eip s ≠ .ok (n, s') := by
  intro h
  obtain ⟨v₁, s₁, -, h⟩ := run_bind_eq_ok.mp h
  obtain ⟨v₂, s₂, -, h⟩ := run_bind_eq_ok.mp h
  exact nomatch h

theorem keeps_inv {γ : Type} (f : Emu → γ) : Keeps f (inv eip) :=
  fun _ _ _ h => absurd h (inv_fails eip)

end Helpers

end Emu

end Nemu
