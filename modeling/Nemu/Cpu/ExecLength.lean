/-
  Nemu.Cpu.ExecLength

  The value `exec` returns against the length of the i386 encoding.

  `runInstr_behaves` says for every helper in the opcode tables what bytes it consumes
  and that it leaves EIP alone unless it is an indirect call or jump; `tables_agree`
  checks the tables against the opcode maps.  Together they give the length of every
  instruction without prefixes.  `operand_size` adds its byte; `rep` and `repnz`
  return two whatever they repeat, which is right for a one-byte instruction only.
-/

import Nemu.Cpu.ExecFrame

namespace Nemu

open Outcome Frame I386 I386.Format FlatMem

/-- What follows the opcode byte of an instruction. -/
def Instr.format : Instr → Format
  | .inv | .nop | .int3 | .leave | .nemuTrap | .incRV | .decRV | .pushRV | .popRV | .cltdV
  | .movsB | .movsV | .stosB | .stosV | .scasB => plain
  | .addR2rmV | .addRm2rV | .orR2rmV | .orRm2rB | .adcR2rmV | .sbbR2rmV | .andR2rmV | .andRm2rB
  | .subR2rmV | .subRm2rV | .xorR2rmV | .cmpR2rmB | .cmpR2rmV | .cmpRm2rB | .cmpRm2rV | .decRmV
  | .pushRmV | .imulRm2aV | .imulRm2rV | .testR2rmB | .testR2rmV | .movR2rmB | .movR2rmV
  | .movRm2rB | .movRm2rV | .movzbV | .movsbV | .movswL | .sarRm1V | .shlRmClV | .notRmV
  | .negRmV | .mulRmV | .divRmV | .idivRmV | .callRmV | .jmpRmL | .lea => rm
  | .andI2rmB | .cmpI2rmB | .testI2rmB | .movI2rmB | .shlRmImmV | .shrRmImmV | .sarRmImmV
  | .addSi2rmV | .orSi2rmV | .andSi2rmV | .subSi2rmV | .cmpSi2rmV | .imulSiRm2rV => rmImm .imm8
  | .andI2rmV | .subI2rmV | .cmpI2rmV | .imulIRm2rV | .testI2rmV | .movI2rmV => rmImm .immV
  | .orI2aB | .cmpI2aB | .movI2rB | .jmpSiB => withImm .imm8
  | .addI2aV | .cmpI2aV | .pushIV | .movI2rV | .callIV | .jmpSiL => withImm .immV
  | .movMoffs2aB | .movMoffs2aV | .movA2moffsB | .movA2moffsV => withImm .moffs

/-- The helpers that write EIP. -/
def Instr.writesEip : Instr → Bool
  | .callRmV | .jmpRmL => true
  | _ => false

namespace Emu

/-! ## One helper -/

/-- The operand width in force. -/
def opWidth (op16 : Bool) : Width := if op16 then .word else .long

theorem opWidth_ne_byte (op16 : Bool) : opWidth op16 ≠ .byte := by cases op16 <;> decide

/-- A helper returns the length of format `f` and, unless `jumps`, leaves EIP alone. -/
structure Behaves (x : Addr → EmuM Nat) (f : Format) (jumps : Bool) : Prop where
  length : ∀ eip s n s', x eip s = .ok (n, s') → InRange eip 1 →
    n = f.length s.mem s.ops.is_operand_size_16 eip ∧ InRange eip n
  keeps : jumps = false → ∀ eip, Keeps eipOf (x eip)

section Templates

variable {dec : Width → Addr → EmuM Nat} {rm : Bool} {imm : Width → Nat}
  {ex : Width → EmuM Unit} {f : Format}

/-- The opcode byte followed by what the decode helper consumes. -/
theorem idex_length {w : Width} {ex : EmuM Unit} (hdec : Decodes dec rm imm) (op16 : Bool)
    (hrm : f.modrm = rm) (himm : f.imm.length op16 = imm w) {eip : Addr} {s s' : Emu} {n : Nat}
    (h : idex (dec w) ex eip s = .ok (n, s')) (hin : InRange eip 1) :
    n = f.length s.mem op16 eip ∧ InRange eip n := by
  obtain ⟨k, s₁, hk, h⟩ := run_bind_eq_ok.mp h
  obtain ⟨-, s₂, -, h⟩ := run_bind_eq_ok.mp h
  cases h
  obtain ⟨-, hlen, hcov⟩ := hdec w (eip + 1) s k s₁ hk
  have hcov' : Covers eip (1 + k) := Covers.append (.inr hin) hcov
  refine ⟨?_, by rw [Nat.add_comm]; exact hcov'.inRange (by omega)⟩
  have hk : k = (if rm then modrmLength s.mem (eip + 1) else 0) + imm w := hlen
  rw [hk, Format.length, hrm, himm]
  omega

theorem template_behaves (w : Width) (hdec : Decodes dec rm imm)
    (hex : ∀ w, Keeps eipOf (ex w)) (hrm : f.modrm = rm)
    (himm : ∀ op16, f.imm.length op16 = imm w) :
    Behaves (idex (dec w) (ex w)) f false where
  length _ _ _ _ h hin := idex_length hdec _ hrm (himm _) h hin
  keeps _ eip := keeps_idex eip (keeps_eip_of_decodes (eip + 1) hdec w) (hex w)

theorem helperV_run (g : Width → Addr → EmuM Nat) (eip : Addr) (s : Emu) :
    helperV g eip s = g (opWidth s.ops.is_operand_size_16) eip s := by
  rw [helperV, run_bind_ok (getOps_run s), opWidth]
  cases s.ops.is_operand_size_16 <;> rfl

theorem helperV_behaves {g : Width → Addr → EmuM Nat} {jumps : Bool}
    (hlen : ∀ eip s n s', g (opWidth s.ops.is_operand_size_16) eip s = .ok (n, s') →
      InRange eip 1 → n = f.length s.mem s.ops.is_operand_size_16 eip ∧ InRange eip n)
    (hkeeps : jumps = false → ∀ w eip, Keeps eipOf (g w eip)) :
    Behaves (helperV g) f jumps where
  length eip s n s' h hin := by
    rw [helperV_run] at h
    exact hlen eip s n s' h hin
  keeps hj eip := keeps_helperV eip fun w => hkeeps hj w eip

theorem templateV_behaves (hdec : Decodes dec rm imm) (hex : ∀ w, Keeps eipOf (ex w))
    (hrm : f.modrm = rm) (himm : ∀ op16, f.imm.length op16 = imm (opWidth op16)) :
    Behaves (helperV fun w => idex (dec w) (ex w)) f false :=
  helperV_behaves (fun _ _ _ _ h hin => idex_length hdec _ hrm (himm _) h hin)
    (fun _ w eip => keeps_idex eip (keeps_eip_of_decodes (eip + 1) hdec w) (hex w))

/-- A helper without operands. -/
theorem plain_behaves {x : Addr → EmuM Nat} (hlen : ∀ eip, Answers (x eip) (· = 1))
    (hkeeps : ∀ eip, Keeps eipOf (x eip)) : Behaves x plain false where
  length eip s n s' h hin := by
    obtain rfl := hlen eip s n s' h
    exact ⟨rfl, hin⟩
  keeps _ := hkeeps

theorem plainV_behaves {g : Width → Addr → EmuM Nat} (hlen : ∀ w eip, Answers (g w eip) (· = 1))
    (hkeeps : ∀ eip w, Keeps eipOf (g w eip)) : Behaves (helperV g) plain false :=
  plain_behaves (fun eip => answers_bind fun _ => answers_ite (hlen .word eip) (hlen .long eip))
    (fun eip => keeps_helperV eip (hkeeps eip))

end Templates

/-- The immediate of the operand size. -/
theorem immV_length (op16 : Bool) : Imm.immV.length op16 = (opWidth op16).bytes := by
  cases op16 <;> rfl

/-! ## The helpers of the tables -/

theorem lea_behaves : Behaves lea rm false where
  length eip s n s' h hin := by
    obtain ⟨m, s₁, hm, h⟩ := run_bind_eq_ok.mp h
    obtain ⟨k, s₂, hk, h⟩ := run_bind_eq_ok.mp h
    obtain ⟨o, s₃, -, h⟩ := run_bind_eq_ok.mp h
    obtain ⟨hf₁, hval, hin₁⟩ := fetchModRM_yields _ _ _ _ hm
    obtain ⟨-, hlen⟩ := loadAddr_yields _ _ _ _ _ _ hk
    rw [hf₁] at hlen
    obtain ⟨hlen, hin₂⟩ := hlen hval hin₁
    have hn : n = 1 + k := by
      generalize o.loc = l at h
      cases l with
      | mem addr =>
          obtain ⟨-, s₄, -, h⟩ := run_bind_eq_ok.mp h
          cases h
          rfl
      | reg i => exact nomatch h
      | imm v => exact nomatch h
    have hcov : Covers eip (1 + k) := Covers.append (.inr hin) (.inr hin₂)
    rw [hn]
    exact ⟨by rw [hlen]; rfl, hcov.inRange (by omega)⟩
  keeps _ := keeps_eip_lea

theorem movA2moffs_behaves (w : Width) : Behaves (movA2moffs w) (withImm .moffs) false where
  length eip s n s' h hin := by
    obtain ⟨addr, s₁, hfetch, h⟩ := run_bind_eq_ok.mp h
    obtain ⟨v, s₂, -, h⟩ := run_bind_eq_ok.mp h
    obtain ⟨-, s₃, -, h⟩ := run_bind_eq_ok.mp h
    cases h
    have hin₁ := (instrFetch_yields _ _ _ _ _ hfetch).2.2
    exact ⟨rfl, (Covers.append (k := 1) (.inr hin) (.inr hin₁)).inRange (by omega)⟩
  keeps _ eip := keeps_eip_movA2moffs eip w

theorem movMoffs2a_behaves (w : Width) : Behaves (movMoffs2a w) (withImm .moffs) false where
  length eip s n s' h hin := by
    obtain ⟨addr, s₁, hfetch, h⟩ := run_bind_eq_ok.mp h
    obtain ⟨v, s₂, -, h⟩ := run_bind_eq_ok.mp h
    obtain ⟨-, s₃, -, h⟩ := run_bind_eq_ok.mp h
    cases h
    have hin₁ := (instrFetch_yields _ _ _ _ _ hfetch).2.2
    exact ⟨rfl, (Covers.append (k := 1) (.inr hin) (.inr hin₁)).inRange (by omega)⟩
  keeps _ eip := keeps_eip_movMoffs2a eip w

/-- A helper that decodes ModR/M itself and returns the length after the opcode. -/
theorem rm_length {dec : Addr → EmuM Nat} {k : Nat → EmuM Nat}
    (hdec : ∀ a, Consumes (dec a) a (fun m => modrmLength m a))
    (hk : ∀ len, Answers (k len) (· = len + 1)) {eip : Addr} {s s' : Emu} {n : Nat}
    (h : (dec (eip + 1) >>= k) s = .ok (n, s')) (hin : InRange eip 1) :
    n = rm.length s.mem s.ops.is_operand_size_16 eip ∧ InRange eip n := by
  obtain ⟨len, s₁, hlen, h⟩ := run_bind_eq_ok.mp h
  obtain rfl := hk len s₁ n s' h
  obtain ⟨-, hval, hcov⟩ := hdec (eip + 1) s len s₁ hlen
  have hcov' : Covers eip (1 + len) := Covers.append (.inr hin) hcov
  rw [Nat.add_comm len 1]
  exact ⟨by rw [hval]; rfl, hcov'.inRange (by omega)⟩

theorem movExt_length {from_ : Width} {ext : BitVec from_.bits → BitVec 32} {w : Width}
    {eip : Addr} {s s' : Emu} {n : Nat} (h : movExt from_ ext w eip s = .ok (n, s'))
    (hin : InRange eip 1) :
    n = rm.length s.mem s.ops.is_operand_size_16 eip ∧ InRange eip n := by
  refine rm_length (fun a => decodeRmInternal_consumes from_ a .src .dest) (fun len => ?_) h hin
  repeat' refine answers_bind fun _ => ?_
  exact answers_pure rfl

theorem movExt_behaves (from_ : Width) (ext : BitVec from_.bits → BitVec 32) :
    Behaves (helperV (movExt from_ ext)) rm false :=
  helperV_behaves (fun _ _ _ _ h hin => movExt_length h hin)
    (fun _ w eip => keeps_eip_movExt eip from_ ext w)

theorem callRm_behaves : Behaves (helperV callRm) rm true := by
  refine helperV_behaves (fun eip s n s' h hin => ?_) (fun h => nomatch h)
  refine rm_length (fun a => decodeRmInternal_consumes _ a .src .src2) (fun len => ?_) h hin
  repeat' refine answers_bind fun _ => ?_
  exact answers_pure rfl

theorem jmpRmL_behaves : Behaves jmpRmL rm true where
  length eip s n s' h hin := by
    refine rm_length (fun a => decodeRmInternal_consumes .long a .src .src2) (fun len => ?_) h hin
    repeat' refine answers_bind fun _ => ?_
    exact answers_pure rfl
  keeps := nofun

theorem callI_behaves : Behaves (helperV callI) (withImm .immV) false := by
  refine helperV_behaves (fun eip s n s' h hin => ?_) (fun _ w eip => keeps_eip_callI eip w)
  obtain ⟨len, s₁, hlen, h⟩ := run_bind_eq_ok.mp h
  obtain ⟨esp, s₂, -, h⟩ := run_bind_eq_ok.mp h
  obtain ⟨-, s₃, -, h⟩ := run_bind_eq_ok.mp h
  obtain ⟨cpu, s₄, -, h⟩ := run_bind_eq_ok.mp h
  obtain ⟨-, s₅, -, h⟩ := run_bind_eq_ok.mp h
  cases h
  obtain ⟨-, rfl, hcov⟩ := decodeI_consumes _ _ _ _ _ hlen
  have hcov' : Covers eip (1 + _) := Covers.append (.inr hin) hcov
  rw [Nat.add_comm _ 1]
  exact ⟨by rw [← immV_length]; rfl, hcov'.inRange (by omega)⟩

-- a short or near jump is not implemented: its helper never returns
theorem jmpSi_behaves (w : Width) (f : Format) : Behaves (jmpSi w) f false where
  length _ _ _ _ h := nomatch h
  keeps _ _ _ _ _ h := nomatch h

theorem inv_behaves : Behaves inv plain false where
  length eip _ _ _ h := absurd h (inv_fails eip)
  keeps _ eip := keeps_inv eip eipOf

/-- Every helper of the tables consumes the bytes of its format. -/
theorem runInstr_behaves (i : Instr) : Behaves (runInstr i) i.format i.writesEip := by
  have hr2rm := decodeRmInternal_decodes .dest .src
  have hrm2r := decodeRmInternal_decodes .src .dest
  have hrm := decodeRmInternal_decodes .src .src2
  have hi2rm := decodeRmInternal_imm id .dest .src2
  have hirm2r := decodeRmInternal_imm id .src2 .dest
  have hrmimm := decodeRmInternal_imm (fun _ => .byte) .dest .src
  have hsi2rm := decodeSi_decodes .dest .src2 true (fun _ => 1)
  have hsirm2r := decodeSi_decodes .src2 .dest true (fun _ => 1)
  have himul : ∀ w, Keeps eipOf (do let dest ← getOp .dest; setOp .src2 dest; doImul w) :=
    fun w => keeps_bind (keeps_getOp eipOf .dest) fun o =>
      keeps_bind (keeps_eip_setOp .src2 o) fun _ => keeps_eip_doImul w
  cases i with
  | inv => exact inv_behaves
  | nop => exact plain_behaves (fun _ => answers_pure rfl) (fun _ => keeps_pure 1)
  | int3 =>
      exact plain_behaves (fun _ => answers_bind fun _ => answers_pure rfl)
        (fun _ => keeps_bind (keeps_eip_setNemuState .STOP) fun _ => keeps_pure 1)
  | lea => exact lea_behaves
  | leave =>
      refine plain_behaves (fun eip => ?_) keeps_eip_leave
      repeat' refine answers_bind fun _ => ?_
      exact answers_pure rfl
  | nemuTrap =>
      refine plain_behaves (fun eip => answers_bind fun eax => ?_) keeps_eip_nemuTrap
      exact answers_ite (answers_pure rfl) (answers_bind fun _ => answers_pure rfl)
  | cltdV =>
      refine plainV_behaves (fun w eip => ?_) keeps_eip_cltd
      repeat' refine answers_bind fun _ => ?_
      exact answers_pure rfl
  -- string instructions
  | movsB =>
      refine plain_behaves (fun eip => ?_) (fun eip => keeps_eip_movs eip .byte)
      repeat' refine answers_bind fun _ => ?_
      exact answers_pure rfl
  | movsV =>
      refine plainV_behaves (fun w eip => ?_) keeps_eip_movs
      repeat' refine answers_bind fun _ => ?_
      exact answers_pure rfl
  | stosB =>
      refine plain_behaves (fun eip => ?_) (fun eip => keeps_eip_stos eip .byte)
      repeat' refine answers_bind fun _ => ?_
      exact answers_pure rfl
  | stosV =>
      refine plainV_behaves (fun w eip => ?_) keeps_eip_stos
      repeat' refine answers_bind fun _ => ?_
      exact answers_pure rfl
  | scasB =>
      refine plain_behaves (fun eip => ?_) (fun eip => keeps_eip_scas eip .byte)
      repeat' refine answers_bind fun _ => ?_
      exact answers_pure rfl
  -- moves with their own decoding
  | movMoffs2aB => exact movMoffs2a_behaves .byte
  | movMoffs2aV =>
      exact helperV_behaves (fun _ _ _ _ h hin => (movMoffs2a_behaves _).length _ _ _ _ h hin)
        (fun h w => (movMoffs2a_behaves w).keeps h)
  | movA2moffsB => exact movA2moffs_behaves .byte
  | movA2moffsV =>
      exact helperV_behaves (fun _ _ _ _ h hin => (movA2moffs_behaves _).length _ _ _ _ h hin)
        (fun h w => (movA2moffs_behaves w).keeps h)
  | movzbV => exact movExt_behaves .byte (·.setWidth 32)
  | movsbV => exact movExt_behaves .byte (·.signExtend 32)
  | movswL =>
      exact ⟨fun _ _ _ _ h hin => movExt_length h hin,
        fun _ eip => keeps_eip_movExt eip .word (·.signExtend 32) .long⟩
  -- transfers
  | callIV => exact callI_behaves
  | callRmV => exact callRm_behaves
  | jmpSiB => exact jmpSi_behaves .byte _
  | jmpSiL => exact jmpSi_behaves .long _
  | jmpRmL => exact jmpRmL_behaves
  -- ModR/M and no immediate
  | addR2rmV =>
      exact templateV_behaves hr2rm keeps_eip_doAdd rfl (fun _ => rfl)
  | orR2rmV =>
      exact templateV_behaves hr2rm (fun w => keeps_eip_doBitwise w _) rfl (fun _ => rfl)
  | adcR2rmV =>
      exact templateV_behaves hr2rm keeps_eip_doAdc rfl (fun _ => rfl)
  | sbbR2rmV =>
      exact templateV_behaves hr2rm keeps_eip_doSbb rfl (fun _ => rfl)
  | andR2rmV =>
      exact templateV_behaves hr2rm (fun w => keeps_eip_doBitwise w _) rfl (fun _ => rfl)
  | subR2rmV =>
      exact templateV_behaves hr2rm keeps_eip_doSub rfl (fun _ => rfl)
  | xorR2rmV =>
      exact templateV_behaves hr2rm (fun w => keeps_eip_doBitwise w _) rfl (fun _ => rfl)
  | cmpR2rmV =>
      exact templateV_behaves hr2rm keeps_eip_doCmp rfl (fun _ => rfl)
  | testR2rmV =>
      exact templateV_behaves hr2rm keeps_eip_doTest rfl (fun _ => rfl)
  | movR2rmV =>
      exact templateV_behaves hr2rm keeps_eip_doMov rfl (fun _ => rfl)
  | addRm2rV =>
      exact templateV_behaves hrm2r keeps_eip_doAdd rfl (fun _ => rfl)
  | subRm2rV =>
      exact templateV_behaves hrm2r keeps_eip_doSub rfl (fun _ => rfl)
  | cmpRm2rV =>
      exact templateV_behaves hrm2r keeps_eip_doCmp rfl (fun _ => rfl)
  | movRm2rV =>
      exact templateV_behaves hrm2r keeps_eip_doMov rfl (fun _ => rfl)
  | cmpR2rmB =>
      exact template_behaves .byte hr2rm keeps_eip_doCmp rfl (fun _ => rfl)
  | testR2rmB =>
      exact template_behaves .byte hr2rm keeps_eip_doTest rfl (fun _ => rfl)
  | movR2rmB =>
      exact template_behaves .byte hr2rm keeps_eip_doMov rfl (fun _ => rfl)
  | orRm2rB =>
      exact template_behaves .byte hrm2r (fun w => keeps_eip_doBitwise w _) rfl (fun _ => rfl)
  | andRm2rB =>
      exact template_behaves .byte hrm2r (fun w => keeps_eip_doBitwise w _) rfl (fun _ => rfl)
  | cmpRm2rB =>
      exact template_behaves .byte hrm2r keeps_eip_doCmp rfl (fun _ => rfl)
  | movRm2rB =>
      exact template_behaves .byte hrm2r keeps_eip_doMov rfl (fun _ => rfl)
  | decRmV =>
      exact templateV_behaves hrm keeps_eip_doDec rfl (fun _ => rfl)
  | pushRmV =>
      exact templateV_behaves hrm keeps_eip_doPush rfl (fun _ => rfl)
  | notRmV =>
      exact templateV_behaves hrm keeps_eip_doNot rfl (fun _ => rfl)
  | negRmV =>
      exact templateV_behaves hrm keeps_eip_doNeg rfl (fun _ => rfl)
  | mulRmV =>
      exact templateV_behaves hrm keeps_eip_doMul rfl (fun _ => rfl)
  | divRmV =>
      exact templateV_behaves hrm keeps_eip_doDiv rfl (fun _ => rfl)
  | idivRmV =>
      exact templateV_behaves hrm keeps_eip_doIdiv rfl (fun _ => rfl)
  | imulRm2aV =>
      exact templateV_behaves hrm keeps_eip_imulRm2aBody rfl (fun _ => rfl)
  | imulRm2rV =>
      exact templateV_behaves hrm2r himul rfl (fun _ => rfl)
  | sarRm1V =>
      exact templateV_behaves decodeRm1_decodes keeps_eip_doSar rfl (fun _ => rfl)
  | shlRmClV =>
      exact templateV_behaves decodeRmCl_decodes keeps_eip_doShl rfl (fun _ => rfl)
  -- ModR/M and an immediate
  | andI2rmV =>
      exact templateV_behaves hi2rm (fun w => keeps_eip_doBitwise w _) rfl immV_length
  | subI2rmV =>
      exact templateV_behaves hi2rm keeps_eip_doSub rfl immV_length
  | cmpI2rmV =>
      exact templateV_behaves hi2rm keeps_eip_doCmp rfl immV_length
  | testI2rmV =>
      exact templateV_behaves hi2rm keeps_eip_doTest rfl immV_length
  | movI2rmV =>
      exact templateV_behaves hi2rm keeps_eip_doMov rfl immV_length
  | imulIRm2rV =>
      exact templateV_behaves hirm2r keeps_eip_doImul rfl immV_length
  | andI2rmB =>
      exact template_behaves .byte hi2rm (fun w => keeps_eip_doBitwise w _) rfl (fun _ => rfl)
  | cmpI2rmB =>
      exact template_behaves .byte hi2rm keeps_eip_doCmp rfl (fun _ => rfl)
  | testI2rmB =>
      exact template_behaves .byte hi2rm keeps_eip_doTest rfl (fun _ => rfl)
  | movI2rmB =>
      exact template_behaves .byte hi2rm keeps_eip_doMov rfl (fun _ => rfl)
  | shlRmImmV =>
      exact templateV_behaves hrmimm keeps_eip_doShl rfl (fun _ => rfl)
  | shrRmImmV =>
      exact templateV_behaves hrmimm keeps_eip_doShr rfl (fun _ => rfl)
  | sarRmImmV =>
      exact templateV_behaves hrmimm keeps_eip_doSar rfl (fun _ => rfl)
  | addSi2rmV =>
      exact templateV_behaves hsi2rm keeps_eip_doAdd rfl (fun _ => rfl)
  | orSi2rmV =>
      exact templateV_behaves hsi2rm (fun w => keeps_eip_doBitwise w _) rfl (fun _ => rfl)
  | andSi2rmV =>
      exact templateV_behaves hsi2rm (fun w => keeps_eip_doBitwise w _) rfl (fun _ => rfl)
  | subSi2rmV =>
      exact templateV_behaves hsi2rm keeps_eip_doSub rfl (fun _ => rfl)
  | cmpSi2rmV =>
      exact templateV_behaves hsi2rm keeps_eip_doCmp rfl (fun _ => rfl)
  | imulSiRm2rV =>
      exact templateV_behaves hsirm2r keeps_eip_doImul rfl (fun _ => rfl)
  -- an immediate, or a register in the opcode
  | addI2aV =>
      exact templateV_behaves decodeI2a_decodes keeps_eip_doAdd rfl immV_length
  | cmpI2aV =>
      exact templateV_behaves decodeI2a_decodes keeps_eip_doCmp rfl immV_length
  | orI2aB =>
      exact template_behaves .byte decodeI2a_decodes (fun w => keeps_eip_doBitwise w _) rfl (fun _ => rfl)
  | cmpI2aB =>
      exact template_behaves .byte decodeI2a_decodes keeps_eip_doCmp rfl (fun _ => rfl)
  | movI2rV =>
      exact templateV_behaves decodeI2r_decodes keeps_eip_doMov rfl immV_length
  | movI2rB =>
      exact template_behaves .byte decodeI2r_decodes keeps_eip_doMov rfl (fun _ => rfl)
  | pushIV =>
      exact templateV_behaves decodeI_decodes keeps_eip_doPush rfl immV_length
  | incRV =>
      exact templateV_behaves decodeR_decodes keeps_eip_doInc rfl (fun _ => rfl)
  | decRV =>
      exact templateV_behaves decodeR_decodes keeps_eip_doDec rfl (fun _ => rfl)
  | pushRV =>
      exact templateV_behaves decodeR_decodes keeps_eip_doPush rfl (fun _ => rfl)
  | popRV =>
      exact templateV_behaves decodeR_decodes keeps_eip_doPop rfl (fun _ => rfl)

/-! ## The tables against the opcode maps -/

-- an instruction the tables implement has the format `f`, and may write EIP if `jumps`
def instrAgrees (i : Instr) (f : Option Format) (jumps : Bool) : Bool :=
  i == .inv || (f == some i.format && (!i.writesEip || jumps))

/-- The entry for opcode `op` has the format of the opcode map, whatever the opcode
    extension; only the group of `0xff` holds helpers that write EIP. -/
def entryAgrees (op : Nat) : Entry → Bool
  | .instr i => (List.range 8).all fun r => instrAgrees i (oneByteFormat op r) false
  | .group g => (List.range 8).all fun r =>
      instrAgrees (g.table.getD r .inv) (oneByteFormat op r) (op == 0xff && (r == 2 || r == 4))
  | .twoByteEsc => op == 0x0f
  | .operandSize => op == 0x66
  | .repnz => op == 0xf2
  | .rep => op == 0xf3

theorem tables_agree :
    ∀ op < 256, entryAgrees op (opcodeTable.getD op Instr.inv) = true := by decide +kernel

def twoByteEntryAgrees (op : Nat) : Entry → Bool
  | .instr i => instrAgrees i (twoByteFormat op) false
  | .group g => (List.range 8).all fun r => g.table.getD r .inv == .inv
  | _ => false

theorem twoByteTable_agrees :
    ∀ op < 256, twoByteEntryAgrees op (twoByteOpcodeTable.getD op Instr.inv) = true := by
  decide +kernel

-- the prefix bytes and their entries
theorem prefix_entry (op : Nat) (hop : op < 256) :
    (opcodeTable.getD op Instr.inv = .operandSize ↔ op = 0x66) ∧
    (opcodeTable.getD op Instr.inv = .repnz ↔ op = 0xf2) ∧
    (opcodeTable.getD op Instr.inv = .rep ↔ op = 0xf3) ∧
    (opcodeTable.getD op Instr.inv = .twoByteEsc ↔ op = 0x0f) := by
  have h : ∀ op < 256,
      (opcodeTable.getD op Instr.inv = .operandSize ↔ op = 0x66) ∧
      (opcodeTable.getD op Instr.inv = .repnz ↔ op = 0xf2) ∧
      (opcodeTable.getD op Instr.inv = .rep ↔ op = 0xf3) ∧
      (opcodeTable.getD op Instr.inv = .twoByteEsc ↔ op = 0x0f) := by decide +kernel
  exact h op hop

/-! ## Instructions without prefixes -/

-- the two helpers that write EIP leave the recorded opcode
theorem keeps_opcode_of_writesEip {i : Instr} (hi : i.writesEip = true) (eip : Addr) :
    Keeps (fun s => s.ops.opcode) (runInstr i eip) := by
  have hwrite : ∀ r v, Keeps (fun s : Emu => s.ops.opcode) (writeRegL r v) := by
    intro r v s u s' h
    cases h
    rfl
  have heip : ∀ a, Keeps (fun s : Emu => s.ops.opcode) (setEip a) := by
    intro a s u s' h
    cases h
    rfl
  have hdec : ∀ w a, Keeps (fun s : Emu => s.ops.opcode) (decodeRm w a) := fun w a =>
    (decodeRmInternal_consumes w a .src .src2).keeps.comp Machine.opcode
  have hmem : ∀ w a v, Keeps (fun s : Emu => s.ops.opcode) (memW w a v) := by
    intro w a v s u s' h
    obtain ⟨-, -, h⟩ := bind_eq_ok.mp h
    obtain ⟨m, -, hm⟩ := bind_eq_ok.mp h
    cases hm
    rfl
  cases i with
  | callRmV =>
      refine keeps_helperV eip fun w => keeps_bind (hdec w (eip + 1)) fun len => ?_
      refine keeps_bind (keeps_readRegL _ _) fun esp => keeps_bind (hwrite _ _) fun _ => ?_
      refine keeps_bind (keeps_getCpu _) fun cpu => keeps_bind (hmem _ _ _) fun _ => ?_
      exact keeps_bind (keeps_getOp _ _) fun src => keeps_bind (heip _) fun _ => keeps_pure _
  | jmpRmL =>
      refine keeps_bind (hdec .long (eip + 1)) fun len => ?_
      exact keeps_bind (keeps_getOp _ _) fun src => keeps_bind (heip _) fun _ => keeps_pure _
  | _ => exact nomatch hi

-- the indirect calls and jumps of the group of `0xff`
def IsIndirect (m : FlatMem) (a : Addr) : Prop :=
  byteAt m a = 0xff ∧ regField m (a + 1) ∈ [2, 3, 4, 5]

/-- What one instruction without prefixes does: its length is that of the encoding, and
    it leaves EIP alone unless it is an indirect transfer. -/
structure StepsBy (m : FlatMem) (op16 : Bool) (eip : Addr) (s s' : Emu) (n : Nat) : Prop where
  length : opcodeLength m op16 eip = some n
  inRange : InRange eip n
  keeps : s'.cpu.eip = s.cpu.eip ∨ IsIndirect m eip ∧ s'.ops.opcode = s.ops.opcode

-- the bits of a fetched byte, as a number
theorem toNat_fetch_one {m : FlatMem} {a : Addr} {v : BitVec 32} (h : m.read a 1 = .ok v) :
    v.toNat = byteAt m a := by
  obtain ⟨-, rfl⟩ := read_eq_ok.mp h
  have hlt := (m a.toNat).isLt
  simp only [ByteSeq.load, ByteSeq.leNat_succ, ByteSeq.leNat_zero, Nat.add_zero, Nat.mul_zero,
    BitVec.toNat_ofNat, byteAt]
  omega

/-- An implemented helper run where its format is the one of the opcode map. -/
theorem runInstr_stepsBy {i : Instr} {f : Option Format} {jumps : Bool} {eip : Addr} {s s' : Emu}
    {n : Nat} (hag : instrAgrees i f jumps = true) (h : runInstr i eip s = .ok (n, s'))
    (hin : InRange eip 1) :
    f.map (fun f => f.length s.mem s.ops.is_operand_size_16 eip) = some n ∧ InRange eip n ∧
      (s'.cpu.eip = s.cpu.eip ∨ jumps = true ∧ s'.ops.opcode = s.ops.opcode) := by
  have hne : i ≠ .inv := by
    rintro rfl
    exact inv_fails eip h
  simp only [instrAgrees, Bool.or_eq_true, Bool.and_eq_true, beq_iff_eq, hne, false_or,
    Bool.not_eq_true'] at hag
  obtain ⟨rfl, hjump⟩ := hag
  obtain ⟨hlen, hin'⟩ := (runInstr_behaves i).length eip s n s' h hin
  refine ⟨by rw [hlen]; rfl, hin', ?_⟩
  cases hw : i.writesEip with
  | false => exact .inl ((runInstr_behaves i).keeps hw eip s n s' h)
  | true =>
      have hj : jumps = true := hjump.resolve_left (by rw [hw]; decide)
      exact .inr ⟨hj, keeps_opcode_of_writesEip hw eip s n s' h⟩

/-- `_2byte_esc`. -/
theorem twoByteEsc_stepsBy {eip : Addr} {s s' : Emu} {n : Nat}
    (h : twoByteEsc eip s = .ok (n, s')) (hin : InRange eip 1) (hop : byteAt s.mem eip = 0x0f) :
    StepsBy s.mem s.ops.is_operand_size_16 eip s s' n := by
  obtain ⟨v, s₁, hfetch, h₁⟩ := run_bind_eq_ok.mp h
  obtain ⟨u, s₂, hops, h₂⟩ := run_bind_eq_ok.mp h₁
  obtain ⟨k, s₃, hleaf, h₃⟩ := run_bind_eq_ok.mp h₂
  cases h₃
  obtain ⟨rfl, hread⟩ := instrFetch_ok hfetch
  have hin₁ : InRange (eip + 1) 1 := (read_eq_ok.mp hread).1
  have hv : v.toNat = byteAt s₁.mem (eip + 1) := toNat_fetch_one hread
  have hag := twoByteTable_agrees (byteAt s₁.mem (eip + 1)) (BitVec.isLt _)
  rw [hv] at hleaf
  -- recording the opcode changes neither memory nor EIP
  have hmem : s₂.mem = s₁.mem := by cases hops; rfl
  have heip : s₂.cpu.eip = s₁.cpu.eip := by cases hops; rfl
  have hop16 : s₂.ops.is_operand_size_16 = s₁.ops.is_operand_size_16 := by cases hops; rfl
  cases he : twoByteOpcodeTable.getD (byteAt s₁.mem (eip + 1)) Instr.inv with
  | instr i =>
      rw [he] at hag hleaf
      obtain ⟨hlen, hin₂, hkeep⟩ := runInstr_stepsBy hag hleaf hin₁
      rw [hmem, hop16] at hlen
      have hcov : Covers eip (1 + k) := Covers.append (.inr hin) (.inr hin₂)
      have hkeep₁ := hkeep.resolve_right (fun hj => nomatch hj.1)
      refine ⟨?_, by rw [Nat.add_comm]; exact hcov.inRange (by omega), .inl (hkeep₁.trans heip)⟩
      rw [opcodeLength, if_pos hop]
      obtain ⟨f, hf, hk⟩ := Option.map_eq_some_iff.mp hlen
      rw [hf, Option.map_some, hk, Nat.add_comm]
  | group g =>
      rw [he] at hag hleaf
      obtain ⟨m, s₄, -, hrun⟩ := run_bind_eq_ok.mp hleaf
      have hinv : g.table.getD m.reg.val .inv = .inv := by
        have h := List.all_eq_true.mp hag m.reg.val (List.mem_range.mpr m.reg.isLt)
        exact beq_iff_eq.mp h
      rw [hinv] at hrun
      exact absurd hrun (inv_fails _)
  | twoByteEsc => rw [he] at hleaf; exact nomatch hleaf
  | operandSize => rw [he] at hleaf; exact nomatch hleaf
  | rep => rw [he] at hleaf; exact nomatch hleaf
  | repnz => rw [he] at hleaf; exact nomatch hleaf

/-- Every table entry that is not a prefix. -/
theorem runEntry_stepsBy {exec' : Addr → EmuM Nat} {k : Nat} {eip : Addr} {s s' : Emu} {n : Nat}
    (h : runEntry exec' k (opcodeTable.getD (byteAt s.mem eip) Instr.inv) eip s = .ok (n, s'))
    (hin : InRange eip 1) (h66 : ¬ isOperandSize (byteAt s.mem eip))
    (hrep : ¬ isRepeat (byteAt s.mem eip)) :
    StepsBy s.mem s.ops.is_operand_size_16 eip s s' n := by
  have hlt : byteAt s.mem eip < 256 := BitVec.isLt _
  have hag := tables_agree (byteAt s.mem eip) hlt
  obtain ⟨hp66, hpnz, hprep, hp0f⟩ := prefix_entry _ hlt
  cases he : opcodeTable.getD (byteAt s.mem eip) Instr.inv with
  | instr i =>
      rw [he] at hag h
      have hreg : regField s.mem (eip + 1) < 8 := Nat.mod_lt _ (by decide)
      have hag' := List.all_eq_true.mp hag _ (List.mem_range.mpr hreg)
      obtain ⟨hlen, hin', hkeep⟩ := runInstr_stepsBy hag' h hin
      have h0f : byteAt s.mem eip ≠ 0x0f := fun h0f => nomatch (hp0f.mpr h0f).symm.trans he
      exact ⟨by rw [opcodeLength, if_neg h0f]; exact hlen, hin',
        .inl (hkeep.resolve_right (fun hj => nomatch hj.1))⟩
  | group g =>
      rw [he] at hag h
      -- the opcode extension selects the helper
      obtain ⟨m, s₁, hm, h⟩ := run_bind_eq_ok.mp h
      obtain ⟨hf₁, hval, -⟩ := fetchModRM_yields _ _ _ _ hm
      have hmem : s₁.mem = s.mem := congrArg Machine.mem hf₁
      have hop16 : s₁.ops.is_operand_size_16 = s.ops.is_operand_size_16 :=
        congrArg Machine.is_operand_size_16 hf₁
      have heip : s₁.cpu.eip = s.cpu.eip := congrArg (fun m => m.cpu.eip) hf₁
      have hreg : m.reg.val = regField s.mem (eip + 1) := reg_eq hval
      have hag' := List.all_eq_true.mp hag m.reg.val (List.mem_range.mpr m.reg.isLt)
      obtain ⟨hlen, hin', hkeep⟩ := runInstr_stepsBy hag' h hin
      rw [hmem, hop16, hreg] at hlen
      have h0f : byteAt s.mem eip ≠ 0x0f := fun h0f => nomatch (hp0f.mpr h0f).symm.trans he
      refine ⟨by rw [opcodeLength, if_neg h0f]; exact hlen, hin', ?_⟩
      rcases hkeep with hkeep | ⟨hjump, hopcode⟩
      · exact .inl (hkeep.trans heip)
      · simp only [Bool.and_eq_true, Bool.or_eq_true, beq_iff_eq, hreg] at hjump
        have hmem : regField s.mem (eip + 1) ∈ [2, 3, 4, 5] := by
          rcases hjump.2 with hr | hr <;> rw [hr] <;> decide
        exact .inr ⟨⟨hjump.1, hmem⟩, hopcode.trans (congrArg Machine.opcode hf₁)⟩
  | twoByteEsc =>
      rw [he] at h
      exact twoByteEsc_stepsBy h hin (hp0f.mp he)
  | operandSize => exact absurd (hp66.mp he) h66
  | rep => exact absurd (.inr (hprep.mp he)) hrep
  | repnz => exact absurd (.inl (hpnz.mp he)) hrep

/-! ## The repeat loop -/

/-- The loop leaves EIP alone: after each iteration the recorded opcode was that of a
    string instruction. -/
theorem repLoop_keeps_eip {exec' : Addr → EmuM Nat} {eip : Addr} {stop : EFlags → Bool}
    {opcodes : List (BitVec 32)} (hff : opcodes.contains 0xff = false)
    (hexec : ∀ s s' n, exec' (eip + 1) s = .ok (n, s') →
      s'.cpu.eip = s.cpu.eip ∨ s'.ops.opcode = 0xff) (k : Nat) :
    Keeps eipOf (repLoop exec' opcodes stop eip k) := by
  induction k with
  | zero => exact keeps_abort _ _
  | succ k ih =>
      refine keeps_bind (keeps_readRegL _ _) fun ecx => keeps_ite (keeps_pure _) ?_
      intro s u s' h
      obtain ⟨n, s₁, h₁, h⟩ := run_bind_eq_ok.mp h
      obtain ⟨ecx', s₂, h₂, h⟩ := run_bind_eq_ok.mp h
      obtain ⟨u₃, s₃, h₃, h⟩ := run_bind_eq_ok.mp h
      obtain ⟨os, s₄, h₄, h⟩ := run_bind_eq_ok.mp h
      obtain ⟨u₅, s₅, h₅, h⟩ := run_bind_eq_ok.mp h
      obtain ⟨cpu, s₆, h₆, h⟩ := run_bind_eq_ok.mp h
      have hrest : eipOf s' = eipOf s₆ :=
        keeps_ite (keeps_pure _) ih s₆ u s' h
      have hcheck := (check_yields eipOf _ _ _ _ h₅).2
      cases h₂
      cases h₃
      cases h₄
      cases h₆
      have h₅' : eipOf s₅ = eipOf s₁ := (keeps_check eipOf _ _ _ _ h₅).trans (eip_setReg ..)
      have hstring : s₁.ops.opcode ≠ 0xff := by
        intro hop
        have hfalse : opcodes.contains s₁.ops.opcode = false := by rw [hop]; exact hff
        exact Bool.false_ne_true (hfalse.symm.trans hcheck)
      have hkeep : eipOf s₁ = eipOf s := (hexec s s₁ n h₁).resolve_right hstring
      rw [hrest, h₅', hkeep]

/-! ## `exec` -/

/-- One level of `exec`: the fetched opcode is recorded and selects the entry. -/
theorem exec_succ {k : Nat} {eip : Addr} {s s' : Emu} {n : Nat}
    (h : exec (k + 1) eip s = .ok (n, s')) :
    InRange eip 1 ∧ ∃ v s₁, v.toNat = byteAt s.mem eip ∧
      s₁ = { s with ops := { s.ops with opcode := v } } ∧
      runEntry (exec k) k (opcodeTable.getD (byteAt s.mem eip) Instr.inv) eip s₁ = .ok (n, s') := by
  obtain ⟨v, s₁, hfetch, h₁⟩ := run_bind_eq_ok.mp h
  obtain ⟨u, s₂, hops, h₂⟩ := run_bind_eq_ok.mp h₁
  cases hops
  obtain ⟨rfl, hread⟩ := instrFetch_ok hfetch
  have hv : v.toNat = byteAt s₁.mem eip := toNat_fetch_one hread
  rw [hv] at h₂
  exact ⟨(read_eq_ok.mp hread).1, v, _, hv, rfl, h₂⟩

/-- `exec` does not return from the one-byte return, which the tables leave out. -/
theorem exec_ret_fails {k : Nat} {eip : Addr} {s s' : Emu} {n : Nat}
    (hb : byteAt s.mem eip = 0xc3) : exec k eip s ≠ .ok (n, s') := by
  intro h
  cases k with
  | zero => exact nomatch h
  | succ k =>
      obtain ⟨-, v, s₁, -, -, hrun⟩ := exec_succ h
      rw [hb] at hrun
      exact inv_fails eip hrun

/-- What a completed `exec` did, by the first byte of the instruction. -/
inductive ExecStep (k : Nat) (eip : Addr) (s s' : Emu) (n : Nat) : Prop
  | opcode (h66 : ¬ isOperandSize (byteAt s.mem eip)) (hrep : ¬ isRepeat (byteAt s.mem eip))
      (hlen : opcodeLength s.mem s.ops.is_operand_size_16 eip = some n) (hin : InRange eip n)
      (hkeep : s'.cpu.eip = s.cpu.eip ∨ IsIndirect s.mem eip ∧ s'.ops.opcode = 0xff)
  | operandSize {s₁ s₂ : Emu} {m : Nat} (hb : isOperandSize (byteAt s.mem eip))
      (hmem : s₁.mem = s.mem) (heip : s₁.cpu.eip = s.cpu.eip)
      (hop16 : s₁.ops.is_operand_size_16 = true) (hrun : exec k (eip + 1) s₁ = .ok (m, s₂))
      (heip' : s'.cpu.eip = s₂.cpu.eip) (hopcode : s'.ops.opcode = s₂.ops.opcode)
      (hn : n = m + 1)
  | repeat_ (hb : isRepeat (byteAt s.mem eip)) (heip : s'.cpu.eip = s.cpu.eip) (hn : n = 2)

/-- The inversion of one level of `exec`, given that the level below leaves EIP alone
    unless it executed opcode `0xff`. -/
theorem exec_cases {k : Nat} {eip : Addr} {s s' : Emu} {n : Nat}
    (hbelow : ∀ eip s s' n, exec k eip s = .ok (n, s') →
      s'.cpu.eip = s.cpu.eip ∨ s'.ops.opcode = 0xff)
    (h : exec (k + 1) eip s = .ok (n, s')) : ExecStep k eip s s' n := by
  obtain ⟨hin, v, s₁, hv, rfl, hrun⟩ := exec_succ h
  obtain ⟨hp66, hpnz, hprep, -⟩ := prefix_entry (byteAt s.mem eip) (BitVec.isLt _)
  have hloop : ∀ opcodes stop, opcodes.contains 0xff = false →
      Keeps eipOf (repLoop (exec k) opcodes stop eip k) := fun opcodes stop hff =>
    repLoop_keeps_eip hff (hbelow (eip + 1)) k
  by_cases h66 : isOperandSize (byteAt s.mem eip)
  · rw [hp66.mpr h66] at hrun
    obtain ⟨u₁, s₂, h₁, hrun⟩ := run_bind_eq_ok.mp hrun
    obtain ⟨m, s₃, h₂, hrun⟩ := run_bind_eq_ok.mp hrun
    obtain ⟨u₃, s₄, h₃, hrun⟩ := run_bind_eq_ok.mp hrun
    cases h₁
    cases h₃
    cases hrun
    refine .operandSize h66 ?_ ?_ ?_ h₂ rfl rfl rfl
    · rfl
    · rfl
    · rfl
  by_cases hrep : isRepeat (byteAt s.mem eip)
  · rcases hrep with hnz | hz
    · rw [hpnz.mpr hnz] at hrun
      obtain ⟨u, s₂, h₁, hrun⟩ := run_bind_eq_ok.mp hrun
      cases hrun
      have hkeep := hloop repnzOpcodes (fun f => f.ZF) (by decide) _ _ _ h₁
      exact .repeat_ (.inl hnz) hkeep rfl
    · rw [hprep.mpr hz] at hrun
      obtain ⟨next, s₂, hfetch, hrun⟩ := run_bind_eq_ok.mp hrun
      obtain ⟨hs₂, hread⟩ := instrFetch_ok hfetch
      by_cases hret : next = 0xc3
      · -- `repz ret` would execute the return
        rw [if_pos hret] at hrun
        obtain ⟨m, s₃, h₁, -⟩ := run_bind_eq_ok.mp hrun
        have hb : byteAt s₂.mem (eip + 1) = 0xc3 := by
          rw [hs₂, ← toNat_fetch_one hread, hret]
          rfl
        exact absurd h₁ (exec_ret_fails hb)
      · rw [if_neg hret] at hrun
        obtain ⟨u, s₃, h₁, hrun⟩ := run_bind_eq_ok.mp hrun
        cases hrun
        have hkeep := hloop repOpcodes (fun _ => false) (by decide) _ _ _ h₁
        exact .repeat_ (.inr hz) (by rw [hs₂] at hkeep; exact hkeep) rfl
  · obtain ⟨hlen, hin', hkeep⟩ := runEntry_stepsBy (s := { s with ops := { s.ops with opcode := v } })
      hrun hin h66 hrep
    refine .opcode h66 hrep hlen hin' (hkeep.imp_right fun ⟨hind, hopcode⟩ => ⟨hind, ?_⟩)
    have hv' : v.toNat = 0xff := hv.trans hind.1
    rw [hopcode]
    exact BitVec.eq_of_toNat_eq hv'

/-- A completed `exec` leaves EIP alone or has executed opcode `0xff`. -/
theorem exec_eip_or_indirect (fuel : Nat) (eip : Addr) (s s' : Emu) (n : Nat)
    (h : exec fuel eip s = .ok (n, s')) : s'.cpu.eip = s.cpu.eip ∨ s'.ops.opcode = 0xff := by
  induction fuel generalizing eip s s' n with
  | zero => exact nomatch h
  | succ k ih =>
      cases exec_cases ih h with
      | opcode h66 hrep hlen hin hkeep => exact hkeep.imp_right And.right
      | operandSize hb hmem heip hop16 hrun heip' hopcode hn =>
          rw [heip', hopcode, ← heip]
          exact ih _ _ _ _ hrun
      | repeat_ hb heip hn => exact .inl heip

/-! ## The length and the encoding -/

/-- The instruction has no repeat prefix, or its first one is directly followed by a
    one-byte instruction. -/
inductive LengthOk (m : FlatMem) : Bool → Addr → Prop
  | opcode {op16 : Bool} {a : Addr} (h66 : ¬ isOperandSize (byteAt m a))
      (hrep : ¬ isRepeat (byteAt m a)) : LengthOk m op16 a
  | operandSize {op16 : Bool} {a : Addr} (hb : isOperandSize (byteAt m a))
      (hrest : LengthOk m true (a + 1)) : LengthOk m op16 a
  | repeat_ {op16 : Bool} {a : Addr} (hb : isRepeat (byteAt m a))
      (hrest : Encodes m op16 (a + 1) 1) : LengthOk m op16 a

/-- `exec` at `eip` returned the length of the instruction there, so that EIP is behind
    it once the main loop has added the length, unless it is a transfer. -/
def LengthRight (m : FlatMem) (op16 : Bool) (eip : Addr) (s s' : Emu) (len : Nat) : Prop :=
  ∃ n, Encodes m op16 eip n ∧ len = n ∧ (s.cpu.eip = eip → ¬ Transfers m eip →
    s'.cpu.eip + BitVec.ofNat 32 len = eip + BitVec.ofNat 32 n)

section Prefixes

variable {m : FlatMem} {op16 : Bool} {a : Addr} {n : Nat}

theorem not_isRepeat_of_isOperandSize {b : Nat} (hb : isOperandSize b) : ¬ isRepeat b := by
  rw [hb]
  rintro (h | h) <;> exact absurd h (by decide)

-- a prefix byte is not an opcode
theorem opcodeLength_prefixByte (hb : isOperandSize (byteAt m a) ∨ isRepeat (byteAt m a)) :
    opcodeLength m op16 a = none := by
  have hformat : ∀ r, oneByteFormat (byteAt m a) r = none ∧ byteAt m a ≠ 0x0f := by
    intro r
    rcases hb with h | h | h <;> rw [h] <;> exact ⟨rfl, by decide⟩
  rw [opcodeLength, if_neg (hformat 0).2, (hformat _).1]
  rfl

theorem encodes_operandSize (hb : isOperandSize (byteAt m a)) :
    Encodes m op16 a (n + 1) ↔ Encodes m true (a + 1) n := by
  apply Iff.intro
  · intro h
    generalize hk : n + 1 = k at h
    cases h with
    | opcode hlen hin => rw [opcodeLength_prefixByte (.inl hb)] at hlen; exact nomatch hlen
    | operandSize hb' hrest => obtain rfl := Nat.succ.inj hk; exact hrest
    | repeat_ hb' hrest => exact absurd hb' (not_isRepeat_of_isOperandSize hb)
  · exact fun h => .operandSize hb h

theorem encodes_repeat (hb : isRepeat (byteAt m a)) :
    Encodes m op16 a (n + 1) ↔ Encodes m op16 (a + 1) n := by
  apply Iff.intro
  · intro h
    generalize hk : n + 1 = k at h
    cases h with
    | opcode hlen hin => rw [opcodeLength_prefixByte (.inr hb)] at hlen; exact nomatch hlen
    | operandSize hb' hrest => exact absurd hb (not_isRepeat_of_isOperandSize hb')
    | repeat_ hb' hrest => obtain rfl := Nat.succ.inj hk; exact hrest
  · exact fun h => .repeat_ hb h

end Prefixes

/-- `LengthRight` without the part about EIP, which always holds. -/
theorem lengthRight_iff {eip : Addr} {s s' : Emu} {len : Nat}
    (hkeep : ¬ Transfers s.mem eip → s'.cpu.eip = s.cpu.eip) :
    LengthRight s.mem s.ops.is_operand_size_16 eip s s' len ↔
      Encodes s.mem s.ops.is_operand_size_16 eip len := by
  apply Iff.intro
  · rintro ⟨n, hn, rfl, -⟩
    exact hn
  · intro h
    refine ⟨len, h, rfl, fun heip hnot => ?_⟩
    rw [hkeep hnot, heip]

/-- A completed `exec` of anything but a transfer leaves EIP to the main loop. -/
theorem exec_keeps_eip (fuel : Nat) (eip : Addr) (s s' : Emu) (n : Nat)
    (h : exec fuel eip s = .ok (n, s')) (hnot : ¬ Transfers s.mem eip) :
    s'.cpu.eip = s.cpu.eip := by
  induction fuel generalizing eip s s' n with
  | zero => exact nomatch h
  | succ k ih =>
      cases exec_cases (exec_eip_or_indirect k) h with
      | opcode h66 hrep hlen hin hkeep =>
          exact hkeep.resolve_right fun hind => hnot (.indirect hind.1.1 hind.1.2)
      | operandSize hb hmem heip hop16 hrun heip' hopcode hn =>
          rw [heip', ← heip]
          exact ih _ _ _ _ hrun (by rw [hmem]; exact fun ht => hnot (.prefix_ (.inl hb) ht))
      | repeat_ hb heip hn => exact heip

/-- The returned length is that of the encoding exactly when `LengthOk`. -/
theorem encodes_exec_iff (fuel : Nat) (eip : Addr) (s s' : Emu) (len : Nat)
    (h : exec fuel eip s = .ok (len, s')) :
    Encodes s.mem s.ops.is_operand_size_16 eip len ↔
      LengthOk s.mem s.ops.is_operand_size_16 eip := by
  induction fuel generalizing eip s s' len with
  | zero => exact nomatch h
  | succ k ih =>
      cases exec_cases (exec_eip_or_indirect k) h with
      | opcode h66 hrep hlen hin hkeep =>
          exact iff_of_true (.opcode hlen hin) (.opcode h66 hrep)
      | @operandSize s₁ s₂ m hb hmem heip hop16 hrun heip' hopcode hn =>
          have hiff := ih _ _ _ _ hrun
          rw [hmem, hop16] at hiff
          rw [hn, encodes_operandSize hb, hiff]
          apply Iff.intro
          · exact fun hok => .operandSize hb hok
          · intro hok
            cases hok with
            | opcode h66 hrep => exact absurd hb h66
            | operandSize hb' hrest => exact hrest
            | repeat_ hb' hrest => exact absurd hb' (not_isRepeat_of_isOperandSize hb)
      | repeat_ hb heip hn =>
          rw [hn, encodes_repeat hb]
          apply Iff.intro
          · exact fun hrest => .repeat_ hb hrest
          · intro hok
            cases hok with
            | opcode h66 hrep => exact absurd hb hrep
            | operandSize hb' hrest => exact absurd hb (not_isRepeat_of_isOperandSize hb')
            | repeat_ hb' hrest => exact hrest

/-- **Instruction length.** Whenever `exec` completes, it returned the length of the
    instruction's encoding exactly when the instruction has no repeat prefix or repeats
    a one-byte instruction. -/
theorem exec_lengthRight_iff (fuel : Nat) (eip : Addr) (s s' : Emu) (len : Nat)
    (h : exec fuel eip s = .ok (len, s')) :
    LengthRight s.mem s.ops.is_operand_size_16 eip s s' len ↔
      LengthOk s.mem s.ops.is_operand_size_16 eip := by
  rw [lengthRight_iff (exec_keeps_eip fuel eip s s' len h)]
  exact encodes_exec_iff fuel eip s s' len h

-- the length that an evaluation shows
theorem ok_of_length {x : Except Abort (Nat × Emu)} {n : Nat}
    (h : x.toOption.map Prod.fst = some n) : ∃ s', x = .ok (n, s') := by
  cases x with
  | error e => cases h
  | ok r =>
      obtain ⟨m, s'⟩ := r
      obtain rfl : m = n := Option.some.inj h
      exact ⟨s', rfl⟩

-- `mov %ax,-0x8(%esi,%eax,4)`: 66 89 44 86 f8
def movSib : Emu :=
  let s := Emu.zeroed fun i => [0x66, 0x89, 0x44, 0x86, 0xf8].getD i 0
  { s with cpu := { s.cpu with gpr := fun _ => 64 } }

/-- The rule at a `mov` with a prefix, ModR/M, SIB and displacement. -/
theorem exec_mov_sib_length :
    ∃ s', exec 2 0 movSib = .ok (5, s') ∧ LengthRight movSib.mem false 0 movSib s' 5 := by
  obtain ⟨s', hrun⟩ : ∃ s', exec 2 0 movSib = .ok (5, s') := ok_of_length (by decide +kernel)
  exact ⟨s', hrun, (exec_lengthRight_iff 2 0 movSib s' 5 hrun).mpr
    (.operandSize (by decide) (.opcode (by decide) (by decide)))⟩

-- `rep movsw`: f3 66 a5, once
def repMovsw : Emu :=
  let s := Emu.zeroed fun i => [0xf3, 0x66, 0xa5].getD i 0
  { s with cpu := { s.cpu with gpr := fun r => if r = R_ECX then 1 else 64 } }

/-- `rep movsw` is three bytes long, and `exec` returns two. -/
theorem exec_rep_movsw_length :
    ∃ s', exec 4 0 repMovsw = .ok (2, s') ∧
      ¬ LengthRight repMovsw.mem false 0 repMovsw s' 2 := by
  obtain ⟨s', hrun⟩ : ∃ s', exec 4 0 repMovsw = .ok (2, s') := ok_of_length (by decide +kernel)
  refine ⟨s', hrun, ?_⟩
  rintro ⟨n, hn, rfl, -⟩
  -- behind the two prefixes nothing would be left
  have h₁ : Encodes repMovsw.mem false 1 1 := (encodes_repeat (by decide)).mp hn
  have h₂ : Encodes repMovsw.mem true 2 0 := (encodes_operandSize (by decide)).mp h₁
  cases h₂ with
  | opcode hlen' hin => exact absurd hlen' (by decide)

end Emu

end Nemu
