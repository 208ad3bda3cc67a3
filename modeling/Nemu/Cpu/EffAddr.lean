/-
  Nemu.Cpu.EffAddr

  The effective address of a memory operand.  `I386.effAddr` is the address of the
  i386 manual as one sum over the bytes of memory: a base, a scaled index and a
  displacement, each absent where the encoding says so.  `load_addr` collects the
  same parts through its sentinels; the two agree on every encoding.
-/

import Nemu.Cpu.DecodeLength
import Nemu.Cpu.Exec.DataMov

namespace Nemu

namespace I386

open FlatMem

-- a 3-bit field as a register number
def regNo (n : Nat) : RegIdx := ⟨n % 8, by omega⟩

/-! ## The parts of an address -/

/-- A displacement of `n` bytes at `a`: none, a sign-extended byte, or 32 bits. -/
def dispValue (m : FlatMem) (a : Addr) (n : Nat) : BitVec 32 :=
  if n = 0 then 0
  else if n = 1 then (m a.toNat).signExtend 32
  else BitVec.ofNat 32 (ByteSeq.load m a.toNat n)

-- `base` 5 without a displacement byte stands for no base
def baseValue (gpr : RegIdx → BitVec 32) (mod base : Nat) : BitVec 32 :=
  if mod = 0 ∧ base = 5 then 0 else gpr (regNo base)

-- `index` 4 stands for no index
def indexValue (gpr : RegIdx → BitVec 32) (sib : Nat) : BitVec 32 :=
  if sib / 8 % 8 = 4 then 0 else gpr (regNo (sib / 8)) <<< (sib / 64)

/-- The address of the memory operand whose ModR/M byte is at `a`. -/
def effAddr (gpr : RegIdx → BitVec 32) (m : FlatMem) (a : Addr) : Addr :=
  let mod := byteAt m a / 64
  let rm := byteAt m a % 8
  if rm = 4 then
    let sib := byteAt m (a + 1)
    baseValue gpr mod (sib % 8) + indexValue gpr sib
      + dispValue m (a + 2) (dispLength mod (sib % 8))
  else baseValue gpr mod rm + dispValue m (a + 1) (dispLength mod rm)

section EffAddr

variable {gpr : RegIdx → BitVec 32} {m : FlatMem} {a : Addr}

theorem effAddr_sib (h : byteAt m a % 8 = 4) :
    effAddr gpr m a = baseValue gpr (byteAt m a / 64) (byteAt m (a + 1) % 8)
      + indexValue gpr (byteAt m (a + 1))
      + dispValue m (a + 2) (dispLength (byteAt m a / 64) (byteAt m (a + 1) % 8)) := by
  rw [effAddr, if_pos h]

theorem effAddr_plain (h : byteAt m a % 8 ≠ 4) :
    effAddr gpr m a = baseValue gpr (byteAt m a / 64) (byteAt m a % 8)
      + dispValue m (a + 1) (dispLength (byteAt m a / 64) (byteAt m a % 8)) := by
  rw [effAddr, if_neg h]

theorem modrmLength_sib (hmod : byteAt m a / 64 ≠ 3) (h : byteAt m a % 8 = 4) :
    modrmLength m a = 2 + dispLength (byteAt m a / 64) (byteAt m (a + 1) % 8) := by
  rw [modrmLength, if_neg hmod, if_pos h]

theorem modrmLength_plain (hmod : byteAt m a / 64 ≠ 3) (h : byteAt m a % 8 ≠ 4) :
    modrmLength m a = 1 + dispLength (byteAt m a / 64) (byteAt m a % 8) := by
  rw [modrmLength, if_neg hmod, if_neg h]

end EffAddr

/-! ## Only the operand's own bytes matter -/

-- two memories hold the same `n` bytes from `a` on
def SameBytes (m m' : FlatMem) (a : Addr) (n : Nat) : Prop :=
  ∀ i, i < n → m' (a.toNat + i) = m (a.toNat + i)

section SameBytes

variable {m m' : FlatMem} {a : Addr} {n k j : Nat}

theorem byteAt_congr (h : SameBytes m m' a n) (hin : InRange a n) (hk : k < n) :
    byteAt m' (a + BitVec.ofNat 32 k) = byteAt m (a + BitVec.ofNat 32 k) := by
  rw [byteAt, byteAt, hin.toNat_add (by omega), h k hk]

theorem dispValue_congr (h : SameBytes m m' a n) (hin : InRange a n) (hk : k + j ≤ n) :
    dispValue m' (a + BitVec.ofNat 32 k) j = dispValue m (a + BitVec.ofNat 32 k) j := by
  rw [dispValue, dispValue, hin.toNat_add (by omega)]
  by_cases h0 : j = 0
  · rw [if_pos h0, if_pos h0]
  rw [if_neg h0, if_neg h0]
  by_cases h1 : j = 1
  · rw [if_pos h1, if_pos h1, h k (by omega)]
  rw [if_neg h1, if_neg h1]
  have hload : ByteSeq.load m' (a.toNat + k) j = ByteSeq.load m (a.toNat + k) j := by
    refine ByteSeq.leNat_congr (fun i hi => ?_)
    rw [Nat.add_assoc]
    exact h (k + i) (by omega)
  rw [hload]

-- an operand has its ModR/M byte at least, and the SIB byte if it asks for one
theorem modrmLength_pos (m : FlatMem) (a : Addr) : 0 < modrmLength m a := by
  rw [modrmLength]
  split <;> [omega; split <;> omega]

-- the operand's first byte is its ModR/M byte
theorem byteAt_modrm_congr (h : SameBytes m m' a (modrmLength m a))
    (hin : InRange a (modrmLength m a)) : byteAt m' a = byteAt m a := by
  have hzero := byteAt_congr h hin (modrmLength_pos m a)
  rw [BitVec.add_zero] at hzero
  exact hzero

/-- The address is a function of the registers and of the operand's bytes. -/
theorem effAddr_congr (gpr : RegIdx → BitVec 32) (h : SameBytes m m' a (modrmLength m a))
    (hin : InRange a (modrmLength m a)) (hmod : byteAt m a / 64 ≠ 3) :
    effAddr gpr m' a = effAddr gpr m a ∧ modrmLength m' a = modrmLength m a := by
  have hmodrm := byteAt_modrm_congr h hin
  have hmod' : byteAt m' a / 64 ≠ 3 := by
    rw [hmodrm]
    exact hmod
  by_cases h4 : byteAt m a % 8 = 4
  · have h4' : byteAt m' a % 8 = 4 := by
      rw [hmodrm]
      exact h4
    have hlen := modrmLength_sib hmod h4
    have hsib : byteAt m' (a + 1) = byteAt m (a + 1) := byteAt_congr h hin (k := 1) (by omega)
    have hdisp : dispValue m' (a + 2) (dispLength (byteAt m a / 64) (byteAt m (a + 1) % 8))
        = dispValue m (a + 2) (dispLength (byteAt m a / 64) (byteAt m (a + 1) % 8)) :=
      dispValue_congr h hin (k := 2) (by omega)
    refine ⟨?_, ?_⟩
    · rw [effAddr_sib h4', effAddr_sib h4, hmodrm, hsib, hdisp]
    · rw [modrmLength_sib hmod' h4', hlen, hmodrm, hsib]
  · have h4' : byteAt m' a % 8 ≠ 4 := by
      rw [hmodrm]
      exact h4
    have hlen := modrmLength_plain hmod h4
    have hdisp : dispValue m' (a + 1) (dispLength (byteAt m a / 64) (byteAt m a % 8))
        = dispValue m (a + 1) (dispLength (byteAt m a / 64) (byteAt m a % 8)) :=
      dispValue_congr h hin (k := 1) (by omega)
    refine ⟨?_, ?_⟩
    · rw [effAddr_plain h4', effAddr_plain h4, hmodrm, hdisp]
    · rw [modrmLength_plain hmod' h4', hlen, hmodrm]

end SameBytes

end I386

open Outcome FlatMem I386

namespace Emu

/-! ## `load_addr` -/

theorem fetchDisp_run {s : Emu} {a : Addr} {n : Nat} (hlen : n = 0 ∨ accessLen n = true) (hin : n = 0 ∨ InRange a n) :
    fetchDisp a n s = .ok (dispValue s.mem a n, s) := by
  rw [fetchDisp, dispValue]
  by_cases h0 : n = 0
  · rw [if_neg (not_not_intro h0), if_pos h0, run_pure]
  rw [if_pos h0, if_neg h0,
    run_bind_ok (instrFetch_run (hlen.resolve_left h0) (hin.resolve_left h0)), run_pure]
  by_cases h1 : n = 1
  · subst h1
    rw [if_pos rfl, if_pos rfl, setWidth_load_one]
  · rw [if_neg h1, if_neg h1]

theorem accessLen_dispLength (mod base : Nat) :
    dispLength mod base = 0 ∨ accessLen (dispLength mod base) = true := by
  unfold dispLength
  split
  · split
    · exact .inr rfl
    · exact .inl rfl
  · exact .inr rfl
  · exact .inr rfl

-- the register `load_addr` adds: the base, unless it is the displacement-only case
theorem dispSize_snd (m : ModRM) (r : RegIdx) :
    (dispSize m (some r)).2 = if m.mod = 0 ∧ r.val = 5 then none else some r := by
  have hebp : some r = some R_EBP ↔ r.val = 5 := by
    rw [Option.some_inj, ← Fin.val_inj]
    rfl
  by_cases h0 : m.mod = 0
  · by_cases h5 : r.val = 5
    · simp only [dispSize, h0, hebp.mpr h5, h5, if_true, and_self]
    · simp only [dispSize, h0, if_true, if_neg (mt hebp.mp h5), true_and, if_neg h5]
  · by_cases h1 : m.mod = 1
    · simp only [dispSize, h1, if_true, false_and, if_false, one_ne_zero]
    · simp only [dispSize, if_neg h1, h0, false_and, if_false]

-- `s` with the operand `x` at `l`
def locAt (s : Emu) (x : OpSel) (l : OpLoc) : Emu :=
  { s with ops := s.ops.set x { s.ops.get x with loc := l } }

theorem regNo_val (r : RegIdx) : regNo r.val = r := Fin.ext (Nat.mod_eq_of_lt r.isLt)

-- an index of 4 is no index
theorem indexValue_eq (gpr : RegIdx → BitVec 32) (x : SIB) :
    (if x.index ≠ R_ESP then some x.index else none).elim 0 (fun i => gpr i <<< x.ss)
      = indexValue gpr x.val.toNat := by
  have hesp : x.index = R_ESP ↔ x.val.toNat / 8 % 8 = 4 := Fin.val_inj.symm
  rw [indexValue]
  by_cases h : x.index = R_ESP
  · rw [if_neg (not_not_intro h), if_pos (hesp.mp h), Option.elim_none]
  · rw [if_pos h, if_neg (mt hesp.mpr h)]
    rfl

-- the code adds the displacement first
theorem addr_sum (disp base index : BitVec 32) : disp + base + index = base + index + disp := by
  rw [BitVec.add_assoc, BitVec.add_comm]

/-- The second half of `load_addr`, from the form its first half found. -/
theorem loadAddr_of_form {s : Emu} {eip : Addr} {m : ModRM} {rm : OpSel} {f : AddrForm}
    {r : RegIdx} (hmod : m.mod ≠ 3) (hform : addrForm eip m s = .ok (f, s))
    (hbase : f.base_reg = some r)
    (hin : dispLength m.mod r.val = 0 ∨
      InRange (eip + BitVec.ofNat 32 f.disp_offset) (dispLength m.mod r.val)) :
    loadAddr eip m rm s = .ok (f.disp_offset + dispLength m.mod r.val, locAt s rm (.mem
      (dispValue s.mem (eip + BitVec.ofNat 32 f.disp_offset) (dispLength m.mod r.val)
        + baseValue s.cpu.gpr m.mod r.val
        + f.index_reg.elim 0 (fun i => s.cpu.gpr i <<< f.scale)))) := by
  have hcheck : check (m.mod != 3) s = .ok ((), s) := by
    rw [bne_iff_ne.mpr hmod]
    rfl
  have hdisp := fetchDisp_run (s := s) (accessLen_dispLength m.mod r.val) hin
  have hsize := dispSize_fst m r
  have hreg := dispSize_snd m r
  rcases hd : dispSize m (some r) with ⟨size, base⟩
  rw [hd] at hsize hreg
  subst hsize hreg
  rw [loadAddr, run_bind_ok hcheck, run_bind_ok hform, hbase, hd]
  dsimp only
  rw [run_bind_ok hdisp, run_bind_ok (getCpu_run s), run_bind_ok (setLoc_run ..), run_pure,
    baseValue]
  by_cases h : m.mod = 0 ∧ r.val = 5
  · rw [if_pos h, if_pos h]
    cases f.index_reg <;> rfl
  · rw [if_neg h, if_neg h, regNo_val]
    cases f.index_reg <;> rfl

/-- `load_addr` makes its operand the effective address and returns the operand's
    length. -/
theorem loadAddr_run {s : Emu} {eip : Addr} {m : ModRM} (rm : OpSel)
    (hval : m.val = s.mem eip.toNat) (hmod : m.mod ≠ 3)
    (hin : InRange eip (modrmLength s.mem eip)) :
    loadAddr eip m rm s = .ok (modrmLength s.mem eip,
      locAt s rm (.mem (effAddr s.cpu.gpr s.mem eip))) := by
  have hesp : m.rm = R_ESP ↔ m.rm.val = 4 := Fin.val_inj.symm
  have hmod' : byteAt s.mem eip / 64 ≠ 3 := by
    rw [← mod_eq hval]
    exact hmod
  by_cases h4 : m.rm.val = 4
  · have hrm : byteAt s.mem eip % 8 = 4 := by
      rw [← rm_eq hval]
      exact h4
    have hlen := modrmLength_sib hmod' hrm
    -- the SIB byte as the code has it
    let x : SIB := ⟨s.mem (eip + 1).toNat⟩
    have hx : x.base.val = byteAt s.mem (eip + 1) % 8 := rfl
    have hform : addrForm eip m s = .ok (⟨some x.base,
        if x.index ≠ R_ESP then some x.index else none, x.ss, 2⟩, s) := by
      have hfetch : fetchSIB (eip + 1) s = .ok (x, s) :=
        fetchSIB_run (hin.part (k := 1) (by omega))
      rw [addrForm, if_pos (hesp.mpr h4), run_bind_ok hfetch, run_pure]
    have hdisp : InRange (eip + BitVec.ofNat 32 2) (dispLength m.mod x.base.val) := by
      rw [mod_eq hval, hx]
      exact hin.part (by omega)
    have hindex := indexValue_eq s.cpu.gpr x
    rw [loadAddr_of_form hmod hform rfl (.inr hdisp), hlen, effAddr_sib hrm, mod_eq hval, hx,
      hindex, addr_sum]
    rfl
  · have hrm : byteAt s.mem eip % 8 ≠ 4 := by
      rw [← rm_eq hval]
      exact h4
    have hlen := modrmLength_plain hmod' hrm
    have hform : addrForm eip m s = .ok (⟨some m.rm, none, 0, 1⟩, s) := by
      rw [addrForm, if_neg (mt hesp.mp h4)]
      rfl
    have hdisp : InRange (eip + BitVec.ofNat 32 1) (dispLength m.mod m.rm.val) := by
      rw [mod_eq hval, rm_eq hval]
      exact hin.part (by omega)
    have hindex : ∀ b : BitVec 32, b + 0 = b := BitVec.add_zero
    rw [loadAddr_of_form hmod hform rfl (.inr hdisp), hlen, effAddr_plain hrm, mod_eq hval,
      rm_eq hval, addr_sum, Option.elim_none, hindex]
    rfl

/-! ## `lea` -/

/-- `lea` stores the effective address and does not access memory at it. -/
theorem lea_run {s : Emu} (eip : Addr) (hmod : byteAt s.mem (eip + 1) / 64 ≠ 3)
    (hin : InRange (eip + 1) (modrmLength s.mem (eip + 1))) :
    lea eip s = .ok (1 + modrmLength s.mem (eip + 1),
      { locAt s .src (.mem (effAddr s.cpu.gpr s.mem (eip + 1))) with
        cpu := s.cpu.setReg .long (regNo (regField s.mem (eip + 1)))
          (effAddr s.cpu.gpr s.mem (eip + 1)) }) := by
  have hfetch : fetchModRM (eip + 1) s = .ok (⟨s.mem (eip + 1).toNat⟩, s) :=
    fetchModRM_run (hin.mono (modrmLength_pos _ _))
  have hload := loadAddr_run .src (m := ⟨s.mem (eip + 1).toNat⟩) rfl hmod hin
  have hreg : ModRM.reg ⟨s.mem (eip + 1).toNat⟩ = regNo (regField s.mem (eip + 1)) :=
    Fin.ext (Nat.mod_mod _ _).symm
  rw [lea, run_bind_ok hfetch, run_bind_ok hload, run_bind_ok (getOp_run ..)]
  show (writeRegL _ _ >>= _) _ = _
  rw [run_bind_ok (writeRegL_run ..), hreg]
  rfl

/-- Every memory operand: `load_addr` finds its address and its length, and `lea` with
    its ModR/M byte there stores the address, whatever memory holds elsewhere. -/
theorem loadAddr_lea_effAddr (s : Emu) (eip : Addr) (m : ModRM) (rm : OpSel)
    (hval : m.val = s.mem (eip + 1).toNat) (hmod : m.mod ≠ 3)
    (hin : InRange (eip + 1) (modrmLength s.mem (eip + 1))) :
    loadAddr (eip + 1) m rm s = .ok (modrmLength s.mem (eip + 1),
        locAt s rm (.mem (effAddr s.cpu.gpr s.mem (eip + 1)))) ∧
      ∀ mem', SameBytes s.mem mem' (eip + 1) (modrmLength s.mem (eip + 1)) →
        lea eip { s with mem := mem' } = .ok (1 + modrmLength s.mem (eip + 1),
          { locAt s .src (.mem (effAddr s.cpu.gpr s.mem (eip + 1))) with
            mem := mem'
            cpu := s.cpu.setReg .long m.reg (effAddr s.cpu.gpr s.mem (eip + 1)) }) := by
  have hmod' : byteAt s.mem (eip + 1) / 64 ≠ 3 := by
    rw [← mod_eq hval]
    exact hmod
  refine ⟨loadAddr_run rm hval hmod hin, fun mem' hsame => ?_⟩
  obtain ⟨haddr, hlen⟩ := effAddr_congr s.cpu.gpr hsame hin hmod'
  have hmodrm := byteAt_modrm_congr hsame hin
  have hlea := lea_run (s := { s with mem := mem' }) eip
    (by rw [hmodrm]; exact hmod') (by rw [hlen]; exact hin)
  have hreg : regNo (regField mem' (eip + 1)) = m.reg := by
    apply Fin.ext
    rw [reg_eq hval, regField, regField, hmodrm]
    exact Nat.mod_mod _ _
  rw [hlea, hlen, haddr, hreg]
  rfl

-- `leal -0x10(%ebx,%ecx,4),%edx`; the scaled index wraps around
theorem loadAddr_lea_scaled :
    let m : FlatMem := fun i => [0x8d, 0x54, 0x8b, 0xf0].getD i 0
    let s : Emu := { Emu.zeroed m with
      cpu := { (Emu.zeroed m).cpu with gpr := fun i => if i = R_ECX then 0x40000003 else 0x20 } }
    loadAddr 1 ⟨0x54⟩ .src s = .ok (3, locAt s .src (.mem 0x1c)) := by
  intro m s
  have haddr : effAddr s.cpu.gpr s.mem 1 = 0x1c := by decide
  have hlen : modrmLength s.mem 1 = 3 := by decide
  have hload := (loadAddr_lea_effAddr s 0 ⟨0x54⟩ .src rfl (by decide) (by decide)).1
  rw [show (0 : Addr) + 1 = 1 from rfl, haddr, hlen] at hload
  exact hload

end Emu

end Nemu
