/-
  Nemu.Cpu.RepScan

  `repnz scasb` and `rep scasb`: the same loop with an exit test, and without one.

  `Scanned` follows the loop over the first `i` elements, whatever ends it.  `repnz`
  tests ZF and stops behind the first element equal to AL.  In `rep` the test is
  commented out, so it stops where it should only if no element before the last one
  differs from AL.
-/

import Nemu.Cpu.RepString

namespace Nemu

open Outcome FlatMem I386 Emu Strided

/-! ## One comparison -/

-- byte `i` of the string at EDI
def scanned (s : Emu) (i : Nat) : Byte := s.mem (element .byte s.cpu R_EDI i).toNat

-- `REG(R_EAX)` for bytes
def al (s : Emu) : Byte := s.cpu.reg .byte R_EAX

/-- The flags after `dest` was compared with `src`. -/
def scasFlags (f : EFlags) (dest src : Byte) : EFlags :=
  { f.updatePfZfSf ((dest - src).signExtend 32) with
    CF := decide (dest < dest - src)
    OF := ((dest ^^^ src) &&& (dest ^^^ (dest - src))).msb }

theorem scasFlags_ZF (f : EFlags) (dest src : Byte) :
    (scasFlags f dest src).ZF = decide (src = dest) := by
  have hzero : dest - src = 0 ↔ src = dest := by
    apply Iff.intro
    · intro h
      have hadd := BitVec.sub_add_cancel dest src
      rw [h] at hadd
      exact (BitVec.zero_add src).symm.trans hadd
    · rintro rfl
      exact BitVec.sub_self _
  refine (updatePfZfSf_ZF (w := .byte) f (dest - src)).trans ?_
  rw [decide_eq_decide]
  exact hzero

-- the flags after the byte at EDI was compared
def compared (t : Emu) : EFlags := scasFlags t.cpu.eflags (al t) (scanned t 0)

theorem scasb_run {t : Emu} (eip : Addr) (hin : InRange (t.cpu.gpr R_EDI) 1) :
    scas .byte eip t = .ok (1, { t with
      cpu := gprAt { t.cpu with eflags := compared t } R_EDI (element .byte t.cpu R_EDI 1) }) := by
  have hread := memR_run (w := .byte) (s := t) (read_eq_ok.mpr ⟨hin, rfl⟩)
  have hmod : ∀ (g : EFlags → EFlags) (s : Emu), modifyFlags g s
      = .ok ((), { s with cpu := { s.cpu with eflags := g s.cpu.eflags } }) := fun _ _ => rfl
  have hbyte : scanned t 0
      = (BitVec.ofNat 32 (ByteSeq.load t.mem (t.cpu.gpr R_EDI).toNat 1)).setWidth 8 := by
    rw [scanned, element, elem_zero, setWidth_load_one]
  rw [scas, run_bind_ok (readReg_run ..), run_bind_ok (readRegL_run ..), run_bind_ok hread,
    updateEflagsPfZfSf, run_bind_ok (hmod ..), setCF, run_bind_ok (hmod ..), setOF,
    run_bind_ok (hmod ..), run_bind_ok (stepIndex_run ..), run_pure, compared, hbyte]
  rfl

/-! ## The elements scanned so far -/

/-- From `s`, the loop has compared `i` elements and led to `t`. -/
structure Scanned (s : Emu) (i : Nat) (t : Emu) : Prop where
  ecx : t.cpu.gpr R_ECX = s.cpu.gpr R_ECX - BitVec.ofNat 32 i
  edi : t.cpu.gpr R_EDI = element .byte s.cpu R_EDI i
  acc : al t = al s
  df : t.cpu.eflags.DF = s.cpu.eflags.DF
  mem : t.mem = s.mem
  -- the last comparison
  zf : ∀ k, i = k + 1 → t.cpu.eflags.ZF = decide (scanned s k = al s)
  start : i = 0 → t.cpu = s.cpu

section Scan

variable {s t : Emu} {i n k fuel : Nat} {a : Addr}

-- the decoded operands do not matter
theorem Scanned.of_machine {t' : Emu} (h : Scanned s i t) (hcpu : t'.cpu = t.cpu)
    (hmem : t'.mem = t.mem) : Scanned s i t' := by
  obtain ⟨cpu, ops, mem, nemuState⟩ := t
  subst hcpu hmem
  exact ⟨h.ecx, h.edi, h.acc, h.df, h.mem, h.zf, h.start⟩

theorem Scanned.zero (s : Emu) : Scanned s 0 s where
  ecx := (BitVec.sub_zero _).symm
  edi := (elem_zero ..).symm
  acc := rfl
  df := rfl
  mem := rfl
  zf k hk := absurd hk (Nat.succ_ne_zero k).symm
  start _ := rfl

/-- One more element: ZF is the outcome of its comparison. -/
theorem Scanned.next (h : Scanned s i t) (eip : Addr)
    (hin : InRange (element .byte s.cpu R_EDI i) 1) :
    ∃ t₁, scas .byte eip t = .ok (1, t₁) ∧ t₁.ops = t.ops ∧
      t₁.cpu.eflags.ZF = decide (scanned s i = al s) ∧ Scanned s (i + 1) (ecxDown t₁) := by
  have hedi : element .byte t.cpu R_EDI 0 = element .byte s.cpu R_EDI i := by
    rw [element, elem_zero, h.edi]
  have hbyte : scanned t 0 = scanned s i := by rw [scanned, scanned, hedi, h.mem]
  have hzf : (compared t).ZF = decide (scanned s i = al s) := by
    rw [compared, scasFlags_ZF, hbyte, h.acc]
  refine ⟨_, scasb_run eip (by rw [h.edi]; exact hin), rfl, hzf, ?_⟩
  refine ⟨?_, element_next h.df h.edi, ?_, h.df, h.mem, ?_, fun hi => absurd hi (Nat.succ_ne_zero i)⟩
  · have hone : BitVec.ofNat 32 (i + 1) = BitVec.ofNat 32 i + 1 := BitVec.ofNat_add i 1
    show t.cpu.gpr R_ECX - 1 = _
    rw [h.ecx, hone, BitVec.sub_sub]
  · exact h.acc
  · intro k hk
    rw [← Nat.succ.inj hk]
    exact hzf

end Scan

/-! ## The two prefixes -/

/-- The prefixes that repeat `scasb`. -/
inductive ScanPrefix where
  | rep
  | repnz
deriving DecidableEq, Repr

namespace ScanPrefix

def opcode : ScanPrefix → Nat
  | rep => 0xf3
  | repnz => 0xf2

-- the opcodes its assertion accepts
def opcodes : ScanPrefix → List (BitVec 32)
  | rep => repOpcodes
  | repnz => repnzOpcodes

-- the exit test of its loop; that of `rep` is commented out
def stop : ScanPrefix → EFlags → Bool
  | rep => fun _ => false
  | repnz => fun f => f.ZF

/-- What the exit test makes of the outcome of a comparison. -/
def exits : ScanPrefix → Bool → Bool
  | rep, _ => false
  | repnz, equal => equal

/-- The scan is to stop behind an element: `rep`, a `repe` here, behind one different from
    AL, `repnz` behind one equal to it. -/
def Stops : ScanPrefix → Byte → Byte → Prop
  | rep, dest, src => src ≠ dest
  | repnz, dest, src => src = dest

instance : (p : ScanPrefix) → (dest src : Byte) → Decidable (p.Stops dest src)
  | rep, dest, src => inferInstanceAs (Decidable (src ≠ dest))
  | repnz, dest, src => inferInstanceAs (Decidable (src = dest))

theorem stop_eq (p : ScanPrefix) (f : EFlags) : p.stop f = p.exits f.ZF := by cases p <;> rfl

/-- Neither loop stops too early. -/
theorem exits_of_not_stops {p : ScanPrefix} {dest src : Byte} (h : ¬ p.Stops dest src) :
    p.exits (decide (src = dest)) = false := by
  cases p with
  | rep => rfl
  | repnz => exact decide_eq_false h

/-- Only `rep` goes on where it should stop. -/
theorem eq_rep_of_stops {p : ScanPrefix} {dest src : Byte} (h : p.Stops dest src)
    (hexit : p.exits (decide (src = dest)) = false) : p = rep := by
  cases p with
  | rep => rfl
  | repnz => exact absurd h (of_decide_eq_false hexit)

end ScanPrefix

section Prefix

variable {p : ScanPrefix} {s t : Emu} {a : Addr} {i m k fuel : Nat}

/-- `exec` on a prefix in front of `scasb` is the loop. -/
theorem exec_scanPrefix (hp : byteAt s.mem a = p.opcode) (hop : byteAt s.mem (a + 1) = 0xae)
    (hin : InRange a 2) :
    exec (k + 1) a s
      = (do repLoop (exec k) p.opcodes p.stop a k; return 2) (opcodeAt s p.opcode) := by
  cases p with
  | rep => exact exec_rep hp (by rw [hop]; decide) hin
  | repnz =>
      have hentry : opcodeTable.getD 0xf2 Instr.inv = .repnz := rfl
      have hp' : byteAt s.mem a = 0xf2 := hp
      rw [exec_run k (hin.mono (by omega)), hp', hentry]
      rfl

/-- One iteration: the exit test sees the outcome of its comparison. -/
theorem Scanned.exec_next (h : Scanned s i t) (hop : byteAt s.mem a = 0xae) (hin : InRange a 1)
    (hel : InRange (element .byte s.cpu R_EDI i) 1) :
    ∃ t₁, exec (k + 1) a t = .ok (1, t₁) ∧ p.opcodes.contains t₁.ops.opcode = true ∧
      p.stop t₁.cpu.eflags = p.exits (decide (scanned s i = al s)) ∧
      Scanned s (i + 1) (ecxDown t₁) := by
  have hbyte : byteAt t.mem a = 0xae := by rw [h.mem, hop]
  have hentry : opcodeTable.getD 0xae Instr.inv = .instr .scasB := rfl
  have hat : Scanned s i (opcodeAt t 0xae) := h.of_machine rfl rfl
  obtain ⟨t₁, hrun, hops, hzf, hnext⟩ := hat.next a hel
  refine ⟨t₁, ?_, ?_, ?_, hnext⟩
  · rw [exec_run k hin, hbyte, hentry]
    exact hrun
  · rw [hops]
    cases p <;> rfl
  · rw [p.stop_eq, hzf]

/-- `m` iterations that do not exit. -/
theorem repLoop_scan (hop : byteAt s.mem (a + 1) = 0xae) (hin : InRange (a + 1) 1)
    (hm : m ≤ (s.cpu.gpr R_ECX).toNat)
    (hel : ∀ i, i < m → InRange (element .byte s.cpu R_EDI i) 1)
    (hgo : ∀ i, i < m → p.exits (decide (scanned s i = al s)) = false) (h0 : Scanned s 0 t)
    (fuel : Nat) :
    ∃ t', repLoop (exec (k + 1)) p.opcodes p.stop a (m + fuel) t
        = repLoop (exec (k + 1)) p.opcodes p.stop a fuel t' ∧ Scanned s m t' := by
  refine repLoop_iterate (exec (k + 1)) p.opcodes p.stop a (Scanned s) m (fun i t hi h => ?_) h0 fuel
  obtain ⟨t₁, hexec, hopcode, hstop, hnext⟩ := h.exec_next hop hin (hel i hi)
  refine ⟨?_, 1, t₁, hexec, hopcode, hstop.trans (hgo i hi), hnext⟩
  rw [h.ecx]
  exact sub_ofNat_ne_zero (Nat.lt_of_lt_of_le hi hm)

/-- The loop that exits behind element `m`. -/
theorem repLoop_scan_exit (hop : byteAt s.mem (a + 1) = 0xae) (hin : InRange (a + 1) 1)
    (hm : m < (s.cpu.gpr R_ECX).toNat)
    (hel : ∀ i, i < m + 1 → InRange (element .byte s.cpu R_EDI i) 1)
    (hgo : ∀ i, i < m → p.exits (decide (scanned s i = al s)) = false)
    (hexit : p.exits (decide (scanned s m = al s)) = true) (h0 : Scanned s 0 t)
    (hfuel : m < fuel) :
    ∃ t', repLoop (exec (k + 1)) p.opcodes p.stop a fuel t = .ok ((), t') ∧
      Scanned s (m + 1) t' := by
  obtain ⟨j, rfl⟩ : ∃ j, fuel = m + (j + 1) := ⟨fuel - m - 1, by omega⟩
  obtain ⟨t', hrun, h⟩ := repLoop_scan (p := p) (k := k) hop hin (Nat.le_of_lt hm)
    (fun i hi => hel i (Nat.lt_succ_of_lt hi)) hgo h0 (j + 1)
  obtain ⟨t₁, hexec, hopcode, hstop, hnext⟩ := h.exec_next (p := p) (k := k) hop hin
    (hel m (Nat.lt_succ_self m))
  have hcx : t'.cpu.gpr R_ECX ≠ 0 := by
    rw [h.ecx]
    exact sub_ofNat_ne_zero hm
  refine ⟨ecxDown t₁, ?_, hnext⟩
  rw [hrun, repLoop_next j hcx hexec hopcode, hstop, hexit]
  rfl

/-- The loop that never exits runs until ECX is 0. -/
theorem repLoop_scan_end (hop : byteAt s.mem (a + 1) = 0xae) (hin : InRange (a + 1) 1)
    (hel : ∀ i, i < (s.cpu.gpr R_ECX).toNat → InRange (element .byte s.cpu R_EDI i) 1)
    (hgo : ∀ i, i < (s.cpu.gpr R_ECX).toNat → p.exits (decide (scanned s i = al s)) = false)
    (h0 : Scanned s 0 t) (hfuel : (s.cpu.gpr R_ECX).toNat < fuel) :
    ∃ t', repLoop (exec (k + 1)) p.opcodes p.stop a fuel t = .ok ((), t') ∧
      Scanned s (s.cpu.gpr R_ECX).toNat t' := by
  obtain ⟨j, rfl⟩ : ∃ j, fuel = (s.cpu.gpr R_ECX).toNat + (j + 1) :=
    ⟨fuel - (s.cpu.gpr R_ECX).toNat - 1, by omega⟩
  obtain ⟨t', hrun, h⟩ := repLoop_scan (p := p) (k := k) hop hin (Nat.le_refl _) hel hgo h0 (j + 1)
  have hcx : t'.cpu.gpr R_ECX = 0 := by
    rw [h.ecx, sub_ofNat_toNat]
  exact ⟨t', hrun.trans (repLoop_done j hcx), h⟩

end Prefix

/-! ## Where the scan stops -/

/-- From `s` to `s'` the whole string instruction scanned as its prefix says. -/
structure ScanRight (p : ScanPrefix) (s s' : Emu) : Prop where
  -- the first element to stop behind has index `k`
  found : ∀ k, k < (s.cpu.gpr R_ECX).toNat → p.Stops (al s) (scanned s k) →
    (∀ i, i < k → ¬ p.Stops (al s) (scanned s i)) →
      s'.cpu.gpr R_ECX = BitVec.ofNat 32 ((s.cpu.gpr R_ECX).toNat - k - 1) ∧
      s'.cpu.gpr R_EDI = element .byte s.cpu R_EDI (k + 1) ∧
      s'.cpu.eflags.ZF = decide (scanned s k = al s)
  missing : (∀ i, i < (s.cpu.gpr R_ECX).toNat → ¬ p.Stops (al s) (scanned s i)) →
    s'.cpu.gpr R_ECX = 0 ∧
    s'.cpu.gpr R_EDI = element .byte s.cpu R_EDI (s.cpu.gpr R_ECX).toNat
  zero : (s.cpu.gpr R_ECX).toNat = 0 → s'.cpu = s.cpu ∧ s'.mem = s.mem

section Right

variable {p : ScanPrefix} {s s' t : Emu} {a : Addr} {k n fuel : Nat}

theorem Scanned.right_found (h : Scanned s (k + 1) t) (hk : k < (s.cpu.gpr R_ECX).toNat)
    (hstop : p.Stops (al s) (scanned s k))
    (hfirst : ∀ i, i < k → ¬ p.Stops (al s) (scanned s i)) : ScanRight p s t where
  found k' hk' hstop' hfirst' := by
    -- there is one first element
    obtain rfl : k' = k := by
      rcases Nat.lt_trichotomy k' k with hlt | heq | hgt
      · exact absurd hstop' (hfirst k' hlt)
      · exact heq
      · exact absurd hstop (hfirst' k hgt)
    refine ⟨?_, h.edi, h.zf k' rfl⟩
    rw [h.ecx, sub_ofNat hk', Nat.sub_sub]
  missing hnone := absurd hstop (hnone k hk)
  zero hzero := by omega

theorem Scanned.right_missing (h : Scanned s (s.cpu.gpr R_ECX).toNat t)
    (hnone : ∀ i, i < (s.cpu.gpr R_ECX).toNat → ¬ p.Stops (al s) (scanned s i)) :
    ScanRight p s t where
  found k hk hstop _ := absurd hstop (hnone k hk)
  missing _ := by
    refine ⟨?_, h.edi⟩
    rw [h.ecx, sub_ofNat_toNat]
  zero hzero := ⟨h.start hzero, h.mem⟩

-- the first of the elements to stop behind
theorem exists_first_stop (hex : ∃ k, k < n ∧ p.Stops (al s) (scanned s k)) :
    ∃ k, k < n ∧ p.Stops (al s) (scanned s k) ∧
      ∀ i, i < k → ¬ p.Stops (al s) (scanned s i) := by
  refine ⟨Nat.find hex, (Nat.find_spec hex).1, (Nat.find_spec hex).2, ?_⟩
  intro i hi hstop
  exact Nat.find_min hex hi ⟨Nat.lt_trans hi (Nat.find_spec hex).1, hstop⟩

/-- The loop is right with its exit test, and without one if there was nothing to exit
    for before the last element. -/
theorem repLoop_right (hop : byteAt s.mem (a + 1) = 0xae) (hin : InRange (a + 1) 1)
    (hel : ∀ i, i < (s.cpu.gpr R_ECX).toNat →
      (∀ j, j < i → ¬ p.Stops (al s) (scanned s j)) → InRange (element .byte s.cpu R_EDI i) 1)
    (hcond : p = .repnz ∨ ∀ i, i + 1 < (s.cpu.gpr R_ECX).toNat → scanned s i = al s)
    (h0 : Scanned s 0 t) (hfuel : (s.cpu.gpr R_ECX).toNat < fuel) :
    ∃ t', repLoop (exec (k + 1)) p.opcodes p.stop a fuel t = .ok ((), t') ∧ ScanRight p s t' := by
  by_cases hex : ∃ k, k < (s.cpu.gpr R_ECX).toNat ∧ p.Stops (al s) (scanned s k)
  · obtain ⟨m, hm, hstop, hfirst⟩ := exists_first_stop hex
    have hgo : ∀ i, i < m → p.exits (decide (scanned s i = al s)) = false :=
      fun i hi => ScanPrefix.exits_of_not_stops (hfirst i hi)
    have hel' : ∀ i, i < m + 1 → InRange (element .byte s.cpu R_EDI i) 1 := by
      intro i hi
      exact hel i (by omega) (fun j hj => hfirst j (by omega))
    cases hexit : p.exits (decide (scanned s m = al s)) with
    | true =>
        obtain ⟨t', hrun, h⟩ := repLoop_scan_exit hop hin hm hel' hgo hexit h0
          (Nat.lt_trans hm hfuel)
        exact ⟨t', hrun, h.right_found hm hstop hfirst⟩
    | false =>
        -- `rep` runs on: nothing is left if this was the last element
        obtain rfl := ScanPrefix.eq_rep_of_stops hstop hexit
        have hall := hcond.resolve_left (fun hp => ScanPrefix.noConfusion hp)
        have hlast : m + 1 = (s.cpu.gpr R_ECX).toNat := by
          by_contra hne
          exact hstop (hall m (by omega))
        rw [hlast] at hel'
        obtain ⟨t', hrun, h⟩ := repLoop_scan_end (p := .rep) hop hin hel' (fun _ _ => rfl) h0 hfuel
        rw [← hlast] at h
        exact ⟨t', hrun, h.right_found hm hstop hfirst⟩
  · have hnone : ∀ i, i < (s.cpu.gpr R_ECX).toNat → ¬ p.Stops (al s) (scanned s i) :=
      fun i hi hstop => hex ⟨i, hi, hstop⟩
    obtain ⟨t', hrun, h⟩ := repLoop_scan_end (p := p) hop hin
      (fun i hi => hel i hi (fun j hj => hnone j (Nat.lt_trans hj hi)))
      (fun i hi => ScanPrefix.exits_of_not_stops (hnone i hi)) h0 hfuel
    exact ⟨t', hrun, h.right_missing hnone⟩

/-- Without an exit test the loop only ends with ECX at 0. -/
theorem repLoop_ecx {exec' : Addr → EmuM Nat} {opcodes : List (BitVec 32)} {u : Unit}
    (h : repLoop exec' opcodes (fun _ => false) a fuel t = .ok (u, s')) :
    s'.cpu.gpr R_ECX = 0 := by
  induction fuel generalizing t with
  | zero => cases h
  | succ fuel ih =>
      rw [repLoop, run_bind_ok (readRegL_run ..)] at h
      by_cases hcx : t.cpu.gpr R_ECX = 0
      · rw [if_pos hcx, run_pure] at h
        cases h
        exact hcx
      · rw [if_neg hcx] at h
        obtain ⟨len, t₁, -, h⟩ := run_bind_eq_ok.mp h
        rw [run_bind_ok (readRegL_run ..), run_bind_ok (writeRegL_run ..),
          run_bind_ok (getOps_run _)] at h
        obtain ⟨_, t₂, -, h⟩ := run_bind_eq_ok.mp h
        rw [run_bind_ok (getCpu_run _), if_neg Bool.false_ne_true] at h
        exact ih h

/-- `rep` that ended right had no reason to stop before the last element. -/
theorem rep_right_elements (hp : byteAt s.mem a = 0xf3) (hop : byteAt s.mem (a + 1) = 0xae)
    (hin : InRange a 2) (hrun : exec (k + 1) a s = .ok (2, s')) (hright : ScanRight .rep s s') :
    ∀ i, i + 1 < (s.cpu.gpr R_ECX).toNat → scanned s i = al s := by
  rw [exec_scanPrefix (p := .rep) hp hop hin] at hrun
  obtain ⟨u, t', hloop, hret⟩ := run_bind_eq_ok.mp hrun
  rw [run_pure] at hret
  cases hret
  have hcx := repLoop_ecx hloop
  intro i hi
  by_contra hne
  obtain ⟨k, hk, hstop, hfirst⟩ := exists_first_stop (p := .rep)
    (n := (s.cpu.gpr R_ECX).toNat - 1) ⟨i, by omega, hne⟩
  have hcount := (hright.found k (by omega) hstop hfirst).1
  have hlt := (s.cpu.gpr R_ECX).isLt
  -- ECX would count the elements left
  rw [hcx] at hcount
  have hnat := congrArg BitVec.toNat hcount
  rw [BitVec.toNat_ofNat, Nat.mod_eq_of_lt (by omega)] at hnat
  have hzero : (0 : BitVec 32).toNat = 0 := rfl
  omega

end Right

/-- `repnz scasb` stops where it should on every string; `rep scasb` does exactly if every
    element before the last one is equal to AL, so that there is nothing to stop for. -/
theorem repScan_right_iff (p : ScanPrefix) (s : Emu) (a : Addr)
    (hp : byteAt s.mem a = p.opcode) (hop : byteAt s.mem (a + 1) = 0xae) (hin : InRange a 2)
    (hel : ∀ i, i < (s.cpu.gpr R_ECX).toNat →
      (∀ j, j < i → ¬ p.Stops (al s) (scanned s j)) →
        InRange (element .byte s.cpu R_EDI i) 1) :
    (∃ k, ∀ fuel, k ≤ fuel → ∃ s', exec fuel a s = .ok (2, s') ∧ ScanRight p s s') ↔
      p = .repnz ∨ ∀ i, i + 1 < (s.cpu.gpr R_ECX).toNat → scanned s i = al s := by
  apply Iff.intro
  · rintro ⟨k, h⟩
    obtain ⟨s', hrun, hright⟩ := h (k + 1) (Nat.le_succ k)
    cases p with
    | rep => exact Or.inr (rep_right_elements hp hop hin hrun hright)
    | repnz => exact Or.inl rfl
  · intro hcond
    refine ⟨(s.cpu.gpr R_ECX).toNat + 2, fun fuel hfuel => ?_⟩
    obtain ⟨k, rfl⟩ : ∃ k, fuel = k + 2 := ⟨fuel - 2, by omega⟩
    have h0 : Scanned s 0 (opcodeAt s p.opcode) := (Scanned.zero s).of_machine rfl rfl
    obtain ⟨s', hrun, hright⟩ := repLoop_right (k := k) hop (hin.part (k := 1) (Nat.le_refl 2))
      hel hcond h0 (show (s.cpu.gpr R_ECX).toNat < k + 1 by omega)
    refine ⟨s', ?_, hright⟩
    rw [exec_scanPrefix hp hop hin, run_bind_ok hrun, run_pure]

-- the bytes at EDI are 1, 0 and AL is 0
def scanOnce (opcode : Byte) : Emu :=
  let m : FlatMem := fun i => if i = 0x20 then 1 else [opcode, 0xae].getD i 0
  { Emu.zeroed m with
    cpu := { (Emu.zeroed m).cpu with
      gpr := fun r => if r = R_ECX then 2 else if r = R_EDI then 0x20 else 0 } }

theorem repScan_right_iff_repnz :
    (∃ k, ∀ fuel, k ≤ fuel → ∃ s', exec fuel 0 (scanOnce 0xf2) = .ok (2, s') ∧
      ScanRight .repnz (scanOnce 0xf2) s') ↔
    (ScanPrefix.repnz = .repnz ∨
      ∀ i, i + 1 < ((scanOnce 0xf2).cpu.gpr R_ECX).toNat →
        scanned (scanOnce 0xf2) i = al (scanOnce 0xf2)) := by
  have hel : ∀ i, i < 2 → InRange (element .byte (scanOnce 0xf2).cpu R_EDI i) 1 := by decide
  exact repScan_right_iff .repnz (scanOnce 0xf2) 0 (by decide) (by decide) (by decide)
    (fun i hi _ => hel i hi)

/-- `rep scasb` over two bytes, the first one different from AL, compares both: it does not
    stop behind the first one. -/
theorem rep_scasb_runs_on :
    ¬ (∃ k, ∀ fuel, k ≤ fuel → ∃ s', exec fuel 0 (scanOnce 0xf3) = .ok (2, s') ∧
      ScanRight .rep (scanOnce 0xf3) s') := by
  rintro ⟨k, h⟩
  obtain ⟨s', hrun, hright⟩ := h (k + 1) (Nat.le_succ k)
  have heq := rep_right_elements (a := 0) (by decide) (by decide) (by decide) hrun hright 0
    (by decide)
  exact absurd heq (by decide)

end Nemu
