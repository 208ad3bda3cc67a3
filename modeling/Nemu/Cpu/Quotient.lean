/-
  Nemu.Cpu.Quotient

  `div` and `idiv`: the register pair `(E)DX:(E)AX` divided by an operand, and the division
  that takes back a multiplication.

  The template of `idiv` builds its dividend from zero-extended halves.  That is the signed
  dividend for 32-bit operands, where the upper half ends in the sign bit of an `int64_t`;
  a negative 32-bit dividend of the 16-bit instance is taken for a positive number.
-/

import Nemu.Cpu.Product
import Mathlib.Data.Nat.Prime.Basic

namespace Nemu

open Outcome FlatMem I386 Emu

/-! ## Truncated division -/

/-- Quotient and remainder of truncated division: the remainder is smaller than the divisor
    and zero or of the dividend's sign. -/
theorem tdiv_tmod_spec (D : Int) {d : Int} (hd : d ≠ 0) :
    D = D.tdiv d * d + D.tmod d ∧ (D.tmod d).natAbs < d.natAbs ∧
      (D.tmod d = 0 ∨ (D.tmod d < 0 ↔ D < 0)) := by
  have hpos : 0 < d.natAbs := by omega
  refine ⟨(Int.tdiv_mul_add_tmod D d).symm, ?_, ?_⟩
  · rw [Int.natAbs_tmod]
    exact Nat.mod_lt _ hpos
  · by_cases hzero : D.tmod d = 0
    · exact .inl hzero
    · right
      rcases Int.le_total 0 D with hD | hD
      · have hr := Int.tmod_nonneg d hD
        omega
      · have hr := Int.tmod_nonneg d (Int.neg_nonneg_of_nonpos hD)
        rw [Int.neg_tmod] at hr
        have hne : D ≠ 0 := by
          rintro rfl
          exact hzero (Int.zero_tmod d)
        omega

/-- A multiple of the divisor leaves nothing, and the factor is the quotient. -/
theorem quotient_unique {a q d r : Int} (h : a * d = q * d + r) (hr : r.natAbs < d.natAbs) :
    q = a ∧ r = 0 := by
  have hmul : r = (a - q) * d := by
    rw [Int.sub_mul]
    omega
  have hzero : a - q = 0 := by
    by_contra hne
    have hge : 1 * d.natAbs ≤ (a - q).natAbs * d.natAbs :=
      Nat.mul_le_mul_right _ (by omega)
    rw [← Int.natAbs_mul, ← hmul] at hge
    omega
  rw [hzero, Int.zero_mul] at hmul
  exact ⟨by omega, hmul⟩

-- division without remainder is additive
theorem add_tdiv_of_dvd {a b c : Int} (hc : c ≠ 0) (ha : c ∣ a) (hb : c ∣ b) :
    (a + b).tdiv c = a.tdiv c + b.tdiv c := by
  obtain ⟨x, rfl⟩ := ha
  obtain ⟨y, rfl⟩ := hb
  rw [← Int.mul_add, Int.mul_tdiv_cancel_left _ hc, Int.mul_tdiv_cancel_left _ hc,
    Int.mul_tdiv_cancel_left _ hc]

/-! ## The two operations -/

inductive DivOp where
  | div
  | idiv
deriving DecidableEq, Repr

namespace DivOp

def body : DivOp → Width → EmuM Unit
  | div => doDiv
  | idiv => doIdiv

def instr : DivOp → Instr
  | div => .divRmV
  | idiv => .idivRmV

/-- The multiplication that the division takes back. -/
def product : DivOp → MulForm
  | div => .mul_rm
  | idiv => .imul_rm2a

def helper (op : DivOp) (w : Width) : Addr → EmuM Nat := idex (decodeRm w) (op.body w)

theorem runInstr_instr (op : DivOp) (eip : Addr) (s : Emu) :
    runInstr op.instr eip s = op.helper (opWidth s.ops.is_operand_size_16) eip s := by
  rw [← helperV_run op.helper]
  cases op <;> rfl

/-- The quotient of the `2n`-bit number `D` by `d` is an `n`-bit number. -/
def Fits {n : Nat} (D : BitVec (n + n)) (d : BitVec n) : DivOp → Prop
  | div => D.toNat / d.toNat < 2 ^ n
  | idiv => -2 ^ (n - 1) ≤ D.toInt.tdiv d.toInt ∧ D.toInt.tdiv d.toInt < 2 ^ (n - 1)

/-- `q` and `r` are quotient and remainder, for the unsigned readings or the signed ones. -/
def Divides {n : Nat} (D : BitVec (n + n)) (d q r : BitVec n) : DivOp → Prop
  | div => D.toNat = q.toNat * d.toNat + r.toNat ∧ r.toNat < d.toNat
  | idiv => D.toInt = q.toInt * d.toInt + r.toInt ∧ r.toInt.natAbs < d.toInt.natAbs ∧
      (r.toInt = 0 ∨ (r.toInt < 0 ↔ D.toInt < 0))

/-- When the code divides right: unsigned, with 32-bit operands, a dividend that is not
    negative, or a negative one that a power of two divides without remainder. -/
def Ok (w : Width) (D : BitVec (w.bits + w.bits)) (d : BitVec w.bits) (op : DivOp) : Prop :=
  op = div ∨ w = .long ∨ 0 ≤ D.toInt ∨
    (d.toInt ∣ D.toInt ∧ d.toInt ∣ 2 ^ (w.bits + w.bits))

end DivOp

/-! ## The dividend -/

section Dividend

variable {w : Width} {d : BitVec w.bits}

theorem toNat_pos_of_ne_zero (hd : d ≠ 0) : 0 < d.toNat :=
  Nat.pos_of_ne_zero fun h => hd (BitVec.eq_of_toNat_eq h)

theorem toInt_ne_zero (hd : d ≠ 0) : d.toInt ≠ 0 :=
  fun h => hd (BitVec.toInt_inj.mp (h.trans BitVec.toInt_zero.symm))

-- the `n`-bit number that a 64-bit result is cut to
theorem setWidth_eq_ofInt (x : BitVec 64) : x.setWidth w.bits = BitVec.ofInt w.bits x.toInt := by
  have hle := bits_le_double w
  apply BitVec.eq_of_toInt_eq
  rw [← BitVec.signExtend_eq_setWidth_of_le _ hle,
    BitVec.toInt_signExtend_eq_toInt_bmod_of_le _ hle, BitVec.toInt_ofInt]

/-- What the templates shift and or together is the pair, zero-extended. -/
theorem dividend_eq (hi lo : BitVec w.bits) :
    hi.setWidth 64 <<< w.bits ||| lo.setWidth 64 = (hi ++ lo).setWidth 64 := by
  have hle := two_bits_le w
  apply BitVec.eq_of_getLsbD_eq
  intro b hb
  rw [BitVec.getLsbD_or, BitVec.getLsbD_shiftLeft, BitVec.getLsbD_setWidth,
    BitVec.getLsbD_setWidth, BitVec.getLsbD_setWidth, BitVec.getLsbD_append, decide_eq_true hb]
  by_cases hlo : b < w.bits
  · simp [hlo]
  · have h64 : b - w.bits < 64 := by omega
    simp [hlo, h64, BitVec.getLsbD_of_ge lo b (by omega)]

/-- The dividend of `idiv` as the code reads it: zero-extended in the 16-bit instance. -/
def readDividend (w : Width) (D : BitVec (w.bits + w.bits)) : Int :=
  if w = .long then D.toInt else D.toNat

theorem toInt_dividend (hw : w ≠ .byte) (D : BitVec (w.bits + w.bits)) :
    (D.setWidth 64).toInt = readDividend w D := by
  cases w with
  | byte => exact absurd rfl hw
  | word =>
      have hlt : D.toNat < 2 ^ 32 := D.isLt
      rw [readDividend, if_neg (by decide), BitVec.toInt_setWidth]
      exact Int.bmod_eq_of_le_mul_two (by omega) (by omega)
  | long =>
      rw [readDividend, if_pos rfl]
      exact congrArg BitVec.toInt (BitVec.setWidth_eq D)

-- how it differs from the signed reading
theorem readDividend_eq (D : BitVec (w.bits + w.bits)) :
    readDividend w D
      = if w = .long ∨ 0 ≤ D.toInt then D.toInt else D.toInt + 2 ^ (w.bits + w.bits) := by
  have hcond := BitVec.toInt_eq_toNat_cond D
  have hlt := D.isLt
  have hpos : (0 : Int) < 2 ^ (w.bits + w.bits) := Int.pow_pos (by decide)
  have hcast : ((2 ^ (w.bits + w.bits) : Nat) : Int) = 2 ^ (w.bits + w.bits) := by push_cast; rfl
  rw [readDividend]
  by_cases hlong : w = .long
  · rw [if_pos hlong, if_pos (.inl hlong)]
  · rw [if_neg hlong]
    rw [hcast] at hcond
    split at hcond
    · rw [if_pos (.inr (by omega)), hcond]
    · rw [if_neg (not_or.mpr ⟨hlong, by omega⟩)]
      omega

end Dividend

/-! ## When the signed division is right -/

section Signed

variable {w : Width} {D : BitVec (w.bits + w.bits)} {d : BitVec w.bits}

-- a number below the divisor in size is an `n`-bit number
theorem toInt_ofInt_remainder {x : Int} (h : x.natAbs < d.toInt.natAbs) :
    (BitVec.ofInt w.bits x).toInt = x := by
  have hlo := BitVec.le_toInt d
  have hhi := BitVec.toInt_lt (x := d)
  exact BitVec.toInt_ofInt_eq_self w.bits_pos (by omega) (by omega)

-- a divisor of `2^(2n)` that is an `n`-bit number divides it `2^n` times at least
theorem pow_dvd_quotient (hdvd : d.toInt ∣ 2 ^ (w.bits + w.bits)) :
    (2 : Int) ^ w.bits ∣ (2 ^ (w.bits + w.bits) : Int).tdiv d.toInt := by
  have hlo := BitVec.le_toInt d
  have hhi := BitVec.toInt_lt (x := d)
  have hnat : d.toInt.natAbs ∣ 2 ^ (w.bits + w.bits) := by
    have habs := Int.natAbs_dvd_natAbs.mpr hdvd
    rwa [Int.natAbs_pow] at habs
  obtain ⟨k, -, hk⟩ := (Nat.dvd_prime_pow Nat.prime_two).mp hnat
  have hcast : ((2 ^ (w.bits - 1) : Nat) : Int) = 2 ^ (w.bits - 1) := by push_cast; rfl
  have hsmall : 2 ^ k ≤ 2 ^ (w.bits - 1) := by
    rw [← hk]
    omega
  have hkn : k ≤ w.bits := by
    have hle := (Nat.pow_le_pow_iff_right (by decide)).mp hsmall
    omega
  -- the quotient is the other power of two, up to its sign
  apply Int.natAbs_dvd_natAbs.mp
  rw [Int.natAbs_pow, Int.natAbs_tdiv, Int.natAbs_pow, hk]
  show 2 ^ w.bits ∣ 2 ^ (w.bits + w.bits) / 2 ^ k
  rw [Nat.pow_div (by omega) (by decide)]
  exact Nat.pow_dvd_pow 2 (by omega)

/-- The signed reading divided, cut to `n` bits. -/
theorem divides_of_signed (hd : d ≠ 0) (hfits : DivOp.idiv.Fits D d) :
    DivOp.idiv.Divides D d (BitVec.ofInt w.bits (D.toInt.tdiv d.toInt))
      (BitVec.ofInt w.bits (D.toInt.tmod d.toInt)) := by
  have hd0 := toInt_ne_zero hd
  obtain ⟨hsum, hsmall, hsign⟩ := tdiv_tmod_spec D.toInt hd0
  have hq := BitVec.toInt_ofInt_eq_self w.bits_pos hfits.1 hfits.2
  have hr := toInt_ofInt_remainder hsmall
  show _ ∧ _ ∧ _
  rw [hq, hr]
  exact ⟨hsum, hsmall, hsign⟩

/-- A negative dividend with `2^(2n)` added to it: quotient and remainder come out right
    exactly if the divisor divides it and is a power of two. -/
theorem divides_iff_of_neg (hd : d ≠ 0) (hneg : D.toInt < 0) (hfits : DivOp.idiv.Fits D d) :
    DivOp.idiv.Divides D d
        (BitVec.ofInt w.bits ((D.toInt + 2 ^ (w.bits + w.bits)).tdiv d.toInt))
        (BitVec.ofInt w.bits ((D.toInt + 2 ^ (w.bits + w.bits)).tmod d.toInt)) ↔
      d.toInt ∣ D.toInt ∧ d.toInt ∣ 2 ^ (w.bits + w.bits) := by
  have hd0 := toInt_ne_zero hd
  have hlo := BitVec.le_toInt D
  have hpow : (2 : Int) ^ (w.bits + w.bits - 1) ≤ 2 ^ (w.bits + w.bits) := by
    exact_mod_cast Nat.pow_le_pow_right (Nat.zero_lt_two) (Nat.sub_le (w.bits + w.bits) 1)
  obtain ⟨-, hsmall, -⟩ := tdiv_tmod_spec (D.toInt + 2 ^ (w.bits + w.bits)) hd0
  have hr := toInt_ofInt_remainder hsmall
  have hnonneg : 0 ≤ (D.toInt + 2 ^ (w.bits + w.bits)).tmod d.toInt :=
    Int.tmod_nonneg _ (by omega)
  apply Iff.intro
  · rintro ⟨hsum, -, hsign⟩
    rw [hr] at hsum hsign
    -- the remainder is not negative and has the sign of a negative number, or is zero
    have hzero : (D.toInt + 2 ^ (w.bits + w.bits)).tmod d.toInt = 0 := by omega
    rw [hzero, Int.add_zero] at hsum
    have hD : d.toInt ∣ D.toInt := by
      rw [hsum]
      exact Int.dvd_mul_left _ _
    exact ⟨hD, (Int.dvd_add_right hD).mp (Int.dvd_of_tmod_eq_zero hzero)⟩
  · rintro ⟨hD, hP⟩
    have hzero : (D.toInt + 2 ^ (w.bits + w.bits)).tmod d.toInt = 0 :=
      Int.tmod_eq_zero_of_dvd (Int.dvd_add hD hP)
    -- the quotient is off by a multiple of `2^n`
    have hq : BitVec.ofInt w.bits ((D.toInt + 2 ^ (w.bits + w.bits)).tdiv d.toInt)
        = BitVec.ofInt w.bits (D.toInt.tdiv d.toInt) := by
      obtain ⟨c, hc⟩ := pow_dvd_quotient hP
      have hcast : ((2 ^ w.bits : Nat) : Int) = 2 ^ w.bits := by push_cast; rfl
      apply BitVec.eq_of_toInt_eq
      rw [add_tdiv_of_dvd hd0 hD hP, hc, BitVec.toInt_ofInt, BitVec.toInt_ofInt, ← hcast,
        Int.add_mul_bmod_self_left]
    have hright := divides_of_signed hd hfits
    rw [Int.tmod_eq_zero_of_dvd hD] at hright
    rw [hq, hzero]
    exact hright

end Signed

/-! ## Running an instruction -/

namespace DivOp

-- the `n`-bit numbers the code stores
def quotient {w : Width} (D : BitVec (w.bits + w.bits)) (d : BitVec w.bits) : DivOp → BitVec w.bits
  | div => BitVec.ofNat w.bits (D.toNat / d.toNat)
  | idiv => BitVec.ofInt w.bits ((readDividend w D).tdiv d.toInt)

def remainder {w : Width} (D : BitVec (w.bits + w.bits)) (d : BitVec w.bits) :
    DivOp → BitVec w.bits
  | div => BitVec.ofNat w.bits (D.toNat % d.toNat)
  | idiv => BitVec.ofInt w.bits ((readDividend w D).tmod d.toInt)

section Run

variable {w : Width} {D : BitVec (w.bits + w.bits)} {d : BitVec w.bits} {s s₁ : Emu} {l : OpLoc}

/-- They are quotient and remainder exactly under `Ok`. -/
theorem divides_iff (op : DivOp) (hd : d ≠ 0) (hfits : op.Fits D d) :
    op.Divides D d (op.quotient D d) (op.remainder D d) ↔ op.Ok w D d := by
  have hd0 := toNat_pos_of_ne_zero hd
  cases op with
  | div =>
      refine iff_of_true ⟨?_, ?_⟩ (.inl rfl)
      · rw [quotient, remainder, BitVec.toNat_ofNat, BitVec.toNat_ofNat, Nat.mod_eq_of_lt hfits,
          Nat.mod_eq_of_lt (Nat.lt_trans (Nat.mod_lt _ hd0) d.isLt), Nat.mul_comm,
          Nat.div_add_mod]
      · rw [remainder, BitVec.toNat_ofNat,
          Nat.mod_eq_of_lt (Nat.lt_trans (Nat.mod_lt _ hd0) d.isLt)]
        exact Nat.mod_lt _ hd0
  | idiv =>
      have hop : DivOp.idiv ≠ .div := DivOp.noConfusion
      rw [quotient, remainder, readDividend_eq]
      by_cases hread : w = .long ∨ 0 ≤ D.toInt
      · rw [if_pos hread]
        refine iff_of_true (divides_of_signed hd hfits) (.inr ?_)
        exact hread.imp id .inl
      · rw [if_neg hread, divides_iff_of_neg hd (by omega) hfits]
        obtain ⟨hlong, hnonneg⟩ := not_or.mp hread
        apply Iff.intro
        · exact fun h => .inr (.inr (.inr h))
        · rintro (h | h | h | h)
          · exact absurd h hop
          · exact absurd h hlong
          · exact absurd h hnonneg
          · exact h

-- the host's divide instruction does not overflow
theorem sdiv_fits (hw : w ≠ .byte) (hfits : DivOp.idiv.Fits D d) :
    D.setWidth 64 ≠ BitVec.intMin 64 ∨ d.signExtend 64 ≠ -1#64 := by
  by_contra hcon
  obtain ⟨hmin, hone⟩ := not_or.mp hcon
  have hD : (D.setWidth 64).toInt = -2 ^ 63 := by rw [not_not.mp hmin]; rfl
  have hd : d.toInt = -1 := by
    have hle := bits_le_double w
    rw [← BitVec.toInt_signExtend_of_le hle, not_not.mp hone]
    rfl
  rw [toInt_dividend hw] at hD
  cases w with
  | byte => exact hw rfl
  | word =>
      rw [readDividend, if_neg (by decide)] at hD
      omega
  | long =>
      rw [readDividend, if_pos rfl] at hD
      have hlt : D.toInt.tdiv d.toInt < 2 ^ 31 := hfits.2
      rw [hD, hd] at hlt
      exact absurd hlt (by decide)

theorem doDiv_run (hw : w ≠ .byte) (hl : Decoded w .src l s s₁) (hmach : machine s₁ = machine s)
    (hd : l.val w s ≠ 0) :
    ∃ s', doDiv w s₁ = .ok ((), s') ∧
      WritesPair w (div.remainder (s.cpu.pair w) (l.val w s))
        (div.quotient (s.cpu.pair w) (l.val w s)) s s' := by
  have hcpu : s₁.cpu = s.cpu := congrArg Machine.cpu hmach
  generalize hv : l.val w s = d at hd
  have hbits := bits_le_double w
  have hpair := two_bits_le w
  have hb : d.setWidth 64 ≠ 0 := by
    intro h
    apply hd
    have hnat := congrArg BitVec.toNat h
    rw [BitVec.toNat_setWidth_of_le hbits] at hnat
    exact BitVec.eq_of_toNat_eq hnat
  have hq : ((s.cpu.pair w).setWidth 64 / d.setWidth 64).setWidth w.bits
      = div.quotient (s.cpu.pair w) d := by
    apply BitVec.eq_of_toNat_eq
    rw [quotient, BitVec.toNat_setWidth, BitVec.toNat_udiv, BitVec.toNat_setWidth_of_le hpair,
      BitVec.toNat_setWidth_of_le hbits, BitVec.toNat_ofNat]
  have hr : ((s.cpu.pair w).setWidth 64 % d.setWidth 64).setWidth w.bits
      = div.remainder (s.cpu.pair w) d := by
    apply BitVec.eq_of_toNat_eq
    rw [remainder, BitVec.toNat_setWidth, BitVec.toNat_umod, BitVec.toNat_setWidth_of_le hpair,
      BitVec.toNat_setWidth_of_le hbits, BitVec.toNat_ofNat]
  have hrun : doDiv w s₁ = .ok ((), pairAt w s₁
      (((s.cpu.pair w).setWidth 64 % d.setWidth 64).setWidth w.bits)
      (((s.cpu.pair w).setWidth 64 / d.setWidth 64).setWidth w.bits)) := by
    rw [doDiv, run_bind_ok (getOp_run ..), hl.val, setWidth_setWidth_bits, hv,
      run_bind_ok (getCpu_run _), hcpu, CpuState.pair, ← dividend_eq]
    cases w with
    | byte => exact absurd rfl hw
    | word =>
        rw [if_neg hb]
        rfl
    | long =>
        rw [if_neg hb]
        rfl
  rw [hq, hr] at hrun
  exact ⟨_, hrun, (pairAt_writes ..).of_start hmach⟩

theorem doIdiv_run (hw : w ≠ .byte) (hl : Decoded w .src l s s₁) (hmach : machine s₁ = machine s)
    (hd : l.val w s ≠ 0) (hfits : idiv.Fits (s.cpu.pair w) (l.val w s)) :
    ∃ s', doIdiv w s₁ = .ok ((), s') ∧
      WritesPair w (idiv.remainder (s.cpu.pair w) (l.val w s))
        (idiv.quotient (s.cpu.pair w) (l.val w s)) s s' := by
  have hcpu : s₁.cpu = s.cpu := congrArg Machine.cpu hmach
  have hbits := bits_le_double w
  have hsafe := sdiv_fits hw hfits
  generalize hv : l.val w s = d at hd hsafe
  have hdint : (d.signExtend 64).toInt = d.toInt := BitVec.toInt_signExtend_of_le hbits
  have hzero : d.signExtend 64 ≠ 0 := by
    intro h
    apply hd
    rw [h] at hdint
    exact BitVec.toInt_inj.mp (hdint.symm.trans (BitVec.toInt_zero.trans BitVec.toInt_zero.symm))
  have hb : ¬ (d.signExtend 64 = 0 ∨
      ((s.cpu.pair w).setWidth 64 = BitVec.intMin 64 ∧ d.signExtend 64 = -1)) := by
    rintro (h | h)
    · exact hzero h
    · exact hsafe.elim (fun hne => hne h.1) (fun hne => hne h.2)
  have hq : (((s.cpu.pair w).setWidth 64).sdiv (d.signExtend 64)).setWidth w.bits
      = idiv.quotient (s.cpu.pair w) d := by
    rw [quotient, setWidth_eq_ofInt, BitVec.toInt_sdiv_of_ne_or_ne _ _ hsafe, toInt_dividend hw,
      hdint]
  have hr : (((s.cpu.pair w).setWidth 64).srem (d.signExtend 64)).setWidth w.bits
      = idiv.remainder (s.cpu.pair w) d := by
    rw [remainder, setWidth_eq_ofInt, BitVec.toInt_srem, toInt_dividend hw, hdint]
  have hrun : doIdiv w s₁ = .ok ((), pairAt w s₁
      ((((s.cpu.pair w).setWidth 64).srem (d.signExtend 64)).setWidth w.bits)
      ((((s.cpu.pair w).setWidth 64).sdiv (d.signExtend 64)).setWidth w.bits)) := by
    rw [doIdiv, run_bind_ok (getOp_run ..), hl.val, setWidth_setWidth_bits, hv,
      run_bind_ok (getCpu_run _), hcpu]
    rw [CpuState.pair, ← dividend_eq] at hb ⊢
    cases w with
    | byte => exact absurd rfl hw
    | word =>
        rw [if_neg hb]
        rfl
    | long =>
        rw [if_neg hb]
        rfl
  rw [hq, hr] at hrun
  exact ⟨_, hrun, (pairAt_writes ..).of_start hmach⟩

/-- A division whose quotient fits stores what `quotient` and `remainder` say. -/
theorem helper_run (op : DivOp) {eip : Addr} (hw : w ≠ .byte)
    (hin : InRange (eip + 1) (modrmLength s.mem (eip + 1)))
    (hacc : (rmLoc s.cpu.gpr s.mem (eip + 1)).Accessible w)
    (hd : (rmLoc s.cpu.gpr s.mem (eip + 1)).val w s ≠ 0)
    (hfits : op.Fits (s.cpu.pair w) ((rmLoc s.cpu.gpr s.mem (eip + 1)).val w s)) :
    ∃ n s', op.helper w eip s = .ok (n, s') ∧
      WritesPair w
        (op.remainder (s.cpu.pair w) ((rmLoc s.cpu.gpr s.mem (eip + 1)).val w s))
        (op.quotient (s.cpu.pair w) ((rmLoc s.cpu.gpr s.mem (eip + 1)).val w s)) s s' := by
  have hne : OpSel.src ≠ OpSel.src2 := OpSel.noConfusion
  obtain ⟨s₁, hdec, hmach, hl, -⟩ := decodeRmInternal_run hne hin hacc
  cases op with
  | div =>
      obtain ⟨s', hrun, hwrites⟩ := doDiv_run hw hl hmach hd
      exact ⟨_, s', idex_run hdec hrun, hwrites⟩
  | idiv =>
      obtain ⟨s', hrun, hwrites⟩ := doIdiv_run hw hl hmach hd hfits
      exact ⟨_, s', idex_run hdec hrun, hwrites⟩

end Run

end DivOp

/-! ## Dividing a product -/

/-- `s` is a state in which a division follows a multiplication made in `s₀` by the value
    its operand has now: the pair still holds the product. -/
structure AfterProduct (op : DivOp) (s₀ s : Emu) (eip₀ eip : Addr) : Prop where
  size : s.ops.is_operand_size_16 = s₀.ops.is_operand_size_16
  code : InRange (eip₀ + 1) (modrmLength s₀.mem (eip₀ + 1))
  operand : (rmLoc s₀.cpu.gpr s₀.mem (eip₀ + 1)).Accessible (opWidth s₀.ops.is_operand_size_16)
  run : ∃ n s₁, runInstr op.product.instr eip₀ s₀ = .ok (n, s₁) ∧
    s.cpu.pair (opWidth s₀.ops.is_operand_size_16) = s₁.cpu.pair (opWidth s₀.ops.is_operand_size_16)
  value : (rmLoc s.cpu.gpr s.mem (eip + 1)).val (opWidth s₀.ops.is_operand_size_16) s
    = (rmLoc s₀.cpu.gpr s₀.mem (eip₀ + 1)).val (opWidth s₀.ops.is_operand_size_16) s₀

section Product

variable {op : DivOp} {w : Width} {D : BitVec (w.bits + w.bits)} {a d : BitVec w.bits}

/-- `D` is the product of `a` and `d`, for the reading of the operation. -/
def DivOp.IsProduct {n : Nat} (D : BitVec (n + n)) (a d : BitVec n) : DivOp → Prop
  | div => D.toNat = a.toNat * d.toNat
  | idiv => D.toInt = a.toInt * d.toInt

theorem AfterProduct.isProduct {s₀ s : Emu} {eip₀ eip : Addr} (h : AfterProduct op s₀ s eip₀ eip) :
    op.IsProduct (s.cpu.pair (opWidth s₀.ops.is_operand_size_16))
      (s₀.cpu.reg (opWidth s₀.ops.is_operand_size_16) R_EAX)
      ((rmLoc s.cpu.gpr s.mem (eip + 1)).val (opWidth s₀.ops.is_operand_size_16) s) := by
  obtain ⟨n, s₁, hrun, hpair⟩ := h.run
  have hf : op.product ≠ .imul_si_rm2r := by cases op <;> decide
  have hlen : op.product.len (opWidth s₀.ops.is_operand_size_16) s₀ (eip₀ + 1)
      = modrmLength s₀.mem (eip₀ + 1) := by cases op <;> rfl
  obtain ⟨n', s₁', hrun', hprod⟩ := MulForm.helper_run hf (opWidth_ne_byte _)
    (by rw [hlen]; exact h.code) h.operand
  rw [MulForm.runInstr_instr, hrun'] at hrun
  cases hrun
  rw [hpair, h.value]
  cases op with
  | div =>
      obtain ⟨hi, lo, -, hnat⟩ := hprod
      exact hnat
  | idiv =>
      obtain ⟨hi, lo, -, hint⟩ := hprod
      exact hint

/-- The quotient of a product by one factor is the other, so it fits. -/
theorem DivOp.IsProduct.fits (hd : d ≠ 0) (h : op.IsProduct D a d) : op.Fits D d := by
  cases op with
  | div =>
      have hquot : D.toNat / d.toNat = a.toNat := by
        rw [h]
        exact Nat.mul_div_cancel _ (toNat_pos_of_ne_zero hd)
      show D.toNat / d.toNat < 2 ^ w.bits
      rw [hquot]
      exact a.isLt
  | idiv =>
      have hquot : D.toInt.tdiv d.toInt = a.toInt := by
        rw [h]
        exact Int.mul_tdiv_cancel _ (toInt_ne_zero hd)
      show _ ∧ _
      rw [hquot]
      exact ⟨BitVec.le_toInt a, BitVec.toInt_lt⟩

/-- Dividing a product by one factor is finding the other. -/
theorem DivOp.IsProduct.divides_iff {q r : BitVec w.bits} (hd : d ≠ 0)
    (h : op.IsProduct D a d) : op.Divides D d q r ↔ q = a ∧ r = 0 := by
  cases op with
  | div =>
      have hzero : (0 : BitVec w.bits).toNat = 0 := BitVec.toNat_zero
      have hpos := toNat_pos_of_ne_zero hd
      show D.toNat = _ ∧ _ ↔ _
      rw [h]
      apply Iff.intro
      · rintro ⟨hsum, hlt⟩
        have hcast : (a.toNat : Int) * d.toNat = q.toNat * d.toNat + r.toNat := by exact_mod_cast hsum
        obtain ⟨hq, hr⟩ := quotient_unique hcast (by omega)
        exact ⟨BitVec.eq_of_toNat_eq (by omega), BitVec.eq_of_toNat_eq (by omega)⟩
      · rintro ⟨rfl, rfl⟩
        rw [hzero]
        exact ⟨rfl, hpos⟩
  | idiv =>
      have hzero : (0 : BitVec w.bits).toInt = 0 := BitVec.toInt_zero
      have hne := toInt_ne_zero hd
      show D.toInt = _ ∧ _ ∧ _ ↔ _
      rw [h]
      apply Iff.intro
      · rintro ⟨hsum, hlt, -⟩
        obtain ⟨hq, hr⟩ := quotient_unique hsum hlt
        exact ⟨BitVec.toInt_inj.mp hq, BitVec.toInt_inj.mp (hr.trans hzero.symm)⟩
      · rintro ⟨rfl, rfl⟩
        rw [hzero]
        exact ⟨(Int.add_zero _).symm, by omega, .inl rfl⟩

end Product

/-- **Division.** With a divisor that is not zero and a quotient that fits, a division
    returns, and stores quotient and remainder exactly under `Ok`; behind a multiplication by
    the same value, the accumulator and remainder zero exactly then. -/
theorem quotient_right_iff (op : DivOp) (s : Emu) (eip : Addr)
    (hin : InRange (eip + 1) (modrmLength s.mem (eip + 1)))
    (hacc : (rmLoc s.cpu.gpr s.mem (eip + 1)).Accessible (opWidth s.ops.is_operand_size_16))
    (hd : (rmLoc s.cpu.gpr s.mem (eip + 1)).val (opWidth s.ops.is_operand_size_16) s ≠ 0) :
    let w := opWidth s.ops.is_operand_size_16
    let D := s.cpu.pair w
    let d := (rmLoc s.cpu.gpr s.mem (eip + 1)).val w s
    (op.Fits D d → ∃ n s' q r, runInstr op.instr eip s = .ok (n, s') ∧ WritesPair w r q s s' ∧
      (op.Divides D d q r ↔ op.Ok w D d)) ∧
    ∀ s₀ eip₀, AfterProduct op s₀ s eip₀ eip → ∃ n s', runInstr op.instr eip s = .ok (n, s') ∧
      (s'.cpu.reg w R_EAX = s₀.cpu.reg w R_EAX ∧ s'.cpu.reg w R_EDX = 0 ↔ op.Ok w D d) := by
  intro w D d
  have hdiv : op.Fits D d → ∃ n s', runInstr op.instr eip s = .ok (n, s') ∧
      WritesPair w (op.remainder D d) (op.quotient D d) s s' := by
    intro hfits
    rw [DivOp.runInstr_instr]
    exact op.helper_run (opWidth_ne_byte _) hin hacc hd hfits
  refine ⟨?_, ?_⟩
  · intro hfits
    obtain ⟨n, s', hrun, hwrites⟩ := hdiv hfits
    exact ⟨n, s', _, _, hrun, hwrites, op.divides_iff hd hfits⟩
  · intro s₀ eip₀ hafter
    have hprod := hafter.isProduct
    rw [← hafter.size] at hprod
    have hfits := hprod.fits hd
    obtain ⟨n, s', hrun, hwrites⟩ := hdiv hfits
    refine ⟨n, s', hrun, ?_⟩
    rw [hwrites.lo, hwrites.hi, ← op.divides_iff hd hfits, hprod.divides_iff hd]

-- `imul %ecx; idiv %ecx` over registers that hold `v`
def mulDivCode (op16 : Bool) (v : RegIdx → BitVec 32) : Emu :=
  let s := Emu.zeroed fun i => [0xf7, 0xe9, 0xf7, 0xf9].getD i 0
  { s with cpu := { s.cpu with gpr := v }, ops := { s.ops with is_operand_size_16 := op16 } }

-- -3 by 5, and the product by 5 again
theorem quotient_right_idivl :
    let s₀ := mulDivCode false fun i => if i = R_EAX then -3 else 5
    let s := mulDivCode false fun i => if i = R_EAX then -15 else if i = R_EDX then -1 else 5
    let D := s.cpu.pair .long
    let d := (rmLoc s.cpu.gpr s.mem 3).val .long s
    (∃ n s' q r, runInstr .idivRmV 2 s = .ok (n, s') ∧ WritesPair .long r q s s' ∧
      (DivOp.idiv.Divides D d q r ↔ DivOp.idiv.Ok .long D d)) ∧
    ∃ n s', runInstr .idivRmV 2 s = .ok (n, s') ∧
      (s'.cpu.reg .long R_EAX = s₀.cpu.reg .long R_EAX ∧ s'.cpu.reg .long R_EDX = 0 ↔
        DivOp.idiv.Ok .long D d) := by
  intro s₀ s D d
  have hright := quotient_right_iff .idiv s 2 (by decide) (by decide) (by decide)
  refine ⟨hright.1 ⟨by decide, by decide⟩, hright.2 s₀ 0 ?_⟩
  have hmul : ∃ n s₁, MulForm.imul_rm2a.helper .long 0 s₀ = .ok (n, s₁) ∧
      MulForm.imul_rm2a.Product .long (0 + 1) s₀ s₁ :=
    MulForm.helper_run (by decide) (by decide) (by decide) (by decide)
  obtain ⟨n, s₁, hrun, hi, lo, -, hprod⟩ := hmul
  have hpair : s.cpu.pair .long = s₁.cpu.pair .long := by
    apply BitVec.toInt_inj.mp
    rw [hprod]
    decide
  refine ⟨rfl, by decide, by decide, ⟨n, s₁, ?_, hpair⟩, by decide⟩
  exact (MulForm.runInstr_instr .imul_rm2a 0 s₀).trans hrun

/-- `idivw %cx` of -2 by 3 takes the dividend for 4294967294. -/
theorem idivw_wrong :
    ¬ ∀ (op : DivOp) (s : Emu) (eip : Addr),
      InRange (eip + 1) (modrmLength s.mem (eip + 1)) →
      (rmLoc s.cpu.gpr s.mem (eip + 1)).Accessible (opWidth s.ops.is_operand_size_16) →
      (rmLoc s.cpu.gpr s.mem (eip + 1)).val (opWidth s.ops.is_operand_size_16) s ≠ 0 →
      op.Fits (s.cpu.pair (opWidth s.ops.is_operand_size_16))
        ((rmLoc s.cpu.gpr s.mem (eip + 1)).val (opWidth s.ops.is_operand_size_16) s) →
      ∃ n s', runInstr op.instr eip s = .ok (n, s') ∧
        op.Divides (s.cpu.pair (opWidth s.ops.is_operand_size_16))
          ((rmLoc s.cpu.gpr s.mem (eip + 1)).val (opWidth s.ops.is_operand_size_16) s)
          (s'.cpu.reg (opWidth s.ops.is_operand_size_16) R_EAX)
          (s'.cpu.reg (opWidth s.ops.is_operand_size_16) R_EDX) := by
  intro h
  let s := mulDivCode true fun i => if i = R_EAX then 0xfffe else if i = R_EDX then 0xffff else 3
  obtain ⟨n, s', hrun, hdiv⟩ := h .idiv s 2 (by decide) (by decide) (by decide)
    ⟨by decide, by decide⟩
  have hw : Width.word ≠ .byte := by decide
  have hidiv : ∃ n s', DivOp.idiv.helper .word 2 s = .ok (n, s') ∧ WritesPair .word
      (DivOp.idiv.remainder (s.cpu.pair .word) ((rmLoc s.cpu.gpr s.mem (2 + 1)).val .word s))
      (DivOp.idiv.quotient (s.cpu.pair .word) ((rmLoc s.cpu.gpr s.mem (2 + 1)).val .word s)) s s' :=
    DivOp.idiv.helper_run hw (by decide) (by decide) (by decide) ⟨by decide, by decide⟩
  obtain ⟨n', s'', hrun', hwrites⟩ := hidiv
  rw [DivOp.runInstr_instr] at hrun
  have hsame : s' = s'' := congrArg Prod.snd (Except.ok.inj (hrun.symm.trans hrun'))
  rw [hsame] at hdiv
  have hlo : s''.cpu.reg (opWidth s.ops.is_operand_size_16) R_EAX = _ := hwrites.lo
  have hhi : s''.cpu.reg (opWidth s.ops.is_operand_size_16) R_EDX = _ := hwrites.hi
  rw [hlo, hhi] at hdiv
  have hsum := hdiv.1
  exact absurd hsum (by decide)

end Nemu
