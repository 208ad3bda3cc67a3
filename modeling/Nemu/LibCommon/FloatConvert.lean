/-
  Nemu.LibCommon.FloatConvert

  `f2F`: from the bits of a `float` to a fixed-point number.

  The significand is shifted by a distance that the exponent field gives, and the distance
  is not checked: from an exponent field of 102 down, zero included, the right shift is by
  32 and more.  Above that the result is the truncated value.
-/

import Mathlib.Algebra.Order.Archimedean.Basic
import Mathlib.Algebra.Order.Field.Power
import Mathlib.Algebra.Order.Floor.Ring
import Mathlib.Data.Rat.Floor
import Mathlib.Tactic.NormNum
import Mathlib.Tactic.Positivity
import Nemu.Lib.Outcome
import Nemu.LibCommon.FloatMulDiv

namespace Nemu

open Outcome

namespace FLOAT

/-! ## `binary32` -/

def expField (b : BitVec 32) : Nat := b.toNat / 2 ^ 23 % 2 ^ 8

def fracField (b : BitVec 32) : Nat := b.toNat % 2 ^ 23

/-- The magnitude of a pattern, subnormal numbers and zero included; the exponent field 255 of
    infinities and NaNs reads as a magnitude from 2 ^ 128 on. -/
def magnitude (b : BitVec 32) : ℚ :=
  if expField b = 0 then fracField b * 2 ^ (-149 : ℤ)
  else (2 ^ 23 + fracField b) * 2 ^ ((expField b : ℤ) - 150)

def value (b : BitVec 32) : ℚ := if b.msb then -magnitude b else magnitude b

/-- Rounding toward zero. -/
def truncate (v : ℚ) : ℤ := if 0 ≤ v then ⌊v⌋ else ⌈v⌉

-- the significand with the hidden bit
def significand (b : BitVec 32) : Nat := if expField b = 0 then fracField b else 2 ^ 23 + fracField b

/-! ## The fields -/

section Fields

variable (b : BitVec 32)

theorem fracField_lt : fracField b < 2 ^ 23 := Nat.mod_lt _ (by decide)

theorem significand_lt : significand b < 2 ^ 24 := by
  have hfrac := fracField_lt b
  rw [significand]
  split <;> omega

theorem toNat_exp : ((b.sshiftRight 23) &&& 0xff#32).toNat = expField b := by
  have hshift : (b.sshiftRight 23) &&& 0xff#32 = (b >>> 23) &&& 0xff#32 := by
    refine BitVec.eq_of_getLsbD_eq (fun i hi => ?_)
    rw [BitVec.getLsbD_and, BitVec.getLsbD_and, BitVec.getLsbD_sshiftRight,
      BitVec.getLsbD_ushiftRight]
    by_cases hin : 23 + i < 32
    · rw [if_pos hin, decide_eq_false (by omega), Bool.not_false, Bool.true_and]
    · have hmask : (0xff#32).getLsbD i = false :=
        Nat.testBit_lt_two_pow (Nat.lt_of_lt_of_le (by decide : 255 < 2 ^ 8)
          (Nat.pow_le_pow_right Nat.two_pos (by omega)))
      rw [hmask, Bool.and_false, Bool.and_false]
  rw [hshift, BitVec.toNat_and, BitVec.toNat_ushiftRight, Nat.shiftRight_eq_div_pow]
  exact Nat.and_two_pow_sub_one_eq_mod _ 8

theorem toNat_frac : (b &&& 0x7fffff#32).toNat = fracField b := by
  rw [BitVec.toNat_and]
  exact Nat.and_two_pow_sub_one_eq_mod _ 23

theorem sign_eq_zero : b.sshiftRight 31 = 0 ↔ b.msb = false := by
  have hsign : (b.sshiftRight 31).toInt = b.toInt / 2147483648 := by
    rw [BitVec.toInt_sshiftRight, Int.shiftRight_eq_div_pow]
    rfl
  obtain ⟨hlo, hhi⟩ := toInt_inInt b
  have hzero : b.sshiftRight 31 = 0 ↔ b.toInt / 2147483648 = 0 := by
    rw [← hsign]
    exact ⟨fun h => by rw [h]; rfl, fun h => BitVec.eq_of_toInt_eq h⟩
  rw [hzero, BitVec.msb_eq_toInt, decide_eq_false_iff_not]
  omega

/-- The integer whose bits `f2F` shifts. -/
def significandInt : BitVec 32 :=
  if (expField b : Int) ≠ 0 then (b &&& 0x7fffff#32) + (1#32 <<< 23) else b &&& 0x7fffff#32

theorem toNat_significandInt : (significandInt b).toNat = significand b := by
  have hfrac := fracField_lt b
  rw [significandInt, significand]
  by_cases hexp : expField b = 0
  · rw [if_neg (by omega), if_pos hexp, toNat_frac]
  · rw [if_pos (by omega), if_neg hexp, BitVec.toNat_add, toNat_frac]
    show (fracField b + 8388608) % 2 ^ 32 = _
    omega

theorem toInt_significandInt : (significandInt b).toInt = significand b := by
  have hlt := significand_lt b
  have hnat := toNat_significandInt b
  rw [BitVec.toInt_eq_toNat_of_lt (by omega), hnat]

end Fields

/-! ## The code -/

/-- The shifted significand. -/
def scale (b : BitVec 32) : Except FloatFault FLOAT :=
  alignPoint (significandInt b) ((expField b : Int) - 150)

/-- The significand at the fixed-point scale, rounded down. -/
def scaled (b : BitVec 32) : Nat :=
  if expField b ≤ 134 then significand b / 2 ^ (134 - expField b)
  else significand b * 2 ^ (expField b - 134)

section Align

variable {x : BitVec 32} {exp : Int}

theorem alignPoint_right (h : exp < -16) (hcount : -48 < exp) :
    alignPoint x exp = .ok (x.sshiftRight (-16 - exp).toNat) := by
  rw [alignPoint, if_pos h, sarInt, if_pos (by omega), ok_bind]
  dsimp only
  rw [if_neg (by omega)]
  rfl

theorem alignPoint_left (h : -16 < exp) (hcount : exp < 16) :
    alignPoint x exp = .ok (x <<< (16 + exp).toNat) := by
  have hshift : alignPoint x exp = shlInt x (16 + exp) := by
    rw [alignPoint, if_neg (by omega)]
    exact if_pos h
  rw [hshift, shlInt, if_pos (by omega)]

theorem alignPoint_same : alignPoint x (-16) = .ok x := rfl

end Align

section Code

variable (b : BitVec 32)

theorem f2F_eq : f2F b = scale b >>= fun x => if b.msb then negInt x else pure x := by
  have hcode : f2F b = scale b >>= fun x => if b.sshiftRight 31 = 0 then pure x else negInt x := by
    rw [f2F, toNat_exp, scale]
    rfl
  rw [hcode]
  congr 1
  funext x
  by_cases hsign : b.msb = true
  · rw [if_pos hsign, if_neg (fun h => Bool.false_ne_true ((sign_eq_zero b).mp h ▸ hsign))]
  · rw [if_neg hsign, if_pos ((sign_eq_zero b).mpr (Bool.eq_false_iff.mpr hsign))]

/-- From an exponent field of 102 down the right shift is too far. -/
theorem scale_small (h : expField b < 103) : scale b = .error .shiftCount := by
  rw [scale, alignPoint, if_pos (by omega), sarInt, if_neg (by omega)]
  rfl

theorem scaled_lt (h : expField b ≤ 141) : scaled b < 2 ^ 31 := by
  have hlt := significand_lt b
  rw [scaled]
  split
  · exact Nat.lt_of_le_of_lt (Nat.div_le_self _ _) (by omega)
  · have hpow : 2 ^ (expField b - 134) ≤ 2 ^ 7 := Nat.pow_le_pow_right Nat.two_pos (by omega)
    calc significand b * 2 ^ (expField b - 134)
        ≤ significand b * 2 ^ 7 := Nat.mul_le_mul_left _ hpow
      _ < 2 ^ 31 := by omega

/-- Otherwise both shifts are defined and scale the significand. -/
theorem scale_run (hlo : 103 ≤ expField b) (hhi : expField b ≤ 141) :
    ∃ x, scale b = .ok x ∧ x.toInt = scaled b := by
  have hsig := toInt_significandInt b
  have hlt := scaled_lt b hhi
  rw [scale]
  by_cases hright : expField b < 134
  · -- to the right
    have hcount : (-16 - ((expField b : Int) - 150)).toNat = 134 - expField b := by omega
    rw [alignPoint_right (by omega) (by omega), hcount]
    refine ⟨_, rfl, ?_⟩
    rw [BitVec.toInt_sshiftRight, hsig, Int.shiftRight_eq_div_pow, scaled, if_pos (by omega)]
    exact (Int.natCast_ediv _ _).symm
  · by_cases hleft : 134 < expField b
    · -- to the left
      have hcount : (16 + ((expField b : Int) - 150)).toNat = expField b - 134 := by omega
      rw [alignPoint_left (by omega) (by omega), hcount]
      refine ⟨_, rfl, ?_⟩
      rw [scaled, if_neg (by omega)] at hlt ⊢
      have hshift : (significandInt b <<< (expField b - 134)).toNat
          = significand b * 2 ^ (expField b - 134) := by
        rw [BitVec.toNat_shiftLeft, toNat_significandInt, Nat.shiftLeft_eq,
          Nat.mod_eq_of_lt (by omega)]
      rw [BitVec.toInt_eq_toNat_of_lt (by omega), hshift]
    · -- not at all
      have hexp : (expField b : Int) - 150 = -16 := by omega
      rw [hexp, alignPoint_same]
      refine ⟨_, rfl, ?_⟩
      rw [hsig, scaled, if_pos (by omega), (by omega : 134 - expField b = 0), Nat.pow_zero,
        Nat.div_one]

theorem f2F_run (hlo : 103 ≤ expField b) (hhi : expField b ≤ 141) :
    ∃ r, f2F b = .ok r ∧ r.toInt = if b.msb then -(scaled b : Int) else scaled b := by
  obtain ⟨x, hscale, hx⟩ := scale_run b hlo hhi
  have hlt := scaled_lt b hhi
  rw [f2F_eq, hscale, ok_bind]
  by_cases hsign : b.msb = true
  · rw [if_pos hsign, if_pos hsign]
    have hneg : InInt (-x.toInt) := ⟨by omega, by omega⟩
    exact ⟨_, intOf_eq_ok.mpr ⟨hneg, toInt_ofInt hneg⟩, by rw [toInt_ofInt hneg, hx]⟩
  · rw [if_neg hsign, if_neg hsign]
    exact ⟨x, rfl, hx⟩

end Code

/-! ## The number -/

section Number

variable (b : BitVec 32)

theorem magnitude_nonneg : 0 ≤ magnitude b := by
  rw [magnitude]
  split <;> positivity

theorem abs_value : |value b| = magnitude b := by
  rw [value]
  split
  · rw [abs_neg, abs_of_nonneg (magnitude_nonneg b)]
  · exact abs_of_nonneg (magnitude_nonneg b)

/-- A normal number lies between two powers of two. -/
theorem magnitude_normal (h : expField b ≠ 0) :
    (2 : ℚ) ^ ((expField b : ℤ) - 127) ≤ magnitude b ∧
      magnitude b < (2 : ℚ) ^ ((expField b : ℤ) - 126) := by
  have hfrac : (fracField b : ℚ) < 2 ^ 23 := by
    exact_mod_cast fracField_lt b
  have hnonneg : (0 : ℚ) ≤ fracField b := Nat.cast_nonneg _
  have hpos : (0 : ℚ) < 2 ^ ((expField b : ℤ) - 150) := by positivity
  have hlo : (2 : ℚ) ^ ((expField b : ℤ) - 127) = 2 ^ 23 * 2 ^ ((expField b : ℤ) - 150) := by
    rw [← zpow_natCast, ← zpow_add₀ two_ne_zero]
    congr 1
    omega
  have hhi : (2 : ℚ) ^ ((expField b : ℤ) - 126) = 2 ^ 24 * 2 ^ ((expField b : ℤ) - 150) := by
    rw [← zpow_natCast, ← zpow_add₀ two_ne_zero]
    congr 1
    omega
  rw [magnitude, if_neg h, hlo, hhi]
  exact ⟨mul_le_mul_of_nonneg_right (by linarith) hpos.le,
    mul_lt_mul_of_pos_right (by linarith) hpos⟩

theorem magnitude_subnormal (h : expField b = 0) : magnitude b < (2 : ℚ) ^ (-126 : ℤ) := by
  have hfrac : (fracField b : ℚ) < 2 ^ 23 := by
    exact_mod_cast fracField_lt b
  have hpos : (0 : ℚ) < 2 ^ (-149 : ℤ) := by positivity
  have hhi : (2 : ℚ) ^ (-126 : ℤ) = 2 ^ 23 * 2 ^ (-149 : ℤ) := by norm_num
  rw [magnitude, if_pos h, hhi]
  exact mul_lt_mul_of_pos_right hfrac hpos

theorem expField_le_of_small (h : magnitude b < 32768) : expField b ≤ 141 := by
  by_contra hlt
  obtain ⟨hlo, -⟩ := magnitude_normal b (by omega)
  have hpow : (2 : ℚ) ^ (15 : ℤ) ≤ 2 ^ ((expField b : ℤ) - 127) :=
    zpow_le_zpow_right₀ (by norm_num) (by omega)
  have h15 : (2 : ℚ) ^ (15 : ℤ) = 32768 := by norm_num
  linarith

/-- The shifts are defined from 2 ^ -24 on. -/
theorem le_expField_iff : 103 ≤ expField b ↔ 1 / 2 ^ 24 ≤ magnitude b := by
  have h24 : (2 : ℚ) ^ (-24 : ℤ) = 1 / 2 ^ 24 := by norm_num
  rw [← h24]
  apply Iff.intro
  · intro h
    obtain ⟨hlo, -⟩ := magnitude_normal b (by omega)
    exact le_trans (zpow_le_zpow_right₀ (by norm_num) (by omega)) hlo
  · intro h
    by_contra hlt
    refine absurd h (not_le.mpr ?_)
    by_cases hzero : expField b = 0
    · exact lt_of_lt_of_le (magnitude_subnormal b hzero)
        (zpow_le_zpow_right₀ (by norm_num) (by decide))
    · exact lt_of_lt_of_le (magnitude_normal b hzero).2
        (zpow_le_zpow_right₀ (by norm_num) (by omega))

/-- What the shifts compute is the magnitude at the fixed-point scale, rounded down. -/
theorem floor_magnitude (h : expField b ≠ 0) : ⌊magnitude b * 65536⌋ = (scaled b : ℤ) := by
  have hsig : (2 ^ 23 + fracField b : ℚ) = significand b := by
    rw [significand, if_neg h]
    push_cast
    ring
  have hmul : magnitude b * 65536 = significand b * 2 ^ ((expField b : ℤ) - 134) := by
    have hexp : (expField b : ℤ) - 134 = (expField b - 150) + 16 := by ring
    rw [magnitude, if_neg h, hsig, hexp, zpow_add₀ two_ne_zero]
    norm_num
    ring
  rw [hmul, scaled]
  by_cases hle : expField b ≤ 134
  · rw [if_pos hle]
    have hexp : (expField b : ℤ) - 134 = -((134 - expField b : ℕ) : ℤ) := by omega
    rw [hexp, zpow_neg, zpow_natCast, ← div_eq_mul_inv]
    have hcast : ((2 : ℚ) ^ (134 - expField b)) = ((2 ^ (134 - expField b) : ℕ) : ℚ) := by
      push_cast
      rfl
    rw [hcast, Rat.floor_natCast_div_natCast]
    push_cast
    rfl
  · rw [if_neg hle]
    have hexp : (expField b : ℤ) - 134 = ((expField b - 134 : ℕ) : ℤ) := by omega
    rw [hexp, zpow_natCast]
    have hcast : (significand b : ℚ) * 2 ^ (expField b - 134)
        = ((significand b * 2 ^ (expField b - 134) : ℕ) : ℚ) := by
      push_cast
      rfl
    rw [hcast, Int.floor_natCast]

theorem truncate_of_nonneg {v : ℚ} (h : 0 ≤ v) : truncate v = ⌊v⌋ := by
  rw [truncate, if_pos h]

theorem truncate_neg {v : ℚ} (h : 0 ≤ v) : truncate (-v) = -⌊v⌋ := by
  rw [truncate]
  by_cases hzero : v = 0
  · subst hzero
    rw [neg_zero, if_pos le_rfl, Int.floor_zero, neg_zero]
  · rw [if_neg (by
      have := lt_of_le_of_ne h (Ne.symm hzero)
      linarith), Int.ceil_neg]

theorem truncate_value (h : expField b ≠ 0) :
    truncate (value b * 65536) = if b.msb then -(scaled b : Int) else scaled b := by
  have hnonneg : 0 ≤ magnitude b * 65536 := by
    have := magnitude_nonneg b
    positivity
  rw [value]
  split
  · rw [neg_mul, truncate_neg hnonneg, floor_magnitude b h]
  · rw [truncate_of_nonneg hnonneg, floor_magnitude b h]

end Number

/-- `f2F` returns the truncated value, with every shift count in range. -/
def Converts (b : BitVec 32) : Prop :=
  ∃ r, f2F b = .ok r ∧ r.toInt = truncate (value b * 65536)

/-- **Conversion.** For every number below 2 ^ 15, `f2F` is right exactly from 2 ^ -24 on. -/
theorem f2F_right_iff (b : BitVec 32) (hsmall : |value b| < 32768) :
    Converts b ↔ 1 / 2 ^ 24 ≤ |value b| := by
  rw [abs_value] at hsmall ⊢
  rw [← le_expField_iff]
  apply Iff.intro
  · rintro ⟨r, hrun, -⟩
    by_contra hlt
    rw [f2F_eq, scale_small b (by omega)] at hrun
    exact nomatch hrun
  · intro hlo
    obtain ⟨r, hrun, hr⟩ := f2F_run b hlo (expField_le_of_small b hsmall)
    exact ⟨r, hrun, by rw [hr, truncate_value b (by omega)]⟩

-- 1.5
theorem f2F_right_one_half : Converts 0x3fc00000 := by
  have hval : |value 0x3fc00000| = 3 / 2 := by
    rw [abs_value, magnitude, if_neg (by decide)]
    have hfrac : fracField 0x3fc00000 = 4194304 := by decide
    have hexp : expField 0x3fc00000 = 127 := by decide
    rw [hfrac, hexp]
    norm_num
  refine (f2F_right_iff 0x3fc00000 ?_).mpr ?_
  · rw [hval]
    norm_num
  · rw [hval]
    norm_num

/-- 2 ^ -25 is shifted by 32. -/
theorem f2F_not_right : ¬ ∀ b, |value b| < 32768 → Converts b := by
  intro h
  have hval : |value 0x33000000| < 32768 := by
    rw [abs_value, magnitude, if_neg (by decide)]
    have hfrac : fracField 0x33000000 = 0 := by decide
    have hexp : expField 0x33000000 = 102 := by decide
    rw [hfrac, hexp]
    norm_num
  obtain ⟨r, hrun, -⟩ := h 0x33000000 hval
  rw [f2F_eq, scale_small _ (by decide)] at hrun
  exact nomatch hrun

end FLOAT

end Nemu
