/-
  Nemu.LibCommon.FloatMulDiv

  `F_mul_F` and `F_div_F` on the numbers they stand for.

  The product is rounded down, by an arithmetic shift of the 64-bit product; the quotient
  is truncated, by the divide instruction.  Both lose less than one unit, and what the
  division leaves is less than the divisor, which bounds a division followed by the
  multiplication that undoes it.
-/

import Mathlib.Algebra.Order.Ring.Abs
import Mathlib.Tactic.Linarith
import Mathlib.Tactic.Ring
import Nemu.LibCommon.Float

namespace Nemu

namespace FLOAT

/-! ## `int` -/

theorem toInt_inInt (a : FLOAT) : InInt a.toInt := by
  have hlo : -2 ^ 31 ≤ a.toInt := a.le_toInt
  have hhi : a.toInt < 2 ^ 31 := a.toInt_lt
  exact ⟨by omega, by omega⟩

theorem toInt_ofInt {v : Int} (hv : InInt v) : (BitVec.ofInt 32 v).toInt = v := by
  have hlo : -2 ^ 31 ≤ v := by
    have := hv.1
    omega
  have hhi : v < 2 ^ 31 := by
    have := hv.2
    omega
  exact BitVec.toInt_ofInt_eq_self (by decide) hlo hhi

/-- Checked arithmetic succeeds exactly with the number that fits. -/
theorem intOf_eq_ok {v : Int} {r : FLOAT} : intOf v = .ok r ↔ InInt v ∧ r.toInt = v := by
  rw [intOf]
  by_cases hv : InInt v
  · rw [if_pos hv]
    apply Iff.intro
    · intro h
      obtain rfl := Except.ok.inj h
      exact ⟨hv, toInt_ofInt hv⟩
    · rintro ⟨-, hr⟩
      rw [← hr, BitVec.ofInt_toInt]
  · rw [if_neg hv]
    exact ⟨fun h => (nomatch h), fun h => absurd h.1 hv⟩

/-- The divide instruction gives the truncated quotient where it does not fault. -/
theorem idiv_eq_ok {edx eax b r : BitVec 32} : idiv edx eax b = .ok r ↔
    b ≠ 0 ∧ InInt ((edx ++ eax).toInt.tdiv b.toInt) ∧ r.toInt = (edx ++ eax).toInt.tdiv b.toInt := by
  rw [idiv]
  by_cases hb : b = 0
  · rw [if_pos hb]
    exact ⟨fun h => (nomatch h), fun h => absurd hb h.1⟩
  · rw [if_neg hb]
    dsimp only
    by_cases hq : InInt ((edx ++ eax).toInt.tdiv b.toInt)
    · rw [if_pos hq]
      apply Iff.intro
      · intro h
        obtain rfl := Except.ok.inj h
        exact ⟨hb, hq, toInt_ofInt hq⟩
      · rintro ⟨-, -, hr⟩
        rw [← hr, BitVec.ofInt_toInt]
    · rw [if_neg hq]
      exact ⟨fun h => (nomatch h), fun h => absurd h.2.1 hq⟩

/-! ## The product -/

section Product

variable (a b : FLOAT)

-- the product of two `int`s fits a `long long`
theorem toInt_longProduct :
    (a.signExtend 64 * b.signExtend 64 : BitVec 64).toInt = a.toInt * b.toInt := by
  have hhi : a.toInt * b.toInt ≤ 2 ^ (32 * 2 - 2) := BitVec.toInt_mul_toInt_le
  have hlo : -(2 ^ (32 * 2 - 2)) ≤ a.toInt * b.toInt := BitVec.le_toInt_mul_toInt
  rw [BitVec.toInt_mul, BitVec.toInt_signExtend_of_le (by decide),
    BitVec.toInt_signExtend_of_le (by decide)]
  exact Int.bmod_eq_of_le_mul_two (by omega) (by omega)

/-- The product shifted, rounded down and cut to 32 bits. -/
theorem toInt_fMulF : (fMulF a b).toInt = (a.toInt * b.toInt / 65536).bmod (2 ^ 32) := by
  rw [fMulF, ← BitVec.signExtend_eq_setWidth_of_le _ (by decide),
    BitVec.toInt_signExtend_eq_toInt_bmod_of_le _ (by decide), BitVec.toInt_sshiftRight,
    toInt_longProduct, Int.shiftRight_eq_div_pow]
  rfl

/-- `F_mul_F` rounds the product down, if that fits. -/
theorem toInt_fMulF_of_fits (h : InInt (a.toInt * b.toInt / 65536)) :
    (fMulF a b).toInt = a.toInt * b.toInt / 65536 := by
  rw [toInt_fMulF]
  obtain ⟨hlo, hhi⟩ := h
  exact Int.bmod_eq_of_le_mul_two (by omega) (by omega)

end Product

/-! ## The quotient -/

/-- The pair of registers that `F_div_F` loads. -/
theorem toInt_dividend (a : FLOAT) : (a.sshiftRight 16 ++ a <<< 16).toInt = a.toInt * 65536 := by
  have hlow : ((a <<< 16).toNat : Int) = a.toInt * 65536 % 4294967296 := by
    rw [BitVec.toNat_shiftLeft, Nat.shiftLeft_eq, BitVec.toInt_eq_toNat_cond]
    split <;> omega
  have hhigh : (a.sshiftRight 16).toInt = a.toInt / 65536 := by
    rw [BitVec.toInt_sshiftRight, Int.shiftRight_eq_div_pow]
    rfl
  rw [BitVec.toInt_append, if_neg (by decide), hlow, hhigh]
  omega

/-- `F_div_F` truncates the quotient, and faults where there is none or it does not fit. -/
theorem fDivF_eq_ok {a b r : FLOAT} : fDivF a b = .ok r ↔
    b ≠ 0 ∧ InInt ((a.toInt * 65536).tdiv b.toInt) ∧ r.toInt = (a.toInt * 65536).tdiv b.toInt := by
  rw [fDivF, idiv_eq_ok, toInt_dividend]

theorem toInt_ne_zero {b : FLOAT} (hb : b ≠ 0) : b.toInt ≠ 0 :=
  fun h => hb (BitVec.eq_of_toInt_eq h)

/-- A quotient and its product with the divisor. -/
theorem tdiv_mul_near (n : Int) {d : Int} (hd : d ≠ 0) :
    |65536 * (n.tdiv d * d / 65536) - n| < |d| + 65536 := by
  have hrem : n.tdiv d * d = n - n.tmod d := by
    have := Int.mul_tdiv_add_tmod n d
    linarith [mul_comm d (n.tdiv d)]
  have htmod : |n.tmod d| < |d| := by
    have hnat : (n.tmod d).natAbs < d.natAbs := by
      rw [Int.natAbs_tmod]
      exact Nat.mod_lt _ (Int.natAbs_pos.mpr hd)
    rw [Int.abs_eq_natAbs, Int.abs_eq_natAbs]
    exact Int.ofNat_lt.mpr hnat
  have hfloor := Int.mul_ediv_add_emod (n.tdiv d * d) 65536
  have hmod₀ : 0 ≤ n.tdiv d * d % 65536 := Int.emod_nonneg _ (by decide)
  have hmod₁ : n.tdiv d * d % 65536 < 65536 := Int.emod_lt_of_pos _ (by decide)
  obtain ⟨hlo, hhi⟩ := abs_lt.mp htmod
  rw [abs_lt]
  exact ⟨by linarith, by linarith⟩

/-- **Product and quotient.** For all numbers: the product is rounded down where it fits; the
    registers hold the dividend; the quotient is truncated where there is one that fits; and
    multiplying the quotient with the divisor again is off by at most the divisor's number
    and one unit. -/
theorem fMulF_fDivF_right (a b : FLOAT) :
    (InInt (a.toInt * b.toInt / 65536) → (fMulF a b).toInt = a.toInt * b.toInt / 65536) ∧
    (a.sshiftRight 16 ++ a <<< 16).toInt = a.toInt * 65536 ∧
    (b ≠ 0 → InInt ((a.toInt * 65536).tdiv b.toInt) →
      ∃ q, fDivF a b = .ok q ∧ q.toInt = (a.toInt * 65536).tdiv b.toInt ∧
        (InInt (q.toInt * b.toInt / 65536) →
          |(fMulF q b).toInt - a.toInt| * 65536 ≤ |b.toInt| + 65536)) := by
  refine ⟨toInt_fMulF_of_fits a b, toInt_dividend a, fun hb hfits => ?_⟩
  have hq := toInt_ofInt hfits
  refine ⟨_, fDivF_eq_ok.mpr ⟨hb, hfits, hq⟩, hq, fun hprod => ?_⟩
  have hnear := tdiv_mul_near (a.toInt * 65536) (toInt_ne_zero hb)
  rw [toInt_fMulF_of_fits _ b hprod, hq]
  generalize (a.toInt * 65536).tdiv b.toInt * b.toInt / 65536 = m at hnear ⊢
  have hscale : |m - a.toInt| * 65536 = |65536 * m - a.toInt * 65536| := by
    rw [← abs_of_pos (show (0 : Int) < 65536 by decide), ← abs_mul]
    congr 1
    rw [abs_of_pos (show (0 : Int) < 65536 by decide)]
    ring
  rw [hscale]
  exact hnear.le

-- -1 by 3
theorem fMulF_fDivF_right_third :
    ∃ q, fDivF (-65536) 196608 = .ok q ∧ q.toInt = -21845 ∧
      |(fMulF q 196608).toInt - -65536| * 65536 ≤ 196608 + 65536 := by
  obtain ⟨-, -, hdiv⟩ := fMulF_fDivF_right (-65536) 196608
  obtain ⟨q, hq, hval, hback⟩ := hdiv (by decide) (by decide)
  have hval' : q.toInt = -21845 := hval.trans (by decide)
  refine ⟨q, hq, hval', hback ?_⟩
  rw [hval']
  decide

end FLOAT

end Nemu
