/-
  Nemu.LibCommon.FloatNewton

  One turn of the loops in `sqrt` and `pow`: none of its steps overflows, since the new `t`
  lies between the old one and the quotient, and it goes on while `t` moves by more than six
  units.
-/

import Nemu.Lib.Outcome
import Nemu.LibCommon.FloatMulDiv

namespace Nemu

open Outcome

namespace FLOAT

-- `f2F(1e-4)`
theorem f2F_epsilon : f2F epsilon = .ok 6 := by decide

theorem tdiv_of_neg {d : Int} (hd : d < 0) (k : Int) : d.tdiv k = -((-d) / k) := by
  rw [← Int.tdiv_eq_ediv_of_nonneg (by omega), Int.neg_tdiv, Int.neg_neg]

/-- A truncated quotient lies between zero and the dividend. -/
theorem tdiv_between (d : Int) {k : Int} (hk : 0 < k) :
    (0 ≤ d → 0 ≤ d.tdiv k ∧ d.tdiv k ≤ d) ∧ (d < 0 → d ≤ d.tdiv k ∧ d.tdiv k ≤ 0) := by
  apply And.intro
  · intro hd
    rw [Int.tdiv_eq_ediv_of_nonneg hd]
    exact ⟨Int.ediv_nonneg hd hk.le, Int.ediv_le_self k hd⟩
  · intro hd
    have h₁ := Int.ediv_nonneg (a := -d) (by omega) hk.le
    have h₂ := Int.ediv_le_self k (a := -d) (by omega)
    rw [tdiv_of_neg hd]
    omega

theorem fabs_run {a : FLOAT} (h : -2147483648 < a.toInt) :
    ∃ r, fabs a = .ok r ∧ r.toInt = |a.toInt| := by
  have ha := toInt_inInt a
  rw [fabs]
  by_cases hpos : 0 < a.toInt
  · rw [if_pos hpos, abs_of_pos hpos]
    exact ⟨a, rfl, rfl⟩
  · rw [if_neg hpos, abs_of_nonpos (by omega)]
    have hneg : InInt (-a.toInt) := ⟨by have := ha.1; omega, by omega⟩
    exact ⟨_, intOf_eq_ok.mpr ⟨hneg, toInt_ofInt hneg⟩, toInt_ofInt hneg⟩

section Turn

variable {q k t : FLOAT}

-- checked arithmetic with a result that fits
theorem intOf_run {v : Int} (hv : InInt v) : ∃ r, intOf v = .ok r ∧ r.toInt = v :=
  ⟨_, intOf_eq_ok.mpr ⟨hv, toInt_ofInt hv⟩, toInt_ofInt hv⟩

theorem newtonTurn_run (hq : 0 ≤ q.toInt) (ht : 0 ≤ t.toInt) (hk : 0 < k.toInt) :
    ∃ t', newtonTurn q k t
        = .ok (decide (6 < |(q.toInt - t.toInt).tdiv k.toInt|), t') ∧
      t'.toInt = t.toInt + (q.toInt - t.toInt).tdiv k.toInt := by
  obtain ⟨-, hqmax⟩ := toInt_inInt q
  obtain ⟨-, htmax⟩ := toInt_inInt t
  obtain ⟨hup, hdown⟩ := tdiv_between (q.toInt - t.toInt) hk
  obtain ⟨diff, hdiff, hdiffval⟩ := intOf_run (v := q.toInt - t.toInt) ⟨by omega, by omega⟩
  have hk0 : k ≠ 0 := by
    rintro rfl
    exact absurd hk (by decide)
  rw [← hdiffval] at hup hdown ⊢
  obtain ⟨dt, hdt, hdtval⟩ := intOf_run (v := diff.toInt.tdiv k.toInt) ⟨by omega, by omega⟩
  have hdiv : fDivInt diff k = .ok dt := by
    rw [fDivInt, divInt, if_neg hk0, hdt]
  rw [← hdtval] at hup hdown ⊢
  obtain ⟨t', ht', htval⟩ := intOf_run (v := t.toInt + dt.toInt) ⟨by omega, by omega⟩
  obtain ⟨abs, habs, habsval⟩ := fabs_run (a := dt) (by omega)
  refine ⟨t', ?_, htval⟩
  have hsub : subInt q t = .ok diff := hdiff
  have hadd : addInt t dt = .ok t' := ht'
  rw [newtonTurn, hsub, ok_bind, hdiv, ok_bind, hadd, ok_bind, habs, ok_bind, f2F_epsilon, ok_bind,
    habsval]
  rfl

end Turn

/-- A quotient of non-negative numbers. -/
theorem fDivF_run {x b : FLOAT} (hx : 0 ≤ x.toInt) (hb : 0 < b.toInt)
    (hfits : x.toInt * 65536 / b.toInt ≤ 2147483647) :
    ∃ q, fDivF x b = .ok q ∧ q.toInt = x.toInt * 65536 / b.toInt := by
  have hnonneg : 0 ≤ x.toInt * 65536 := by omega
  have htdiv : (x.toInt * 65536).tdiv b.toInt = x.toInt * 65536 / b.toInt :=
    Int.tdiv_eq_ediv_of_nonneg hnonneg
  have hlo := Int.ediv_nonneg hnonneg hb.le
  have hq : InInt (x.toInt * 65536 / b.toInt) := ⟨by omega, hfits⟩
  have hb0 : b ≠ 0 := by
    rintro rfl
    exact absurd hb (by decide)
  refine ⟨_, fDivF_eq_ok.mpr ⟨hb0, htdiv ▸ hq, ?_⟩, toInt_ofInt hq⟩
  rw [toInt_ofInt hq, htdiv]

-- rounding a truncated half, and a truncated third
theorem tdiv_two_bounds (d : Int) : d ≤ 2 * d.tdiv 2 + 1 ∧ 2 * d.tdiv 2 ≤ d + 1 := by
  rcases Int.lt_or_le d 0 with hd | hd
  · have hneg := tdiv_of_neg hd 2
    omega
  · have hpos := Int.tdiv_eq_ediv_of_nonneg (b := 2) hd
    omega

theorem tdiv_three_bounds (d : Int) :
    d ≤ 3 * d.tdiv 3 + 2 ∧ 3 * d.tdiv 3 ≤ d + 2 ∧ (0 ≤ d → 3 * d.tdiv 3 ≤ d) := by
  rcases Int.lt_or_le d 0 with hd | hd
  · have hneg := tdiv_of_neg hd 3
    omega
  · have hpos := Int.tdiv_eq_ediv_of_nonneg (b := 3) hd
    omega

end FLOAT

end Nemu
