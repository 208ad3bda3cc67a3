/-
  Nemu.LibCommon.FloatSqrt

  `sqrt` on all numbers from zero on.

  From the second turn on `t` is no lower than the root, so the quotient is at most two
  units above `t` and a turn that goes on lowers `t` by seven units or more: the loop ends.
  When it ends `t` and the quotient were within 13 units, and the root lies between them.
-/

import Nemu.Lib.NewtonRoot
import Nemu.LibCommon.FloatNewton

namespace Nemu

open Outcome DoWhile NewtonRoot

namespace FLOAT

/-! ## One turn -/

section Turn

variable {x t : FLOAT}

theorem sqrtTurn_run (hx : 0 ≤ x.toInt) (ht : 0 < t.toInt) {q : Int}
    (hq : x.toInt * 65536 / t.toInt = q) (hfits : q ≤ 2147483647) :
    ∃ dt t', sqrtTurn x t = .ok (decide (6 < |dt|), t') ∧
      SquareStep (x.toInt * 65536) t.toInt q t'.toInt ∧ t'.toInt = t.toInt + dt ∧
      q - t.toInt ≤ 2 * dt + 1 ∧ 2 * dt ≤ q - t.toInt + 1 := by
  subst hq
  obtain ⟨q, hq, hqval⟩ := fDivF_run hx ht hfits
  have hq0 : 0 ≤ x.toInt * 65536 / t.toInt := Int.ediv_nonneg (by omega) ht.le
  obtain ⟨t', hturn, ht'⟩ := newtonTurn_run (q := q) (k := 2) (by omega) ht.le (by decide)
  have hk : BitVec.toInt (2 : FLOAT) = 2 := by decide
  rw [hk, hqval] at hturn ht'
  obtain ⟨hlo, hhi⟩ := tdiv_two_bounds (x.toInt * 65536 / t.toInt - t.toInt)
  refine ⟨_, t', ?_, ⟨ht, hq0, ?_, ?_, by omega, by omega⟩, ht', hlo, hhi⟩
  · rw [sqrtTurn, hq, ok_bind, hturn]
  · exact Int.mul_ediv_self_le ht.ne'
  · have hlt := Int.lt_ediv_add_one_mul_self (x.toInt * 65536) ht
    rw [mul_comm t.toInt]
    exact hlt

/-- Within four units of the root. -/
structure NearRoot (x t : FLOAT) : Prop where
  four_le : 4 ≤ t.toInt
  sub_le : (t.toInt - 4) ^ 2 ≤ 65536 * x.toInt
  le_add : 65536 * x.toInt ≤ (t.toInt + 4) ^ 2

/-- A turn that leaves the loop leaves it near the root. -/
theorem nearRoot_of_stop (hx : 0 < x.toInt) {q dt : Int} {t' : FLOAT}
    (hstep : SquareStep (x.toInt * 65536) t.toInt q t'.toInt)
    (hlo : q - t.toInt ≤ 2 * dt + 1) (hhi : 2 * dt ≤ q - t.toInt + 1) (hstop : |dt| ≤ 6) :
    NearRoot x t' := by
  obtain ⟨hdt₁, hdt₂⟩ := abs_le.mp hstop
  have hroot := hstep.lt_sq
  have hpos := hstep.pos
  have hq := hstep.quotient_nonneg
  have hmean := hstep.mean_le
  have hmean' := hstep.le_mean
  have hlarge : 255 < t'.toInt := by
    by_contra hle
    have hsq : (t'.toInt + 1) ^ 2 ≤ 256 ^ 2 := pow_le_pow_left₀ (by omega) (by omega) 2
    omega
  have hclose : (q - t.toInt) ^ 2 ≤ 13 ^ 2 := sq_le_sq' (by omega) (by omega)
  have hsub : (t'.toInt - 4) ^ 2 ≤ x.toInt * 65536 :=
    hstep.sub_sq_le (by omega) (by linarith)
  have hadd : (t'.toInt + 1) ^ 2 ≤ (t'.toInt + 4) ^ 2 := pow_le_pow_left₀ (by omega) (by omega) 2
  exact ⟨by omega, by linarith, by linarith⟩

end Turn

/-! ## The loop -/

section Loop

variable {x t : FLOAT}

/-- What holds of `t` after the first turn. -/
structure AboveRoot (x t : FLOAT) : Prop where
  pos : 0 < t.toInt
  le_max : t.toInt ≤ 1073741824
  lt_sq : x.toInt * 65536 < (t.toInt + 1) ^ 2

theorem AboveRoot.turn (hx : 0 < x.toInt) (h : AboveRoot x t) :
    ∃ again t', sqrtTurn x t = .ok (again, t') ∧
      (again = true → AboveRoot x t' ∧ t'.toInt.toNat < t.toInt.toNat) ∧
      (again = false → NearRoot x t') := by
  have hmax := h.le_max
  -- the quotient is not above `t`, but for two units
  have hq := ediv_le_of_lt_sq h.pos h.lt_sq
  obtain ⟨dt, t', hturn, hstep, ht', hlo, hhi⟩ := sqrtTurn_run hx.le h.pos rfl (by omega)
  refine ⟨_, t', hturn, ?_, ?_⟩
  · intro hagain
    -- so that a move is down
    have habs : 6 < |dt| := of_decide_eq_true hagain
    have hdown : dt < -6 := by
      rcases lt_abs.mp habs with hdt | hdt
      · omega
      · omega
    have hq0 := hstep.quotient_nonneg
    exact ⟨⟨by omega, by omega, hstep.lt_sq⟩, by omega⟩
  · intro hstop
    exact nearRoot_of_stop hx hstep hlo hhi (not_lt.mp (of_decide_eq_false hstop))

/-- The first turn, from 2.0. -/
theorem sqrt_first (hx : 0 < x.toInt) :
    ∃ again t', sqrtTurn x (int2F 2) = .ok (again, t') ∧ (again = true → AboveRoot x t') ∧
      (again = false → NearRoot x t') := by
  have hstart : (int2F 2).toInt = 131072 := by decide
  obtain ⟨-, hxmax⟩ := toInt_inInt x
  obtain ⟨dt, t', hturn, hstep, ht', hlo, hhi⟩ :=
    sqrtTurn_run hx.le (t := int2F 2) (by omega) rfl (by rw [hstart]; omega)
  refine ⟨_, t', hturn, fun _ => ⟨?_, ?_, hstep.lt_sq⟩, ?_⟩
  · have hq0 := hstep.quotient_nonneg
    omega
  · rw [hstart] at hhi
    omega
  · intro hstop
    exact nearRoot_of_stop hx hstep hlo hhi (not_lt.mp (of_decide_eq_false hstop))

/-- The loop ends near the root. -/
theorem sqrt_returns (hx : 0 < x.toInt) :
    ∃ t, Returns (sqrtTurn x) (int2F 2) t ∧ NearRoot x t := by
  obtain ⟨again, t', hturn, hgo, hstop⟩ := sqrt_first hx
  cases again with
  | false => exact ⟨t', .stop hturn, hstop rfl⟩
  | true =>
      obtain ⟨t, hreturns, hnear⟩ := returns_of_variant (fun t : FLOAT => t.toInt.toNat)
        (fun _ h => AboveRoot.turn hx h) (hgo rfl)
      exact ⟨t, hreturns.go hturn, hnear⟩

end Loop

/-- **Square root.** For every number from zero on the loop ends, without a divide fault or an
    overflow, at a number of at least four units that is within four units of the root. -/
theorem sqrt_right (x : FLOAT) (hx : 0 ≤ x.toInt) :
    ∃ t n, (∀ fuel, n ≤ fuel → sqrt fuel x = some (.ok t)) ∧ 4 ≤ t.toInt ∧
      (t.toInt - 4) ^ 2 ≤ 65536 * x.toInt ∧ 65536 * x.toInt ≤ (t.toInt + 4) ^ 2 := by
  rcases hx.eq_or_lt with hzero | hpos
  · -- zero itself, from 2.0 down to four units
    obtain rfl : x = 0 := BitVec.eq_of_toInt_eq hzero.symm
    have hrun : sqrt 16 0 = some (.ok 4) := by decide
    obtain ⟨n, hn⟩ := Returns.of_doWhile hrun
    exact ⟨4, n, hn, by decide, by decide, by decide⟩
  · obtain ⟨t, ⟨n, hn⟩, hnear⟩ := sqrt_returns hpos
    exact ⟨t, n, hn, hnear.four_le, hnear.sub_le, hnear.le_add⟩

-- the root of 2.0
theorem sqrt_right_two :
    ∃ t n, (∀ fuel, n ≤ fuel → sqrt fuel 131072 = some (.ok t)) ∧ 4 ≤ t.toInt ∧
      (t.toInt - 4) ^ 2 ≤ 65536 * 131072 ∧ 65536 * 131072 ≤ (t.toInt + 4) ^ 2 :=
  sqrt_right 131072 (by decide)

end FLOAT

end Nemu
