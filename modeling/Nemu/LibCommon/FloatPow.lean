/-
  Nemu.LibCommon.FloatPow

  `pow`, the cube root, on all numbers from zero on.

  The loop divides by the square of `t`, in 16.16 as well, and this fails at both ends.  From
  141310832 on the first turn takes `t` to where its square does not fit; at zero `t` gets so
  small that its square vanishes, and at one it ends too far from the root.  In between the
  loop is as that of `sqrt`, once `t` has at least 4096 units: the rounding of the square
  then moves the quotient by less than what is allowed for.  Below 16 there are too few
  units for that; these numbers are run.
-/

import Nemu.Lib.NewtonRoot
import Nemu.LibCommon.FloatNewton

namespace Nemu

open Outcome DoWhile NewtonRoot

namespace FLOAT

/-- `F_mul_F(t, t)` fits. -/
def SquareFits (t : FLOAT) : Prop := InInt (t.toInt * t.toInt / 65536)

instance (t : FLOAT) : Decidable (SquareFits t) := inferInstanceAs (Decidable (InInt _))

/-- Within eight units of the cube root. -/
structure NearCubeRoot (x t : FLOAT) : Prop where
  sub_le : (t.toInt - 8) ^ 3 ≤ x.toInt * 2 ^ 32
  le_add : x.toInt * 2 ^ 32 ≤ (t.toInt + 8) ^ 3

/-- The loop ends near the root, without a fault, and squares only what fits. -/
structure PowRight (x : FLOAT) : Prop where
  returns : ∃ t n, (∀ fuel y, n ≤ fuel → pow fuel x y = some (.ok t)) ∧ NearCubeRoot x t
  fits : ∀ t, Visited (powTurn x) (int2F 2) t → SquareFits t

theorem PowRight.of_returns {x t : FLOAT} (hreturns : Returns (powTurn x) (int2F 2) t)
    (hnear : NearCubeRoot x t)
    (hfits : ∀ s, Visited (powTurn x) (int2F 2) s → SquareFits s) : PowRight x := by
  obtain ⟨n, hn⟩ := hreturns
  exact ⟨⟨t, n, fun fuel _ hfuel => hn fuel hfuel, hnear⟩, hfits⟩

-- how the loop ends is how it is found to end
theorem PowRight.nearRoot {x : FLOAT} (h : PowRight x) {n : Nat} {r : Except FloatFault FLOAT}
    (hrun : doWhile (powTurn x) n (int2F 2) = some r) : ∃ t, r = .ok t ∧ NearCubeRoot x t := by
  obtain ⟨t, m, hm, hnear⟩ := h.returns
  have hreturns : Returns (powTurn x) (int2F 2) t := ⟨m, fun fuel hfuel => hm fuel 0 hfuel⟩
  exact ⟨t, hreturns.unique hrun, hnear⟩

/-! ## One turn -/

section Turn

variable {x t : FLOAT}

-- the square as it is computed
theorem square_bounds (t : Int) :
    65536 * (t * t / 65536) ≤ t ^ 2 ∧ t ^ 2 - 65535 ≤ 65536 * (t * t / 65536) := by
  have hsq : t ^ 2 = t * t := pow_two t
  omega

theorem powTurn_run (hx : 0 ≤ x.toInt) (ht : 0 < t.toInt) (hsquare : SquareFits t) {s q : Int}
    (hs : t.toInt * t.toInt / 65536 = s) (hpos : 0 < s) (hq : x.toInt * 65536 / s = q)
    (hfits : q ≤ 2147483647) :
    ∃ t', powTurn x t = .ok (decide (6 < |(q - t.toInt).tdiv 3|), t') ∧
      CubeStep (x.toInt * 2 ^ 32) 65535 t.toInt q t'.toInt ∧
      t'.toInt = t.toInt + (q - t.toInt).tdiv 3 := by
  have hmul : (fMulF t t).toInt = s := (toInt_fMulF_of_fits t t hsquare).trans hs
  obtain ⟨r, hr, hrval⟩ := fDivF_run (b := fMulF t t) hx (by omega) (by rw [hmul, hq]; exact hfits)
  rw [hmul, hq] at hrval
  have hq0 : 0 ≤ q := hq ▸ Int.ediv_nonneg (by omega) hpos.le
  obtain ⟨t', hturn, ht'⟩ := newtonTurn_run (q := r) (k := 3) (by omega) ht.le (by decide)
  have hk : BitVec.toInt (3 : FLOAT) = 3 := by decide
  rw [hk, hrval] at hturn ht'
  obtain ⟨hlo, hhi, hup⟩ := tdiv_three_bounds (q - t.toInt)
  obtain ⟨hsq₁, hsq₂⟩ := square_bounds t.toInt
  rw [hs] at hsq₁ hsq₂
  refine ⟨t', ?_, ⟨ht, hq0, ?_, ?_, by omega, by omega⟩, ht'⟩
  · rw [powTurn, hr, ok_bind, hturn]
  · have hquot : s * q ≤ x.toInt * 65536 := hq ▸ Int.mul_ediv_self_le hpos.ne'
    calc (t.toInt ^ 2 - 65535) * q ≤ 65536 * s * q := mul_le_mul_of_nonneg_right hsq₂ hq0
      _ = 65536 * (s * q) := by ring
      _ ≤ x.toInt * 2 ^ 32 := by linarith
  · have hquot : x.toInt * 65536 < (q + 1) * s := hq ▸ Int.lt_ediv_add_one_mul_self _ hpos
    calc x.toInt * 2 ^ 32 = 65536 * (x.toInt * 65536) := by ring
      _ < 65536 * ((q + 1) * s) := by linarith
      _ = 65536 * s * (q + 1) := by ring
      _ ≤ t.toInt ^ 2 * (q + 1) := mul_le_mul_of_nonneg_right hsq₁ (by omega)

/-- A turn that leaves the loop leaves it near the root, if `t` was large enough. -/
theorem nearCubeRoot_of_stop {q : Int} {t' : FLOAT} (hlarge : 4096 ≤ t.toInt)
    (hstep : CubeStep (x.toInt * 2 ^ 32) 65535 t.toInt q t'.toInt)
    (ht' : t'.toInt = t.toInt + (q - t.toInt).tdiv 3) (hstop : |(q - t.toInt).tdiv 3| ≤ 6) :
    NearCubeRoot x t' := by
  obtain ⟨hlo, hhi, hup⟩ := tdiv_three_bounds (q - t.toInt)
  obtain ⟨hdt₁, hdt₂⟩ := abs_le.mp hstop
  -- the distance of the quotient, as `sub_cube_le` takes it
  obtain ⟨u, hu⟩ : ∃ u, u = 3 * 8 - 2 - (q - t.toInt) := ⟨_, rfl⟩
  have hu₀ : 0 ≤ u := by omega
  have hsq : u ^ 2 ≤ 42 ^ 2 := pow_le_pow_left₀ hu₀ (by omega) 2
  have hcube : 0 ≤ u ^ 3 := pow_nonneg hu₀ 3
  have hprod : 9 * t.toInt * u ^ 2 ≤ 9 * t.toInt * 42 ^ 2 :=
    mul_le_mul_of_nonneg_left hsq (by omega)
  have hlin : 4096 * t.toInt ≤ t.toInt ^ 2 := by
    have hmul := mul_le_mul_of_nonneg_right hlarge hstep.pos.le
    linarith [pow_two t.toInt]
  have hsub : (t'.toInt - 8) ^ 3 ≤ x.toInt * 2 ^ 32 := by
    refine hstep.sub_cube_le (by omega) ?_
    rw [← hu]
    linarith
  have hroot := hstep.lt_cube
  have hadd : (t'.toInt + 1) ^ 3 ≤ (t'.toInt + 8) ^ 3 := pow_le_pow_left₀ (by omega) (by omega) 3
  exact ⟨hsub, by linarith⟩

end Turn

/-! ## The loop between its two limits -/

section Loop

variable {x t : FLOAT}

/-- What holds of `t` after the first turn. -/
structure AboveCubeRoot (x t : FLOAT) : Prop where
  large : 4096 ≤ t.toInt
  le_max : t.toInt ≤ 11863283
  lt_cube : x.toInt * 2 ^ 32 < (t.toInt + 1) ^ 3

theorem squareFits_of_le (h0 : 0 ≤ t.toInt) (h : t.toInt ≤ 11863283) : SquareFits t := by
  have hsq : t.toInt * t.toInt ≤ 11863283 * 11863283 := mul_le_mul h h h0 (by decide)
  have hnonneg : 0 ≤ t.toInt * t.toInt := mul_nonneg h0 h0
  exact ⟨by omega, by omega⟩

-- a number above the cube root of 2 ^ 36
theorem large_of_lt_cube {t : Int} (hx : 16 ≤ x.toInt) (h0 : 0 ≤ t)
    (h : x.toInt * 2 ^ 32 < (t + 1) ^ 3) : 4096 ≤ t := by
  by_contra hlt
  have hcube : (t + 1) ^ 3 ≤ 4096 ^ 3 := pow_le_pow_left₀ (by omega) (by omega) 3
  omega

theorem AboveCubeRoot.turn (hx : 16 ≤ x.toInt) (h : AboveCubeRoot x t) :
    ∃ again t', powTurn x t = .ok (again, t') ∧
      (again = true → AboveCubeRoot x t' ∧ t'.toInt.toNat < t.toInt.toNat) ∧
      (again = false → NearCubeRoot x t') := by
  have hlarge := h.large
  have hmax := h.le_max
  obtain ⟨-, hround⟩ := square_bounds t.toInt
  have hlin : 4096 * t.toInt ≤ t.toInt ^ 2 := by
    have hmul := mul_le_mul_of_nonneg_right hlarge (by omega : 0 ≤ t.toInt)
    linarith [pow_two t.toInt]
  obtain ⟨s, hs⟩ : ∃ s, t.toInt * t.toInt / 65536 = s := ⟨_, rfl⟩
  rw [hs] at hround
  have hpos : 0 < s := by omega
  obtain ⟨q, hq⟩ : ∃ q, x.toInt * 65536 / s = q := ⟨_, rfl⟩
  -- the quotient is not above `t`, but for 20 units
  have hlt : q < t.toInt + 21 := by
    rw [← hq]
    refine ediv_lt_of_lt_cube (k := 65536) hpos hround (by decide) ?_ ?_ (by omega)
    · have hscale : 65536 * (x.toInt * 65536) = x.toInt * 2 ^ 32 := by ring
      rw [hscale]
      exact h.lt_cube
    · have hexpand : (t.toInt ^ 2 - 65535) * (t.toInt + 21) - (t.toInt + 1) ^ 3
          = 18 * t.toInt ^ 2 - 65538 * t.toInt - 1376236 := by ring
      linarith
  have hfits : SquareFits t := squareFits_of_le (by omega) hmax
  obtain ⟨t', hturn, hstep, ht'⟩ :=
    powTurn_run (by omega) (by omega) hfits hs hpos hq (by omega)
  have hmean := hstep.mean_le
  have hq0 := hstep.quotient_nonneg
  refine ⟨_, t', hturn, ?_, ?_⟩
  · intro hagain
    obtain ⟨hlo, hhi, hup⟩ := tdiv_three_bounds (q - t.toInt)
    -- so that a move is down
    have hdown : (q - t.toInt).tdiv 3 < -6 := by
      rcases lt_abs.mp (of_decide_eq_true hagain) with hdt | hdt
      · omega
      · omega
    exact ⟨⟨large_of_lt_cube hx (by omega) hstep.lt_cube, by omega, hstep.lt_cube⟩, by omega⟩
  · intro hstop
    exact nearCubeRoot_of_stop hlarge hstep ht' (not_lt.mp (of_decide_eq_false hstop))

/-- The first turn, from 2.0. -/
theorem pow_first (hx : 0 ≤ x.toInt) :
    ∃ t', powTurn x (int2F 2)
        = .ok (decide (6 < |(x.toInt * 65536 / 262144 - 131072).tdiv 3|), t') ∧
      CubeStep (x.toInt * 2 ^ 32) 65535 131072 (x.toInt * 65536 / 262144) t'.toInt ∧
      t'.toInt = 131072 + (x.toInt * 65536 / 262144 - 131072).tdiv 3 := by
  obtain ⟨-, hxmax⟩ := toInt_inInt x
  exact powTurn_run (t := int2F 2) hx (by decide) (by decide) rfl (by decide) rfl (by omega)

theorem pow_first_above (hx : 16 ≤ x.toInt) (hmax : x.toInt ≤ 141310831) :
    ∃ again t', powTurn x (int2F 2) = .ok (again, t') ∧ AboveCubeRoot x t' ∧
      (again = false → NearCubeRoot x t') := by
  obtain ⟨t', hturn, hstep, ht'⟩ := pow_first (x := x) (by omega)
  have hmean := hstep.mean_le
  obtain ⟨-, hhi, hup⟩ := tdiv_three_bounds (x.toInt * 65536 / 262144 - 131072)
  have habove : AboveCubeRoot x t' :=
    ⟨large_of_lt_cube hx (by omega) hstep.lt_cube, by omega, hstep.lt_cube⟩
  refine ⟨_, t', hturn, habove, fun hstop => ?_⟩
  exact nearCubeRoot_of_stop (t := int2F 2) (by decide) hstep ht'
    (not_lt.mp (of_decide_eq_false hstop))

theorem powRight_of_large (hx : 16 ≤ x.toInt) (hmax : x.toInt ≤ 141310831) : PowRight x := by
  obtain ⟨again, t', hturn, habove, hstop⟩ := pow_first_above hx hmax
  have hfits : ∀ t, Visited (powTurn x) (int2F 2) t → SquareFits t := by
    intro t hvisited
    rcases hvisited.cases_start with rfl | ⟨t₁, hfirst, hrest⟩
    · decide
    · obtain ⟨-, rfl⟩ := Prod.mk.inj (Except.ok.inj (hturn.symm.trans hfirst))
      have h : AboveCubeRoot x t := by
        refine hrest.rule habove (fun t₂ t₃ h hbody => ?_)
        obtain ⟨again', t'', hturn', hgo, -⟩ := h.turn hx
        obtain ⟨rfl, rfl⟩ := Prod.mk.inj (Except.ok.inj (hturn'.symm.trans hbody))
        exact (hgo rfl).1
      have hlarge := h.large
      exact squareFits_of_le (by omega) h.le_max
  cases again with
  | false => exact .of_returns (.stop hturn) (hstop rfl) hfits
  | true =>
      obtain ⟨t, hreturns, hnear⟩ := returns_of_variant (fun t : FLOAT => t.toInt.toNat)
        (fun _ h => AboveCubeRoot.turn hx h) habove
      exact .of_returns (hreturns.go hturn) hnear hfits

end Loop

/-! ## Small numbers -/

/-- A run that the loop is right on. -/
def rightTrace (x : FLOAT) : Bool :=
  match trace (powTurn x) 16 (int2F 2) with
  | some (states, .ok t) => states.all (fun s => decide (SquareFits s)) &&
      decide ((t.toInt - 8) ^ 3 ≤ x.toInt * 2 ^ 32 ∧ x.toInt * 2 ^ 32 ≤ (t.toInt + 8) ^ 3)
  | _ => false

theorem powRight_of_trace {x : FLOAT} (h : rightTrace x = true) : PowRight x := by
  rw [rightTrace] at h
  split at h
  · rename_i states t htrace
    rw [Bool.and_eq_true, List.all_eq_true, decide_eq_true_eq] at h
    obtain ⟨hfits, hsub, hadd⟩ := h
    refine .of_returns (.of_doWhile (doWhile_of_trace htrace)) ⟨hsub, hadd⟩ (fun s hs => ?_)
    exact of_decide_eq_true (hfits s (mem_of_trace htrace hs))
  · exact absurd h Bool.false_ne_true

theorem rightTrace_small : ∀ i : Fin 14, rightTrace (BitVec.ofNat 32 (i.val + 2)) = true := by
  decide +kernel

theorem powRight_of_small {x : FLOAT} (hlo : 2 ≤ x.toInt) (hhi : x.toInt < 16) : PowRight x := by
  have hnat : x.toInt = x.toNat := by
    rw [BitVec.toInt_eq_toNat_cond] at hlo hhi ⊢
    split at hlo <;> split at hhi <;> split <;> omega
  have hx : x = BitVec.ofNat 32 ((x.toNat - 2) + 2) := by
    apply BitVec.eq_of_toNat_eq
    rw [BitVec.toNat_ofNat]
    omega
  rw [hx]
  exact powRight_of_trace (rightTrace_small ⟨x.toNat - 2, by omega⟩)

/-! ## Where it fails -/

-- the square of `t` vanishes before the loop ends
theorem not_powRight_zero : ¬ PowRight 0 := by
  intro h
  have hrun : doWhile (powTurn 0) 24 (int2F 2) = some (.error .divide) := by decide +kernel
  obtain ⟨t, ht, -⟩ := h.nearRoot hrun
  exact nomatch ht

-- 1638 is more than eight units above the root
theorem not_powRight_one : ¬ PowRight 1 := by
  intro h
  have hrun : doWhile (powTurn 1) 16 (int2F 2) = some (.ok 1638) := by decide +kernel
  obtain ⟨t, ht, hnear⟩ := h.nearRoot hrun
  obtain rfl := Except.ok.inj ht
  exact absurd hnear.sub_le (by decide)

/-- The first turn takes `t` to where its square does not fit. -/
theorem not_powRight_large {x : FLOAT} (hx : 141310832 ≤ x.toInt) : ¬ PowRight x := by
  intro h
  obtain ⟨t', hturn, -, ht'⟩ := pow_first (x := x) (by omega)
  obtain ⟨hlo, -⟩ := tdiv_three_bounds (x.toInt * 65536 / 262144 - 131072)
  have hagain : decide (6 < |(x.toInt * 65536 / 262144 - 131072).tdiv 3|) = true :=
    decide_eq_true (lt_abs.mpr (.inl (by omega)))
  rw [hagain] at hturn
  have hlarge : 11863284 ≤ t'.toInt := by omega
  have hsq : 11863284 * 11863284 ≤ t'.toInt * t'.toInt :=
    mul_le_mul hlarge hlarge (by decide) (by omega)
  obtain ⟨-, hmax⟩ := h.fits t' (.next .start hturn)
  omega

/-- **Cube root.** For every number from zero on the loop is right exactly from 2 units to
    141310831 units. -/
theorem pow_right_iff (x : FLOAT) (hx : 0 ≤ x.toInt) :
    PowRight x ↔ 2 ≤ x.toInt ∧ x.toInt ≤ 141310831 := by
  apply Iff.intro
  · intro h
    refine ⟨?_, ?_⟩
    · by_contra hlt
      rcases (by omega : x.toInt = 0 ∨ x.toInt = 1) with h0 | h1
      · obtain rfl : x = 0 := BitVec.eq_of_toInt_eq h0
        exact not_powRight_zero h
      · obtain rfl : x = 1 := BitVec.eq_of_toInt_eq h1
        exact not_powRight_one h
    · by_contra hlt
      exact not_powRight_large (by omega) h
  · rintro ⟨hlo, hhi⟩
    rcases Int.lt_or_le x.toInt 16 with hsmall | hlarge
    · exact powRight_of_small hlo hsmall
    · exact powRight_of_large hlarge hhi

-- the root of 8.0
theorem pow_right_eight : PowRight 524288 :=
  (pow_right_iff 524288 (by decide)).mpr ⟨by decide, by decide⟩

/-- The root of zero is not computed: the processor faults. -/
theorem pow_not_right : ¬ ∀ x : FLOAT, 0 ≤ x.toInt → PowRight x :=
  fun h => not_powRight_zero (h 0 (by decide))

end FLOAT

end Nemu
