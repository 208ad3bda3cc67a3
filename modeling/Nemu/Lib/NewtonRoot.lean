/-
  Nemu.Lib.NewtonRoot

  One step of Newton's iteration for a square or a cube root, on integers and with every
  division rounded.

  A step from `t` divides by `t` or by its square, to `q`, and moves to the mean of the two.
  Whatever `t` was, the step ends no lower than the root (`lt_sq`, `lt_cube`): that is the
  inequality of the means, and one unit of rounding.  Where `q` was close to `t` it also ends
  no higher than a few units above it.
-/

import Mathlib.Algebra.Order.Ring.Int
import Mathlib.Tactic.Linarith
import Mathlib.Tactic.Ring

namespace NewtonRoot

/-! ## Square roots -/

/-- From `t` to `t'` on the way to the square root of `a`. -/
structure SquareStep (a t q t' : Int) : Prop where
  pos : 0 < t
  quotient_nonneg : 0 ≤ q
  le_root : t * q ≤ a
  root_lt : a < t * (q + 1)
  mean_le : t + q ≤ 2 * t' + 1
  le_mean : 2 * t' ≤ t + q + 1

namespace SquareStep

variable {a t q t' : Int}

/-- A step ends no lower than the root. -/
theorem lt_sq (h : SquareStep a t q t') : a < (t' + 1) ^ 2 := by
  have hpos := h.pos
  have hq := h.quotient_nonneg
  have hmean : t + (q + 1) ≤ 2 * (t' + 1) := by linarith [h.mean_le]
  have hsq : (t + (q + 1)) ^ 2 ≤ (2 * (t' + 1)) ^ 2 :=
    pow_le_pow_left₀ (by linarith) hmean 2
  have hamgm : 4 * (t * (q + 1)) ≤ (t + (q + 1)) ^ 2 := by
    linarith [sq_nonneg (t - (q + 1)), (by ring :
      (t + (q + 1)) ^ 2 = (t - (q + 1)) ^ 2 + 4 * (t * (q + 1)))]
  have hexpand : (2 * (t' + 1)) ^ 2 = 4 * (t' + 1) ^ 2 := by ring
  linarith [h.root_lt]

/-- Where quotient and `t` are close, the step ends at most `k` above the root. -/
theorem sub_sq_le (h : SquareStep a t q t') {k : Int} (hk : k ≤ t')
    (hclose : (q - t) ^ 2 + (2 * k - 1) ^ 2 ≤ 2 * (2 * k - 1) * (t + q)) : (t' - k) ^ 2 ≤ a := by
  have hmean : 2 * (t' - k) ≤ t + q - (2 * k - 1) := by linarith [h.le_mean]
  have hsq : (2 * (t' - k)) ^ 2 ≤ (t + q - (2 * k - 1)) ^ 2 :=
    pow_le_pow_left₀ (by linarith) hmean 2
  have hexpand : (t + q - (2 * k - 1)) ^ 2 = 4 * (t * q) + (q - t) ^ 2 + (2 * k - 1) ^ 2 -
      2 * (2 * k - 1) * (t + q) := by ring
  have hquad : (2 * (t' - k)) ^ 2 = 4 * (t' - k) ^ 2 := by ring
  linarith [h.le_root]

end SquareStep

/-- From above the root the quotient is hardly above `t`. -/
theorem ediv_le_of_lt_sq {a t : Int} (ht : 0 < t) (habove : a < (t + 1) ^ 2) : a / t ≤ t + 2 := by
  have hexpand : (t + 1) ^ 2 + (t - 1) = (t + 3) * t := by ring
  have hlt : a < (t + 3) * t := by linarith
  have hquot : a / t < t + 3 := Int.ediv_lt_of_lt_mul ht hlt
  omega

/-! ## Cube roots -/

/-- From `t` to `t'` on the way to the cube root of `a`; `r` is what the square of `t` loses
    when it is rounded. -/
structure CubeStep (a r t q t' : Int) : Prop where
  pos : 0 < t
  quotient_nonneg : 0 ≤ q
  le_root : (t ^ 2 - r) * q ≤ a
  root_lt : a < t ^ 2 * (q + 1)
  mean_le : 2 * t + q ≤ 3 * t' + 2
  le_mean : 3 * t' ≤ 2 * t + q + 2

namespace CubeStep

variable {a r t q t' : Int}

-- the inequality of the means for `t`, `t` and `s`
theorem mean_cube {t s : Int} (ht : 0 ≤ t) (hs : 0 ≤ s) : 27 * (t ^ 2 * s) ≤ (2 * t + s) ^ 3 := by
  have hexpand : (2 * t + s) ^ 3 = 27 * (t ^ 2 * s) + (t - s) ^ 2 * (8 * t + s) := by ring
  have hnonneg : 0 ≤ (t - s) ^ 2 * (8 * t + s) :=
    mul_nonneg (sq_nonneg _) (by linarith)
  linarith

/-- A step ends no lower than the root. -/
theorem lt_cube (h : CubeStep a r t q t') : a < (t' + 1) ^ 3 := by
  have hpos := h.pos
  have hq := h.quotient_nonneg
  have hmean : 2 * t + (q + 1) ≤ 3 * (t' + 1) := by linarith [h.mean_le]
  have hcube : (2 * t + (q + 1)) ^ 3 ≤ (3 * (t' + 1)) ^ 3 :=
    pow_le_pow_left₀ (by linarith) hmean 3
  have hamgm : 27 * (t ^ 2 * (q + 1)) ≤ (2 * t + (q + 1)) ^ 3 := mean_cube hpos.le (by linarith)
  have hexpand : (3 * (t' + 1)) ^ 3 = 27 * (t' + 1) ^ 3 := by ring
  linarith [h.root_lt]

/-- Where quotient and `t` are close, the step ends at most `k` above the root. -/
theorem sub_cube_le (h : CubeStep a r t q t') {k : Int} (hk : k ≤ t')
    (hclose : 9 * t * (3 * k - 2 - (q - t)) ^ 2 - (3 * k - 2 - (q - t)) ^ 3 + 27 * r * q
      ≤ 27 * t ^ 2 * (3 * k - 2)) : (t' - k) ^ 3 ≤ a := by
  have hmean : 3 * (t' - k) ≤ 3 * t - (3 * k - 2 - (q - t)) := by linarith [h.le_mean]
  have hcube : (3 * (t' - k)) ^ 3 ≤ (3 * t - (3 * k - 2 - (q - t))) ^ 3 :=
    pow_le_pow_left₀ (by linarith) hmean 3
  have hexpand : (3 * t - (3 * k - 2 - (q - t))) ^ 3 = 27 * ((t ^ 2 - r) * q) +
      (9 * t * (3 * k - 2 - (q - t)) ^ 2 - (3 * k - 2 - (q - t)) ^ 3 + 27 * r * q) -
      27 * t ^ 2 * (3 * k - 2) := by ring
  have hquad : (3 * (t' - k)) ^ 3 = 27 * (t' - k) ^ 3 := by ring
  linarith [h.le_root]

end CubeStep

/-- From above the root of `k * a` the quotient of `a` by `s`, the square of `t` over `k` with
    the rounding `r`, is less than `c` above `t`. -/
theorem ediv_lt_of_lt_cube {a k r s t c : Int} (hs : 0 < s) (hround : t ^ 2 - r ≤ k * s)
    (hk : 0 < k) (habove : k * a < (t + 1) ^ 3) (hc : (t + 1) ^ 3 ≤ (t ^ 2 - r) * (t + c))
    (htc : 0 ≤ t + c) : a / s < t + c := by
  have hmul : (t ^ 2 - r) * (t + c) ≤ k * s * (t + c) := mul_le_mul_of_nonneg_right hround htc
  have hlt : k * a < k * ((t + c) * s) := by
    have hcomm : k * s * (t + c) = k * ((t + c) * s) := by ring
    linarith
  exact Int.ediv_lt_of_lt_mul hs (lt_of_mul_lt_mul_left hlt hk.le)

end NewtonRoot
