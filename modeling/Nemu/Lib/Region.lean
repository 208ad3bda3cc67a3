/-
  Nemu.Lib.Region

  Regions of a memory that is addressed with `w` bits: the addresses from a start on, around
  the end of the address space if need be, and the block writes of `memcpy` and `memset`.
  Nothing here knows about any particular machine.
-/

import Mathlib.Algebra.Group.Nat.Defs

namespace Region

variable {w : Nat} {β : Type _}

/-- `x` is one of the `n` addresses from `a` on. -/
def Within (a : BitVec w) (n : Nat) (x : BitVec w) : Prop := (x - a).toNat < n

instance (a : BitVec w) (n : Nat) (x : BitVec w) : Decidable (Within a n x) :=
  inferInstanceAs (Decidable (_ < _))

/-- `m` with the `n` cells from `dst` on replaced by the first `n` cells of `src`. -/
def blit (m : BitVec w → β) (dst : BitVec w) (n : Nat) (src : Nat → β) : BitVec w → β :=
  fun x => if Within dst n x then src (x - dst).toNat else m x

section Rules

variable {m m' : BitVec w → β} {src src' : Nat → β} {a b x : BitVec w} {n k j : Nat}

-- the place of an address in a region
theorem sub_ofNat_add (hj : j < 2 ^ w) : (a + BitVec.ofNat w j - a).toNat = j := by
  rw [BitVec.add_comm, BitVec.add_sub_cancel, BitVec.toNat_ofNat, Nat.mod_eq_of_lt hj]

theorem add_ofNat_sub (a x : BitVec w) : a + BitVec.ofNat w (x - a).toNat = x := by
  rw [BitVec.ofNat_toNat, BitVec.setWidth_eq, BitVec.add_comm, BitVec.sub_add_cancel]

theorem within_add (hj : j < n) (hw : j < 2 ^ w) : Within a n (a + BitVec.ofNat w j) := by
  rw [Within, sub_ofNat_add hw]
  exact hj

/-- A region that does not wrap is an interval. -/
theorem within_iff (h : a.toNat + n ≤ 2 ^ w) :
    Within a n x ↔ a.toNat ≤ x.toNat ∧ x.toNat < a.toNat + n := by
  have hx := x.isLt
  have ha := a.isLt
  rw [Within, BitVec.toNat_sub]
  by_cases hle : a.toNat ≤ x.toNat
  · have hsum : 2 ^ w - a.toNat + x.toNat = x.toNat - a.toNat + 2 ^ w := by omega
    rw [hsum, Nat.add_mod_right, Nat.mod_eq_of_lt (by omega)]
    omega
  · rw [Nat.mod_eq_of_lt (by omega)]
    omega

/-- Regions and addresses relative to one base. -/
theorem within_add_add (hj : j < 2 ^ w) (hk : k + n ≤ 2 ^ w) :
    Within (a + BitVec.ofNat w k) n (a + BitVec.ofNat w j) ↔ k ≤ j ∧ j < k + n := by
  by_cases hn : n = 0
  · subst hn
    simp only [Within]
    omega
  · have hsub : a + BitVec.ofNat w j - (a + BitVec.ofNat w k) = BitVec.ofNat w j - BitVec.ofNat w k := by
      rw [← BitVec.sub_sub, BitVec.add_comm a, BitVec.add_sub_cancel]
    rw [Within, hsub, BitVec.toNat_sub, BitVec.toNat_ofNat, BitVec.toNat_ofNat,
      Nat.mod_eq_of_lt (a := k) (by omega), Nat.mod_eq_of_lt (a := j) hj]
    by_cases hle : k ≤ j
    · have hsum : 2 ^ w - k + j = j - k + 2 ^ w := by omega
      rw [hsum, Nat.add_mod_right, Nat.mod_eq_of_lt (by omega)]
      omega
    · rw [Nat.mod_eq_of_lt (by omega)]
      omega

/-- A part of a region. -/
theorem Within.of_add (h : Within (a + BitVec.ofNat w j) k x) (hpart : j + k ≤ n)
    (hn : n ≤ 2 ^ w) : Within a n x := by
  rw [← add_ofNat_sub a x, within_add_add (x - a).isLt (by omega)] at h
  exact Nat.lt_of_lt_of_le h.2 hpart

theorem blit_within (h : Within a n x) : blit m a n src x = src (x - a).toNat := if_pos h

theorem blit_outside (h : ¬ Within a n x) : blit m a n src x = m x := if_neg h

theorem blit_add (hj : j < n) (hw : j < 2 ^ w) : blit m a n src (a + BitVec.ofNat w j) = src j := by
  rw [blit_within (within_add hj hw), sub_ofNat_add hw]

/-- Only the copied cells of the source matter. -/
theorem blit_congr (h : ∀ i, i < n → src i = src' i) : blit m a n src = blit m a n src' := by
  funext x
  by_cases hx : Within a n x
  · rw [blit_within hx, blit_within hx, h _ hx]
  · rw [blit_outside hx, blit_outside hx]

/-- Two adjacent block writes are one. -/
theorem blit_append (h : n + k ≤ 2 ^ w) :
    blit (blit m a n src) (a + BitVec.ofNat w n) k (fun i => src (n + i)) = blit m a (n + k) src := by
  funext x
  have hd := (x - a).isLt
  have hsub : x - (a + BitVec.ofNat w n) = x - a - BitVec.ofNat w n := BitVec.sub_sub .. |>.symm
  by_cases hn : n = 2 ^ w
  · obtain rfl : k = 0 := by omega
    rw [blit_outside (n := 0) (by simp [Within])]
    rfl
  · have hnw : (BitVec.ofNat w n).toNat = n := by
      rw [BitVec.toNat_ofNat, Nat.mod_eq_of_lt (by omega)]
    by_cases hlt : Within a n x
    · -- the second write begins behind `x`
      have hlt' : (x - a).toNat < n := hlt
      have hout : ¬ Within (a + BitVec.ofNat w n) k x := by
        rw [Within, hsub, BitVec.toNat_sub, hnw, Nat.mod_eq_of_lt (by omega)]
        omega
      rw [blit_outside hout, blit_within hlt, blit_within (show (x - a).toNat < n + k by omega)]
    · have hge : n ≤ (x - a).toNat := Nat.le_of_not_lt hlt
      have hplace : (x - (a + BitVec.ofNat w n)).toNat = (x - a).toNat - n := by
        have hsum : 2 ^ w - n + (x - a).toNat = (x - a).toNat - n + 2 ^ w := by omega
        rw [hsub, BitVec.toNat_sub, hnw, hsum, Nat.add_mod_right, Nat.mod_eq_of_lt (by omega)]
      by_cases hk : (x - a).toNat < n + k
      · rw [blit_within (show (x - (a + BitVec.ofNat w n)).toNat < k by omega),
          blit_within (show (x - a).toNat < n + k from hk), hplace, Nat.add_sub_cancel' hge]
      · rw [blit_outside (show ¬ (x - (a + BitVec.ofNat w n)).toNat < k by omega), blit_outside hlt,
          blit_outside (show ¬ (x - a).toNat < n + k from hk)]

end Rules

end Region
