/-
  Nemu.Lib.Strided

  Elements of `w` bytes at a fixed stride: their addresses modulo the size of the
  address space, upwards or downwards, and the two loops over them, a copy and a fill,
  one element after the other.

  A copy is defined by its loop, because with overlapping elements there is no other
  definition; a fill is shown to leave its value in every element.  Nothing here knows
  about any particular machine.
-/

import Nemu.Lib.ByteSeq

namespace Strided

open ByteSeq

/-! ## Element addresses -/

section Address

variable {k : Nat}

/-- Element `i` from `a` on, at stride `w`. -/
def elem (down : Bool) (w : Nat) (a : BitVec k) (i : Nat) : BitVec k :=
  if down then a - BitVec.ofNat k (i * w) else a + BitVec.ofNat k (i * w)

@[simp] theorem elem_zero (down : Bool) (w : Nat) (a : BitVec k) : elem down w a 0 = a := by
  rw [elem, Nat.zero_mul]
  cases down with
  | true => exact BitVec.sub_zero a
  | false => exact BitVec.add_zero a

/-- The next element is one stride further. -/
theorem elem_succ (down : Bool) (w : Nat) (a : BitVec k) (i : Nat) :
    elem down w a (i + 1) = if down then elem down w a i - BitVec.ofNat k w
      else elem down w a i + BitVec.ofNat k w := by
  have hsplit : BitVec.ofNat k ((i + 1) * w) = BitVec.ofNat k (i * w) + BitVec.ofNat k w := by
    rw [Nat.succ_mul, BitVec.ofNat_add]
  cases down with
  | true =>
      show a - _ = a - _ - _
      rw [hsplit, BitVec.sub_sub]
  | false =>
      show a + _ = a + _ + _
      rw [hsplit, BitVec.add_assoc]

/-- A stride that divides the address space keeps the elements aligned with each other. -/
theorem elem_mod (down : Bool) {w : Nat} (hw : w ∣ 2 ^ k) (a : BitVec k) (i : Nat) :
    (elem down w a i).toNat % w = a.toNat % w := by
  have hoff : w ∣ (BitVec.ofNat k (i * w)).toNat := by
    rw [BitVec.toNat_ofNat, Nat.dvd_mod_iff hw]
    exact Nat.dvd_mul_left w i
  cases down with
  | true =>
      obtain ⟨q, hq⟩ : w ∣ 2 ^ k - (BitVec.ofNat k (i * w)).toNat := Nat.dvd_sub hw hoff
      show (a - BitVec.ofNat k (i * w)).toNat % w = _
      rw [BitVec.toNat_sub, Nat.mod_mod_of_dvd _ hw, hq, Nat.add_comm, Nat.add_mul_mod_self_left]
  | false =>
      obtain ⟨q, hq⟩ := hoff
      show (a + BitVec.ofNat k (i * w)).toNat % w = _
      rw [BitVec.toNat_add, Nat.mod_mod_of_dvd _ hw, hq, Nat.add_mul_mod_self_left]

/-- Aligned elements are the same or do not overlap. -/
theorem eq_or_apart {w a b : Nat} (h : a % w = b % w) : a = b ∨ a + w ≤ b ∨ b + w ≤ a := by
  have ha := Nat.div_add_mod a w
  have hb := Nat.div_add_mod b w
  rcases Nat.lt_trichotomy (a / w) (b / w) with hlt | heq | hgt
  · have hmul : w * (a / w) + w ≤ w * (b / w) := Nat.mul_le_mul_left w hlt
    right
    omega
  · left
    rw [← ha, ← hb, heq, h]
  · have hmul : w * (b / w) + w ≤ w * (a / w) := Nat.mul_le_mul_left w hgt
    right
    omega

end Address

/-! ## Copying and filling -/

section Loops

variable (w : Nat) (m : Nat → BitVec 8) (src dst : Nat → Nat) (v : Nat)

/-- `n` elements copied one after the other; a later one is read after the earlier ones
    have been written. -/
def copy : Nat → Nat → BitVec 8
  | 0 => m
  | n + 1 => store (copy n) (dst n) w (load (copy n) (src n) w)

/-- The value `v` stored to `n` elements. -/
def fill : Nat → Nat → BitVec 8
  | 0 => m
  | n + 1 => store (fill n) (dst n) w v

variable {w m src dst v}

/-- A copy changes its destination elements only. -/
theorem copy_outside {n x : Nat} (h : ∀ i, i < n → x < dst i ∨ dst i + w ≤ x) :
    copy w m src dst n x = m x := by
  induction n with
  | zero => rfl
  | succ n ih =>
      rw [copy, store_outside (h n (Nat.lt_succ_self n))]
      exact ih (fun i hi => h i (Nat.lt_succ_of_lt hi))

theorem fill_outside {n x : Nat} (h : ∀ i, i < n → x < dst i ∨ dst i + w ≤ x) :
    fill w m dst v n x = m x := by
  induction n with
  | zero => rfl
  | succ n ih =>
      rw [fill, store_outside (h n (Nat.lt_succ_self n))]
      exact ih (fun i hi => h i (Nat.lt_succ_of_lt hi))

/-- A fill leaves its value in every element, if they are the same or apart. -/
theorem load_fill {n : Nat}
    (hapart : ∀ i j, dst i = dst j ∨ dst i + w ≤ dst j ∨ dst j + w ≤ dst i) :
    ∀ i, i < n → load (fill w m dst v n) (dst i) w = v % 256 ^ w := by
  induction n with
  | zero => exact fun i hi => absurd hi (Nat.not_lt_zero i)
  | succ n ih =>
      intro i hi
      rw [fill]
      rcases Nat.lt_succ_iff_lt_or_eq.mp hi with hlt | rfl
      · rcases hapart i n with heq | hsep
        · rw [heq, load_store_same]
        · rw [load_store_disjoint hsep]
          exact ih i hlt
      · exact load_store_same ..

end Loops

end Strided
