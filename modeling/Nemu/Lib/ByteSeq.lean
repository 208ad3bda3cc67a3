/-
  Nemu.Lib.ByteSeq

  Byte sequences indexed by natural numbers: the block copy of `memcpy`,
  and the little-endian reading and writing of numbers.

  A sequence is a total function `Nat → β`, so a buffer, a window of a larger
  memory and a whole memory are the same kind of object; a "window at `a`" is
  `fun i => m (a + i)`.  Nothing here knows about any particular machine.
-/

import Mathlib.Data.Nat.Basic
import Mathlib.Tactic.Ring

namespace ByteSeq

/-! ## Block copy -/

section Patch

variable {β : Type _}

/-- `m` with the `n` cells from `a` on replaced by the first `n` cells of `src`. -/
def patch (m : Nat → β) (a n : Nat) (src : Nat → β) : Nat → β :=
  fun x => if a ≤ x ∧ x < a + n then src (x - a) else m x

theorem patch_inside {m src : Nat → β} {a n x : Nat} (h1 : a ≤ x) (h2 : x < a + n) :
    patch m a n src x = src (x - a) := if_pos ⟨h1, h2⟩

theorem patch_outside {m src : Nat → β} {a n x : Nat} (h : x < a ∨ a + n ≤ x) :
    patch m a n src x = m x := if_neg (by omega)

@[simp] theorem patch_add {m src : Nat → β} {a n i : Nat} (h : i < n) :
    patch m a n src (a + i) = src i := by
  rw [patch_inside (by omega) (by omega), Nat.add_sub_cancel_left]

@[simp] theorem patch_zero_len (m src : Nat → β) (a : Nat) : patch m a 0 src = m := by
  funext x
  exact patch_outside (by omega)

/-- Only the copied cells of the source matter. -/
theorem patch_congr {m src src' : Nat → β} {a n : Nat} (h : ∀ i, i < n → src i = src' i) :
    patch m a n src = patch m a n src' := by
  funext x
  by_cases hx : a ≤ x ∧ x < a + n
  · rw [patch_inside hx.1 hx.2, patch_inside hx.1 hx.2, h _ (by omega)]
  · rw [patch_outside (by omega), patch_outside (by omega)]

/-- Two adjacent copies are one. -/
theorem patch_append (m src : Nat → β) (a n k : Nat) :
    patch (patch m a n src) (a + n) k (fun i => src (n + i)) = patch m a (n + k) src := by
  funext x
  by_cases h1 : a + n ≤ x ∧ x < a + n + k
  · rw [patch_inside h1.1 h1.2, patch_inside (by omega) (by omega)]
    congr 1
    omega
  · rw [patch_outside (by omega)]
    by_cases h2 : a ≤ x ∧ x < a + n
    · rw [patch_inside h2.1 h2.2, patch_inside (by omega) (by omega)]
    · rw [patch_outside (by omega), patch_outside (by omega)]

end Patch

/-! ## Little-endian numbers -/

/-- The number whose `n` little-endian bytes are `f 0, …, f (n - 1)`. -/
def leNat (f : Nat → BitVec 8) : Nat → Nat
  | 0 => 0
  | n + 1 => (f 0).toNat + 256 * leNat (fun i => f (i + 1)) n

/-- Byte `i` of the little-endian representation of `v`. -/
def leByte (v i : Nat) : BitVec 8 := BitVec.ofNat 8 (v / 256 ^ i)

@[simp] theorem leNat_zero (f : Nat → BitVec 8) : leNat f 0 = 0 := rfl

theorem leNat_succ (f : Nat → BitVec 8) (n : Nat) :
    leNat f (n + 1) = (f 0).toNat + 256 * leNat (fun i => f (i + 1)) n := rfl

theorem leNat_lt (f : Nat → BitVec 8) (n : Nat) : leNat f n < 256 ^ n := by
  induction n generalizing f with
  | zero => simp
  | succ n ih =>
      have hb : (f 0).toNat < 256 := (f 0).isLt
      have hr := ih (fun i => f (i + 1))
      rw [leNat_succ, Nat.pow_succ]
      omega

theorem leNat_congr {f g : Nat → BitVec 8} {n : Nat} (h : ∀ i, i < n → f i = g i) :
    leNat f n = leNat g n := by
  induction n generalizing f g with
  | zero => rfl
  | succ n ih =>
      rw [leNat_succ, leNat_succ, h 0 (by omega), ih (fun i hi => h (i + 1) (by omega))]

/-- Truncating to `k` bytes keeps the `k` low bytes. -/
theorem leNat_mod (f : Nat → BitVec 8) {k n : Nat} (hk : k ≤ n) :
    leNat f n % 256 ^ k = leNat f k := by
  induction k generalizing f n with
  | zero => simp [Nat.mod_one]
  | succ k ih =>
      obtain ⟨n, rfl⟩ : ∃ m, n = m + 1 := ⟨n - 1, by omega⟩
      have hrest := ih (fun i => f (i + 1)) (n := n) (by omega)
      have hb : (f 0).toNat < 256 := (f 0).isLt
      rw [leNat_succ, leNat_succ, Nat.pow_succ, Nat.mul_comm (256 ^ k) 256, Nat.mod_mul]
      rw [Nat.add_mul_mod_self_left, Nat.mod_eq_of_lt hb,
        Nat.add_mul_div_left _ _ (by decide), Nat.div_eq_of_lt hb, Nat.zero_add, hrest]

/-- Reading back the little-endian bytes of `v` gives `v` truncated to `n` bytes. -/
theorem leNat_leByte (v n : Nat) : leNat (leByte v) n = v % 256 ^ n := by
  induction n generalizing v with
  | zero => simp [Nat.mod_one]
  | succ n ih =>
      have hshift : (fun i => leByte v (i + 1)) = leByte (v / 256) := by
        funext i
        simp only [leByte, Nat.pow_succ, Nat.mul_comm (256 ^ i) 256, Nat.div_div_eq_div_mul]
      rw [leNat_succ, hshift, ih, Nat.pow_succ, Nat.mul_comm (256 ^ n) 256, Nat.mod_mul]
      simp [leByte]

/-- Taking the bytes of a number just assembled gives them back. -/
theorem leByte_leNat {f : Nat → BitVec 8} {n i : Nat} (h : i < n) : leByte (leNat f n) i = f i := by
  induction n generalizing f i with
  | zero => omega
  | succ n ih =>
      have hb : (f 0).toNat < 256 := (f 0).isLt
      rw [leNat_succ]
      cases i with
      | zero =>
          apply BitVec.eq_of_toNat_eq
          rw [leByte, BitVec.toNat_ofNat, Nat.pow_zero, Nat.div_one]
          omega
      | succ i =>
          have hshift : ((f 0).toNat + 256 * leNat (fun j => f (j + 1)) n) / 256
              = leNat (fun j => f (j + 1)) n := by
            omega
          rw [leByte, Nat.pow_succ, Nat.mul_comm (256 ^ i), ← Nat.div_div_eq_div_mul, hshift]
          exact ih (f := fun j => f (j + 1)) (by omega)

/-! ## A flat little-endian memory -/

/-- The `n`-byte number at address `a`. -/
def load (m : Nat → BitVec 8) (a n : Nat) : Nat := leNat (fun i => m (a + i)) n

/-- `m` with the `n` low bytes of `v` stored at address `a`. -/
def store (m : Nat → BitVec 8) (a n v : Nat) : Nat → BitVec 8 := patch m a n (leByte v)

theorem load_lt (m : Nat → BitVec 8) (a n : Nat) : load m a n < 256 ^ n := leNat_lt _ _

theorem store_outside {m : Nat → BitVec 8} {a n v x : Nat} (h : x < a ∨ a + n ≤ x) :
    store m a n v x = m x := patch_outside h

/-- A load of the cells just stored returns the stored value, truncated. -/
@[simp] theorem load_store_same (m : Nat → BitVec 8) (a n v : Nat) :
    load (store m a n v) a n = v % 256 ^ n := by
  rw [load, ← leNat_leByte]
  exact leNat_congr (fun i hi => patch_add hi)

/-- A load disjoint from a store does not see it. -/
theorem load_store_disjoint {m : Nat → BitVec 8} {a n v b k : Nat}
    (h : b + k ≤ a ∨ a + n ≤ b) : load (store m a n v) b k = load m b k :=
  leNat_congr (fun _ _ => patch_outside (by omega))

end ByteSeq
