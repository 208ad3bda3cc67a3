/-
  Nemu.Lib.BitField

  Numbers in a stream of bits, the most significant bit first.

  `bits n x` are the last `n` bits of `x`, `value` reads a list of bits back as a number,
  and `stream w words` is the sequence of bits of words of width `w`.  A field of the stream
  that does not reach past the word after the one it begins in is given by two words
  (`field_within`, `field_across`); that is how a reader with shifts and masks sees it.
-/

import Mathlib.Algebra.Group.Nat.Defs
import Mathlib.Tactic.Ring
import Nemu.Lib.FixedWidth

namespace BitField

open FixedWidth

/-- The last `n` bits of `x`, the most significant one first. -/
def bits : Nat → Nat → List Bool
  | 0, _ => []
  | n + 1, x => x.testBit n :: bits n x

/-- The number that a list of bits spells. -/
def value : List Bool → Nat
  | [] => 0
  | b :: l => 2 ^ l.length * b.toNat + value l

@[simp] theorem length_bits (n x : Nat) : (bits n x).length = n := by
  induction n with
  | zero => rfl
  | succ n ih => rw [bits, List.length_cons, ih]

@[simp] theorem value_bits (n x : Nat) : value (bits n x) = x % 2 ^ n := by
  induction n with
  | zero => rw [bits, value, Nat.pow_zero, Nat.mod_one]
  | succ n ih => rw [bits, value, ih, length_bits, Nat.mod_pow_succ, Nat.toNat_testBit, Nat.add_comm]

theorem value_append (l r : List Bool) : value (l ++ r) = 2 ^ r.length * value l + value r := by
  induction l with
  | nil => rw [List.nil_append, value, Nat.mul_zero, Nat.zero_add]
  | cons b l ih =>
      rw [List.cons_append, value, value, ih, List.length_append, Nat.pow_add]
      ring

theorem value_lt (l : List Bool) : value l < 2 ^ l.length := by
  induction l with
  | nil => exact Nat.one_pos
  | cons b l ih =>
      rw [value, List.length_cons, Nat.pow_succ]
      cases b
      · rw [Bool.toNat_false]
        omega
      · rw [Bool.toNat_true]
        omega

-- the bits after the first `k`
theorem drop_bits (k n x : Nat) : (bits n x).drop k = bits (n - k) x := by
  induction n generalizing k with
  | zero => rw [bits, List.drop_nil, Nat.zero_sub, bits]
  | succ n ih =>
      cases k with
      | zero => rw [List.drop_zero, Nat.sub_zero]
      | succ k => rw [bits, List.drop_succ_cons, ih, Nat.succ_sub_succ]

-- and the first `k`
theorem take_bits {k n : Nat} (x : Nat) (h : k ≤ n) : (bits n x).take k = bits k (x / 2 ^ (n - k)) := by
  induction k generalizing n with
  | zero => rw [List.take_zero, bits]
  | succ k ih =>
      cases n with
      | zero => exact absurd h (Nat.not_succ_le_zero k)
      | succ n =>
          have hle : k ≤ n := Nat.le_of_succ_le_succ h
          rw [bits, bits, List.take_succ_cons, ih hle, Nat.succ_sub_succ, Nat.testBit_div_two_pow,
            Nat.add_sub_of_le hle]

/-! ## Words -/

def stream (w : Nat) (words : List Nat) : List Bool := words.flatMap (bits w)

@[simp] theorem length_stream (w : Nat) (words : List Nat) :
    (stream w words).length = w * words.length := length_flatMap (length_bits w) words

theorem drop_stream {w : Nat} (words : List Nat) (k : Nat) :
    (stream w words).drop (w * k) = stream w (words.drop k) := drop_flatMap (length_bits w) words k

-- from bit `o` of word `k` on
theorem drop_stream_add {w k o x : Nat} {words : List Nat} (hx : words[k]? = some x) (ho : o ≤ w) :
    (stream w words).drop (w * k + o) = bits (w - o) x ++ stream w (words.drop (k + 1)) := by
  obtain ⟨hk, rfl⟩ := List.getElem?_eq_some_iff.mp hx
  rw [← List.drop_drop, drop_stream, List.drop_eq_getElem_cons hk, stream, List.flatMap_cons,
    List.drop_append_of_le_length (by rw [length_bits]; exact ho), drop_bits]
  rfl

/-- A field that ends in the word it begins in. -/
theorem field_within {w k o n x : Nat} {words : List Nat} (hx : words[k]? = some x)
    (hn : o + n ≤ w) :
    ((stream w words).drop (w * k + o)).take n = bits n (x / 2 ^ (w - (o + n))) := by
  rw [drop_stream_add hx (by omega), List.take_append_of_le_length (by rw [length_bits]; omega),
    take_bits _ (by omega), show w - o - n = w - (o + n) by omega]

/-- A field that ends in the word after it. -/
theorem field_across {w k o n x y : Nat} {words : List Nat} (hx : words[k]? = some x)
    (hy : words[k + 1]? = some y) (ho : o ≤ w) (hn : w ≤ o + n) (hfits : o + n ≤ 2 * w) :
    ((stream w words).drop (w * k + o)).take n =
      bits (w - o) x ++ bits (o + n - w) (y / 2 ^ (2 * w - (o + n))) := by
  obtain ⟨hk, hyk⟩ := List.getElem?_eq_some_iff.mp hy
  rw [drop_stream_add hx ho, List.take_append, length_bits,
    List.take_of_length_le (by rw [length_bits]; omega), List.drop_eq_getElem_cons hk, hyk, stream,
    List.flatMap_cons, List.take_append_of_le_length (by rw [length_bits]; omega),
    take_bits _ (by omega), show n - (w - o) = o + n - w by omega,
    show w - (o + n - w) = 2 * w - (o + n) by omega]

end BitField
