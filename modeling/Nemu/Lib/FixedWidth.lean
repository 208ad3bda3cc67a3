/-
  Nemu.Lib.FixedWidth

  Sequences of records of one width: where each of them begins.
-/

import Mathlib.Data.List.Basic

namespace FixedWidth

variable {α β : Type _} {f : α → List β} {w : Nat}

theorem length_flatMap (hf : ∀ x, (f x).length = w) (l : List α) :
    (l.flatMap f).length = w * l.length := by
  induction l with
  | nil => rfl
  | cons x l ih =>
      rw [List.flatMap_cons, List.length_append, hf, ih, List.length_cons, Nat.mul_succ, Nat.add_comm]

theorem drop_flatMap (hf : ∀ x, (f x).length = w) (l : List α) (k : Nat) :
    (l.flatMap f).drop (w * k) = (l.drop k).flatMap f := by
  induction k generalizing l with
  | zero => rw [Nat.mul_zero, List.drop_zero, List.drop_zero]
  | succ k ih =>
      cases l with
      | nil => rw [List.drop_nil, List.flatMap_nil, List.drop_nil]
      | cons x l =>
          rw [List.drop_succ_cons, ← ih, List.flatMap_cons, Nat.mul_succ, Nat.add_comm,
            ← List.drop_drop, List.drop_left' (hf x)]

/-- The `k`th record, whatever comes behind the sequence. -/
theorem take_drop_append (hf : ∀ x, (f x).length = w) {l : List α} {k : Nat} {x : α}
    (hx : l[k]? = some x) (rest : List β) :
    ((l.flatMap f ++ rest).drop (w * k)).take w = f x := by
  obtain ⟨hk, rfl⟩ := List.getElem?_eq_some_iff.mp hx
  have hle : w * k ≤ (l.flatMap f).length := by
    rw [length_flatMap hf]
    exact Nat.mul_le_mul_left w (Nat.le_of_lt hk)
  rw [List.drop_append_of_le_length hle, drop_flatMap hf, List.drop_eq_getElem_cons hk,
    List.flatMap_cons, List.append_assoc, List.take_left' (hf _)]

end FixedWidth
