/-
  Nemu.Lib.DownStack

  A stack of numbers in memory that grows downwards from a base address, in slots of `n`
  bytes.

  `Holds m n base vs` says that the slots below `base` hold `vs`, the top first.  A push
  writes the slot below them, a pop leaves the rest, and a store elsewhere is not seen.
  Nothing here knows about any particular machine.
-/

import Nemu.Lib.ByteSeq

namespace DownStack

open ByteSeq

/-- The slots below `base` hold `vs`; the top is the lowest one. -/
def Holds (m : Nat → BitVec 8) (n base : Nat) : List Nat → Prop
  | [] => True
  | v :: vs => load m (base - n * (vs.length + 1)) n = v ∧ Holds m n base vs

section Rules

variable {m : Nat → BitVec 8} {n base v : Nat} {vs : List Nat}

/-- A store outside the slots leaves the stack alone. -/
theorem Holds.store {a k x : Nat} (h : Holds m n base vs) (hroom : n * vs.length ≤ base)
    (hout : a + k ≤ base - n * vs.length ∨ base ≤ a) : Holds (ByteSeq.store m a k x) n base vs := by
  induction vs with
  | nil => exact trivial
  | cons v vs ih =>
      rw [List.length_cons, Nat.mul_succ] at hroom hout
      refine ⟨?_, ih h.2 (by omega) (by omega)⟩
      rw [Nat.mul_succ, load_store_disjoint (by omega), ← Nat.mul_succ]
      exact h.1

/-- Pushing a number that fits a slot. -/
theorem Holds.push (h : Holds m n base vs) (hv : v < 256 ^ n) (hroom : n * (vs.length + 1) ≤ base) :
    Holds (ByteSeq.store m (base - n * (vs.length + 1)) n v) n base (v :: vs) := by
  refine ⟨?_, h.store (by rw [Nat.mul_succ] at hroom; omega) ?_⟩
  · rw [load_store_same, Nat.mod_eq_of_lt hv]
  · left
    rw [Nat.mul_succ] at hroom ⊢
    omega

end Rules

end DownStack
