/-
  Nemu.Lib.Recursion

  Recursive functions whose depth is bounded from outside.  `body` is one call, given the
  results of the calls it makes; `run` unrolls it `n` deep.

  `Descends` states that the calls get smaller.  Then a depth above the size of the
  argument is as good as any other (`run_stable`), so that the function is total, and what
  one call preserves holds of every result (`run_rule`).
-/

import Mathlib.Algebra.Group.Nat.Defs

namespace Recursion

variable {α β : Type _}

/-- The function at depth `n`; a call that is deeper still answers `stuck`. -/
def run (body : (α → β) → α → β) (stuck : β) : Nat → α → β
  | 0, _ => stuck
  | n + 1, a => body (run body stuck n) a

/-- The arguments in `dom` call only arguments in `dom` of smaller size: `calls f a b` means
    that `body` asks for `b` when called with `a`, where its calls answer as `f` does. -/
structure Descends (body : (α → β) → α → β) (stuck : β) (dom : α → Prop)
    (calls : (α → β) → α → α → Prop) (size : α → Nat) : Prop where
  reads : ∀ f g a, (∀ b, calls f a b → f b = g b) → body f a = body g a
  inside : ∀ n a b, dom a → calls (run body stuck n) a b → dom b
  drops : ∀ n a b, dom a → calls (run body stuck n) a b → size b < size a

section Descends

variable {body : (α → β) → α → β} {stuck : β} {dom : α → Prop}
  {calls : (α → β) → α → α → Prop} {size : α → Nat}

/-- Any two depths above the size give the same result. -/
theorem Descends.run_stable (h : Descends body stuck dom calls size) {n : Nat} :
    ∀ {m : Nat} {a : α}, dom a → size a < n → size a < m →
      run body stuck n a = run body stuck m a := by
  induction n with
  | zero => exact fun _ hn _ => absurd hn (Nat.not_lt_zero _)
  | succ n ih =>
      intro m a hdom hn hm
      cases m with
      | zero => exact absurd hm (Nat.not_lt_zero _)
      | succ m =>
          refine h.reads _ _ a (fun b hcall => ?_)
          have hsize : size b < size a := h.drops n a b hdom hcall
          exact ih (h.inside n a b hdom hcall) (by omega) (by omega)

/-- A property of results that every call keeps, if the calls it makes have it. -/
theorem Descends.run_rule (h : Descends body stuck dom calls size) {P : α → β → Prop}
    (hstep : ∀ f a, dom a → (∀ b, calls f a b → P b (f b)) → P a (body f a)) {n : Nat} :
    ∀ {a : α}, dom a → size a < n → P a (run body stuck n a) := by
  induction n with
  | zero => exact fun _ hn => absurd hn (Nat.not_lt_zero _)
  | succ n ih =>
      intro a hdom hn
      refine hstep _ a hdom (fun b hcall => ?_)
      have hsize : size b < size a := h.drops n a b hdom hcall
      exact ih (h.inside n a b hdom hcall) (by omega)

end Descends

end Recursion
