/-
  Nemu.Monitor.Expr.Handled

  `expr` as the debugger calls it, with a null pointer for `success`: which strings it
  handles, and what becomes of every other one.
-/

import Nemu.Monitor.Expr.Understood

namespace Nemu

open Outcome Ast

section Result

variable {env : ExprEnv} {s : List Char} {t t' : TokenTable} {v : BitVec 32} {r : Option Bool}

/-- A null pointer is never written through. -/
theorem expr_success_none (h : expr env s none t = .ok (v, r, t')) : r = none := by
  obtain ⟨⟨ok, t₁⟩, -, h₁⟩ := bind_eq_ok.mp h
  cases ok with
  | false => exact nomatch h₁
  | true =>
      obtain ⟨w, -, h₂⟩ := bind_eq_ok.mp h₁
      obtain ⟨-, h₃⟩ := Prod.mk.inj (pure_eq_ok.mp h₂)
      exact (Prod.mk.inj h₃).1.symm

end Result

/-! ## Strings of tokens -/

end Nemu
