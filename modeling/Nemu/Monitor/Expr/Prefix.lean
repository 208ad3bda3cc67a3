/-
  Nemu.Monitor.Expr.Prefix

  Prefix operators.  `-` and `!` should take the value of their operand and take the
  decimal literal in the last token instead, which is 0 when that is a hexadecimal
  literal, a register or a parenthesis; `*` takes the register named two tokens on, if
  there is one; and an expression that begins with `!` ignores the binary operators that
  follow.
-/

import Nemu.Monitor.Expr.Understood

namespace Nemu

open Outcome

namespace Ast

/-! ## One operator in front of an expression -/

section Heads

variable {env : ExprEnv} {next : Except Abort (List Char)} {e : Ast} {x v : BitVec 32}

-- the literal of the last token, when its string ends in its array
theorem strict_lastLiteral (h : e.last.str.length ≤ 31) :
    e.lastLiteral.strict env = some (scanInt e.last.str) := by
  have hcstr : (⟨.NUM, e.last.str⟩ : Token).cstr = .ok e.last.str := if_pos (Nat.lt_succ_of_le h)
  show (evalToken env ⟨.NUM, e.last.str⟩).toOption = _
  rw [evalToken, hcstr]
  rfl

/-- `-e` is right iff the literal in the last token of `e` has the value of `e`. -/
theorem neg_right_iff (h : e.last.str.length ≤ 31) :
    ((un .neg e).understood next).strict env = some (-x) ↔ scanInt e.last.str = x := by
  rw [understood, strict_un (h := .neg) (fun _ => rfl), strict_lastLiteral h, Option.map_some,
    Option.some.injEq]
  exact BitVec.neg_inj

/-- `!e` is right iff that literal is zero just where `e` is. -/
theorem not_right_iff (h : e.last.str.length ≤ 31) :
    ((un .not e).understood next).strict env = some (boolInt (x = 0)) ↔
      (scanInt e.last.str = 0 ↔ x = 0) := by
  have hbool : ∀ p q : Bool, boolInt p = boolInt q ↔ p = q := by decide
  rw [understood, strict_un (h := .not) (fun _ => rfl), strict_lastLiteral h, Option.map_some,
    Option.some.injEq, hbool, decide_eq_decide]

/-- `*e` is right iff the word at the address taken is the one at the value of `e`. -/
theorem deref_right_iff {str : List Char} {y : BitVec 32}
    (hsecond : secondStr next e.tokens = .ok str) (hy : (e.understood next).strict env = some y) :
    ((un .deref e).understood next).strict env = some v ↔
      readWord env ((namedReg env.emu.cpu str).getD y) = .ok v := by
  rw [understood, hsecond]
  by_cases hreg : str ∈ regNames
  · obtain ⟨z, hz⟩ := Option.isSome_iff_exists.mp
      ((namedReg_isSome_iff env.emu.cpu str).mpr hreg)
    dsimp only
    rw [if_pos hreg, strict, strict_reg, hz]
    exact toOption_eq_some
  · dsimp only
    rw [if_neg hreg, strict, hy, namedReg_none hreg]
    exact toOption_eq_some

-- what `sscanf` finds in a last token that is no decimal literal
theorem scanInt_paren : scanInt (paren e).last.str = 0 := rfl

theorem scanInt_reg {name : List Char} : scanInt ('$' :: name) = 0 := rfl

theorem scanInt_hex {x : Char} {ds : List Char} (hx : x = 'x' ∨ x = 'X') :
    scanInt ('0' :: x :: ds) = 0 := by
  rcases hx with rfl | rfl <;> rfl

/-- An expression that begins with `!` is the negation of the literal in its last token. -/
theorem bang_first {op : BinOp} {a b : Ast} (ha : a.first.type = .bang)
    (h : b.last.str.length ≤ 31) :
    ((bin op a b).understood next).strict env
      = some (boolInt (scanInt b.last.str = 0)) := by
  rw [understood, if_pos ha, strict_un (h := .not) (fun _ => rfl), strict_lastLiteral h]
  rfl

end Heads

end Ast

/-! ## `expr` -/

/-- `expr` returns the value of a well-formed expression, prefix operators wherever they
    stand, exactly when its tokens fit the table, the parts that are evaluated have values,
    and the expression understood for it has its value. -/
theorem expr_prefix_iff (env : ExprEnv) (e : Ast) (he : e.WellFormed) (s : List Char)
    (hs : Spaced e.lexemes s) (v : BitVec 32) (hv : e.value env = some v)
    (success : Option Bool) (t : TokenTable) :
    Returns env s success t v ↔
      Fits e s ∧ e.regroup.Evaluates env (entryStr t s e.lexemes.length) ∧
        (e.regroup.understood (entryStr t s e.lexemes.length)).strict env = e.value env := by
  rw [hv]
  exact returns_iff_understood he hs

/-- `-5` is read as C reads it. -/
theorem expr_neg_five :
    Returns .zeroed ['-', '5'] none .zeroed (-5) ↔
      Fits (.un .neg (.operand .num ['5'])) ['-', '5'] ∧
        (Ast.un .neg (.operand .num ['5'])).regroup.Evaluates .zeroed
          (entryStr .zeroed ['-', '5'] 2) ∧
        ((Ast.un .neg (.operand .num ['5'])).regroup.understood
          (entryStr .zeroed ['-', '5'] 2)).strict .zeroed
          = (Ast.un .neg (.operand .num ['5'])).value .zeroed :=
  expr_prefix_iff .zeroed (.un .neg (.operand .num ['5'])) ⟨rfl, rfl⟩ ['-', '5'] (spaced_texts _)
    (-5) rfl none .zeroed

/-- `--1` is 1, and `expr` computes -1. -/
theorem expr_neg_neg_one :
    ∃ (e : Ast) (s : List Char), e.WellFormed ∧ Spaced e.lexemes s ∧ e.value .zeroed = some 1 ∧
      ¬ Returns .zeroed s none .zeroed 1 := by
  refine ⟨.un .neg (.un .neg (.operand .num ['1'])), ['-', '-', '1'], ⟨rfl, rfl⟩,
    spaced_texts _, rfl, ?_⟩
  rintro ⟨t', h⟩
  have hneg : (expr .zeroed ['-', '-', '1'] none .zeroed).map (·.1) = .ok (-1) := rfl
  rw [h] at hneg
  have hval : (1 : BitVec 32) = -1 := Except.ok.inj hneg
  exact absurd hval (by decide)

end Nemu
