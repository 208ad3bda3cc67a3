/-
  Nemu.Monitor.Expr.Arithmetic

  Expressions of decimal literals, `+ - * /` and parentheses.  `expr` computes the value
  of the regrouped tree: precedence is that of C, but operators of one precedence
  associate to the right.
-/

import Mathlib.Data.List.TakeWhile
import Nemu.Monitor.Expr.Strings

namespace Nemu

open Outcome

namespace Ast

-- the operators of arithmetic
def isArithmetic : BinOp → Bool
  | .add | .sub | .mul | .div => true
  | _ => false

/-- Literals from 0 to 2147483647 of at most 31 digits, `+ - * /` and parentheses. -/
def arithmetic : Ast → Bool
  | operand kind str =>
      kind = .num && kind.spells str && decimal str ≤ 2147483647 && str.length ≤ 31
  | paren e => e.arithmetic
  | un _ _ => false
  | bin op a b => isArithmetic op && a.arithmetic && b.arithmetic

theorem spelled_arithmetic {e : Ast} (h : e.arithmetic = true) : e.spelled = true := by
  induction e with
  | operand kind str =>
      simp only [arithmetic, Bool.and_eq_true] at h
      exact h.1.1.2
  | paren e ih => exact ih h
  | un u e _ => exact absurd h Bool.false_ne_true
  | bin op a b iha ihb =>
      simp only [arithmetic, spelled, Bool.and_eq_true] at h ⊢
      exact ⟨iha h.1.2, ihb h.2⟩

/-! ## Regrouping -/

theorem arithmetic_attach {op : BinOp} {a b : Ast} (hop : isArithmetic op = true)
    (ha : a.arithmetic = true) (hb : b.arithmetic = true) : (attach a op b).arithmetic = true := by
  induction a with
  | bin o x y _ ihy =>
      simp only [arithmetic, Bool.and_eq_true] at ha
      rw [attach]
      split
      · simp only [arithmetic, Bool.and_eq_true]
        exact ⟨ha.1, ihy ha.2⟩
      · simp only [arithmetic, Bool.and_eq_true]
        exact ⟨⟨hop, ha⟩, hb⟩
  | un u e _ => exact absurd ha Bool.false_ne_true
  | _ =>
      simp only [attach, arithmetic, Bool.and_eq_true] at ha ⊢
      exact ⟨⟨hop, ha⟩, hb⟩

-- an arithmetic expression ends in a literal or a parenthesis
theorem splice_arithmetic {a : Ast} (h : Head) (b : Ast) (ha : a.arithmetic = true) :
    splice a h b = none := by
  induction a with
  | operand kind str =>
      simp only [arithmetic, Bool.and_eq_true, decide_eq_true_eq] at ha
      rw [ha.1.1.1]
      rfl
  | paren e _ => rfl
  | un u e _ => exact absurd ha Bool.false_ne_true
  | bin o x y _ ihy =>
      simp only [arithmetic, Bool.and_eq_true] at ha
      rw [splice, ihy ha.2]
      rfl

theorem arithmetic_regroup {e : Ast} (h : e.arithmetic = true) : e.regroup.arithmetic = true := by
  induction e with
  | operand kind str => exact h
  | paren e ih => exact ih h
  | un u e _ => exact absurd h Bool.false_ne_true
  | bin op a b iha ihb =>
      simp only [arithmetic, Bool.and_eq_true] at h
      have hnone : (op.asHead.bind fun h => splice a.regroup h b.regroup) = none := by
        rw [Option.bind_eq_none_iff]
        exact fun u _ => splice_arithmetic u b.regroup (iha h.1.2)
      rw [regroup, hnone]
      exact arithmetic_attach h.1.1 (iha h.1.2) (ihb h.2)

/-! ## Values -/

-- what `sscanf` reads of a literal
theorem scanInt_literal {str : List Char} (hspells : OperandKind.num.spells str = true)
    (hsmall : decimal str ≤ 2147483647) : scanInt str = BitVec.ofNat 32 (decimal str) := by
  simp only [OperandKind.spells, Bool.and_eq_true, List.all_eq_true] at hspells
  rw [scanInt, List.takeWhile_eq_self_iff.mpr hspells.2, min_eq_left (by omega)]

theorem first_arithmetic {e : Ast} (h : e.arithmetic = true) : e.first.type ≠ .bang := by
  induction e with
  | operand kind str => cases kind <;> exact TokenType.noConfusion
  | paren e _ => exact TokenType.noConfusion
  | un u e _ => exact absurd h Bool.false_ne_true
  | bin op a b iha _ =>
      simp only [arithmetic, Bool.and_eq_true] at h
      exact iha h.1.2

theorem applyOp_arithmetic {op : BinOp} (hop : isArithmetic op = true) (x y : BitVec 32) :
    applyOp op.symbol.token.type x y =
      match op.apply x y with
      | some v => .ok v
      | none => .error .divideError := by
  cases op with
  | div =>
      simp only [applyOp, BinOp.symbol, Symbol.token, BinOp.apply]
      split <;> rfl
  | add => rfl
  | sub => rfl
  | mul => rfl
  | _ => exact absurd hop Bool.false_ne_true

/-- On arithmetic the evaluator agrees with C on every tree; an undefined division is
    the fault of the host's divide instruction. -/
theorem read_arithmetic {env : ExprEnv} {e : Ast} (next : Except Abort (List Char))
    (h : e.arithmetic = true) :
    e.read env next =
      match e.value env with
      | some v => .ok v
      | none => .error .divideError := by
  induction e generalizing next with
  | operand kind str =>
      simp only [arithmetic, Bool.and_eq_true, decide_eq_true_eq] at h
      obtain ⟨⟨⟨rfl, hspells⟩, hsmall⟩, hlen⟩ := h
      have hcstr : (⟨.NUM, str⟩ : Token).cstr = .ok str := if_pos (Nat.lt_succ_of_le hlen)
      simp only [read, evalToken, OperandKind.type, hcstr, ok_bind,
        scanInt_literal hspells hsmall, value, OperandKind.value]
      rfl
  | paren e ih => exact ih _ h
  | un u e _ => exact absurd h Bool.false_ne_true
  | bin op a b iha ihb =>
      simp only [arithmetic, Bool.and_eq_true] at h
      obtain ⟨⟨hop, ha⟩, hb⟩ := h
      have hor : op ≠ .or ∧ op ≠ .and := by
        constructor <;> rintro rfl <;> exact absurd hop Bool.false_ne_true
      rw [read, if_neg (first_arithmetic ha), iha _ ha, ihb _ hb, value]
      cases ha' : a.value env with
      | none => rfl
      | some x =>
          cases hb' : b.value env with
          | none => simp [hor]
          | some y =>
              have hvalue : (do
                  let x ← some x
                  if op = .or ∧ x ≠ 0 then return 1
                  else if op = .and ∧ x = 0 then return 0
                  else
                    let y ← some y
                    op.apply x y) = op.apply x y := by simp [hor]
              rw [hvalue]
              exact applyOp_arithmetic hop x y

end Ast

/-! ## `expr` -/

theorem length_text_arithmetic {e : Ast} (h : e.arithmetic = true) :
    ∀ a ∈ e.lexemes, a.text.length ≤ STR_SIZE := by
  have hsymbol : ∀ sym : Symbol, sym.text.length ≤ STR_SIZE := by
    intro sym
    cases sym <;> decide
  induction e with
  | operand kind str =>
      intro a ha
      obtain rfl := List.mem_singleton.mp ha
      simp only [Ast.arithmetic, Bool.and_eq_true, decide_eq_true_eq] at h
      exact Nat.le_succ_of_le h.2
  | paren e ih =>
      intro a ha
      simp only [Ast.lexemes, List.mem_cons, List.mem_append, List.mem_nil_iff, or_false] at ha
      rcases ha with rfl | ha | rfl
      · exact hsymbol .lparen
      · exact ih h a ha
      · exact hsymbol .rparen
  | un u e _ => exact absurd h Bool.false_ne_true
  | bin op x y ihx ihy =>
      simp only [Ast.arithmetic, Bool.and_eq_true] at h
      intro a ha
      simp only [Ast.lexemes, List.mem_cons, List.mem_append] at ha
      rcases ha with ha | rfl | ha
      · exact ihx h.1.2 a ha
      · exact hsymbol op.symbol
      · exact ihy h.2 a ha

/-- `expr` returns the value of an arithmetic expression, however it is spaced, exactly when
    grouping its operators to the right within each precedence does not change it. -/
theorem expr_arithmetic_iff (env : ExprEnv) (e : Ast) (he : e.cExpr 9 = true)
    (harith : e.arithmetic = true) (s : List Char) (hs : Spaced e.lexemes s)
    (hcount : e.lexemes.length ≤ 31) (v : BitVec 32) (hv : e.value env = some v)
    (success : Option Bool) (t : TokenTable) :
    (∃ t', expr env s success t = .ok (v, success, t')) ↔ e.regroup.value env = some v := by
  have hroom : Room { t with nr_token := 0 } e.lexemes s := by
    left
    simp only [NR_TOKEN]
    omega
  obtain ⟨t', -, -, hexpr⟩ := expr_spaced env he (Ast.spelled_arithmetic harith) hs
    (length_text_arithmetic harith) hroom success
  rw [hexpr, Ast.read_arithmetic _ (Ast.arithmetic_regroup harith)]
  cases hread : e.regroup.value env with
  | none => simp
  | some w =>
      apply Iff.intro
      · rintro ⟨t₁, h⟩
        simp only [ok_bind, pure_eq_ok, Prod.mk.injEq] at h
        rw [h.1]
      · rintro h
        obtain rfl := Option.some.inj h
        exact ⟨t', rfl⟩

-- a - b
def subTree (a b : List Char) : Ast := .bin .sub (.operand .num a) (.operand .num b)

/-- `7 - 2` has one operator, so the grouping does not matter. -/
theorem expr_seven_sub_two :
    (∃ t', expr .zeroed ['7', '-', '2'] none .zeroed = .ok (5, none, t')) ↔
      (subTree ['7'] ['2']).regroup.value .zeroed = some 5 :=
  expr_arithmetic_iff .zeroed (subTree ['7'] ['2']) (by decide) (by decide) ['7', '-', '2']
    (spaced_texts _) (by decide) 5 rfl none .zeroed

/-- `1 - 1 - 1` is -1, and `expr` computes 1 - (1 - 1). -/
theorem expr_one_sub_one_sub_one :
    ∃ (e : Ast) (s : List Char), e.cExpr 9 = true ∧ e.arithmetic = true ∧ Spaced e.lexemes s ∧
      e.lexemes.length ≤ 31 ∧ e.value .zeroed = some (-1) ∧
      ¬ ∃ t', expr .zeroed s none .zeroed = .ok (-1, none, t') := by
  refine ⟨.bin .sub (subTree ['1'] ['1']) (.operand .num ['1']), ['1', '-', '1', '-', '1'],
    by decide, by decide, spaced_texts _, by decide, rfl, ?_⟩
  rintro ⟨t', h⟩
  have hone : (expr .zeroed ['1', '-', '1', '-', '1'] none .zeroed).map (·.1) = .ok 1 := rfl
  rw [h] at hone
  have hval : (-1 : BitVec 32) = 1 := Except.ok.inj hone
  exact absurd hval (by decide)

end Nemu
