/-
  Nemu.Monitor.Expr.Regroup

  The tokens of a C expression, after `expr` has told unary operators from binary ones,
  are the tokens of its regrouped tree, and the root of that tree is always the first
  operator of the highest priority.
-/

import Nemu.Monitor.Expr.Reading

namespace Nemu

namespace Ast

/-! ## Tokens of the regrouped tree -/

section Tokens

variable {h : Head} {op : BinOp} {a b e : Ast}

theorem tokens_pushHead (h : Head) (e : Ast) : (pushHead h e).tokens = h.token :: e.tokens := by
  induction e with
  | bin o x y ihx _ => rw [pushHead, tokens, ihx, tokens, List.cons_append]
  | _ => rfl

theorem last_pushHead (h : Head) (e : Ast) : (pushHead h e).last = e.last := by
  cases e <;> rfl

theorem tokens_attach (op : BinOp) (a b : Ast) :
    (attach a op b).tokens = a.tokens ++ op.symbol.token :: b.tokens := by
  induction a with
  | bin o x y _ ihy =>
      rw [attach]
      split
      · rw [tokens, ihy, tokens, List.append_assoc, List.cons_append]
      · rfl
  | _ => rfl

theorem last_attach (op : BinOp) (a b : Ast) : (attach a op b).last = b.last := by
  induction a with
  | bin o x y _ ihy =>
      rw [attach]
      split
      · exact ihy
      · rfl
  | _ => rfl

theorem tokens_splice (hs : splice a h b = some e) :
    e.tokens = a.tokens ++ h.token :: b.tokens ∧ e.last = b.last := by
  induction a generalizing e with
  | operand kind str =>
      cases kind with
      | num => exact nomatch hs
      | hex => exact nomatch hs
      | reg =>
          obtain rfl := Option.some.inj hs
          rw [tokens_pushHead, tokens_pushHead, last_pushHead, last_pushHead]
          exact ⟨rfl, rfl⟩
      | var =>
          obtain rfl := Option.some.inj hs
          rw [tokens_pushHead, tokens_pushHead, last_pushHead, last_pushHead]
          exact ⟨rfl, rfl⟩
  | paren x _ => exact nomatch hs
  | un u x ih =>
      obtain ⟨e', he', rfl⟩ := Option.map_eq_some_iff.mp hs
      rw [tokens_pushHead, last_pushHead, (ih he').1, (ih he').2]
      exact ⟨rfl, rfl⟩
  | bin o x y _ ihy =>
      obtain ⟨e', he', rfl⟩ := Option.map_eq_some_iff.mp hs
      rw [tokens, last, (ihy he').1, (ihy he').2, tokens, List.append_assoc, List.cons_append]
      exact ⟨rfl, rfl⟩

end Tokens

/-! ## The root of the regrouped tree -/

section Root

variable {h : Head} {op : BinOp} {a b e : Ast} {k : Nat}

theorem firstLoosest_pushHead (he : e.firstLoosest k = true) :
    (pushHead h e).firstLoosest k = true := by
  induction e generalizing k with
  | bin o x y ihx _ =>
      simp only [pushHead, firstLoosest, Bool.and_eq_true, decide_eq_true_eq] at he ⊢
      exact ⟨⟨he.1.1, ihx he.1.2⟩, he.2⟩
  | _ => exact he

theorem firstLoosest_attach (ha : a.firstLoosest op.pri = true) (hb : b.firstLoosest op.pri = true) :
    (attach a op b).firstLoosest op.pri = true := by
  induction a with
  | bin o x y _ ihy =>
      simp only [firstLoosest, Bool.and_eq_true, decide_eq_true_eq] at ha
      obtain ⟨⟨ho, hx⟩, hy⟩ := ha
      rw [attach]
      split
      · next heq =>
          simp only [firstLoosest, Bool.and_eq_true, decide_eq_true_eq]
          rw [heq] at hy
          exact ⟨⟨ho, hx⟩, by rw [heq]; exact ihy hy⟩
      · next hne =>
          simp only [firstLoosest, Bool.and_eq_true, decide_eq_true_eq]
          exact ⟨⟨le_refl _, ⟨by omega, hx⟩, hy⟩, hb⟩
  | operand kind str =>
      simp only [attach, firstLoosest, Bool.and_eq_true, decide_eq_true_eq]
      exact ⟨⟨le_refl _, trivial⟩, hb⟩
  | paren x _ =>
      simp only [attach, firstLoosest, Bool.and_eq_true, decide_eq_true_eq]
      exact ⟨⟨le_refl _, ha⟩, hb⟩
  | un u x _ =>
      simp only [attach, firstLoosest, Bool.and_eq_true, decide_eq_true_eq]
      exact ⟨⟨le_refl _, ha⟩, hb⟩

/-- `b` is an operand of `-` or `*`, so it has no operator looser than `*`. -/
theorem firstLoosest_splice (hs : splice a h b = some e) (hk : 5 ≤ k)
    (ha : a.firstLoosest k = true) (hb : b.firstLoosest 5 = true) : e.firstLoosest k = true := by
  induction a generalizing e k with
  | operand kind str =>
      have hb' := firstLoosest_mono hk hb
      cases kind with
      | num => exact nomatch hs
      | hex => exact nomatch hs
      | reg =>
          obtain rfl := Option.some.inj hs
          exact firstLoosest_pushHead (firstLoosest_pushHead hb')
      | var =>
          obtain rfl := Option.some.inj hs
          exact firstLoosest_pushHead (firstLoosest_pushHead hb')
  | paren x _ => exact nomatch hs
  | un u x ih =>
      obtain ⟨e', he', rfl⟩ := Option.map_eq_some_iff.mp hs
      have hx : x.firstLoosest 4 = true := ha
      exact firstLoosest_pushHead (ih he' hk (firstLoosest_mono (by omega) hx))
  | bin o x y _ ihy =>
      obtain ⟨e', he', rfl⟩ := Option.map_eq_some_iff.mp hs
      simp only [firstLoosest, Bool.and_eq_true, decide_eq_true_eq] at ha ⊢
      exact ⟨ha.1, ihy he' o.pri_ge ha.2⟩

end Root

end Ast

-- the priority that the evaluator has for a level of C
def levelPri (level : Nat) : Nat := if level = 8 then 7 else level

theorem BinOp.levelPri_level (op : BinOp) : levelPri op.level = op.pri := by cases op <;> rfl

theorem BinOp.levelPri_pred (op : BinOp) : levelPri (op.level - 1) ≤ op.pri := by
  cases op <;> decide

theorem levelPri_mono {i j : Nat} (h : i ≤ j) : levelPri i ≤ levelPri j := by
  simp only [levelPri]
  split <;> split <;> omega

namespace Ast

/-- The regrouped tree of a C expression has the first loosest operator at its root. -/
theorem firstLoosest_regroup {e : Ast} {level : Nat} (he : e.cExpr level = true) :
    e.regroup.firstLoosest (levelPri level) = true := by
  induction e generalizing level with
  | operand kind str => rfl
  | paren e ih => exact ih he
  | un h e ih =>
      simp only [cExpr, Bool.and_eq_true] at he
      exact ih he.2
  | bin op a b iha ihb =>
      simp only [cExpr, Bool.and_eq_true, decide_eq_true_eq] at he
      obtain ⟨⟨hop, ha⟩, hb⟩ := he
      have ha' : a.regroup.firstLoosest op.pri = true := by
        rw [← op.levelPri_level]
        exact iha ha
      have hb' := ihb hb
      have hlevel : op.pri ≤ levelPri level := by
        rw [← op.levelPri_level]
        exact levelPri_mono hop
      apply firstLoosest_mono hlevel
      rw [regroup]
      split
      · next e hs =>
          obtain ⟨h, hh, hs⟩ := Option.bind_eq_some_iff.mp hs
          have hb5 : b.regroup.firstLoosest 5 = true := by
            refine firstLoosest_mono ?_ hb'
            cases op with
            | sub => decide
            | mul => decide
            | _ => exact nomatch hh
          exact firstLoosest_splice hs op.pri_ge ha' hb5
      · exact firstLoosest_attach ha' (firstLoosest_mono op.levelPri_pred hb')

end Ast

end Nemu
