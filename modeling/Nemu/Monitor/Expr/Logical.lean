/-
  Nemu.Monitor.Expr.Logical

  Numbers and registers under `|| && == != + - * /` and parentheses.  The evaluator binds
  these operators as C does, but `&&` computes `!=`: `make_token` stores its type.

  A register directly before `-` or `*` makes the expression fail; without one the
  evaluator computes the regrouped tree with `!=` for `&&`.
-/

import Nemu.Monitor.Expr.Understood

namespace Nemu

open Outcome

namespace Ast

/-- Numbers and registers, binary operators and parentheses. -/
def logical : Ast → Bool
  | operand kind _ => kind ≠ .var
  | paren e => e.logical
  | un _ _ => false
  | bin _ a b => a.logical && b.logical

/-- The tree as its operators are stored. -/
def stored : Ast → Ast
  | operand kind str => operand kind str
  | paren e => paren e.stored
  | un h e => un h e.stored
  | bin op a b => bin op.stored a.stored b.stored

/-- No register and no variable stands directly before a `-` or a `*`. -/
def nameFree : Ast → Bool
  | operand _ _ => true
  | paren e => e.nameFree
  | un _ e => e.nameFree
  | bin op a b => (op.asHead.isNone || a.last.type.endsOperand) && a.nameFree && b.nameFree

/-! ## Without names before operators -/

section NameFree

variable {env : ExprEnv} {op : BinOp} {h : Head} {a b e : Ast}

theorem last_regroup (e : Ast) : e.regroup.last = e.last := by
  induction e with
  | operand kind str => rfl
  | paren e _ => rfl
  | un h e ih => exact ih
  | bin op a b _ ihb =>
      rw [regroup]
      split
      · next e hs =>
          obtain ⟨h, -, hs⟩ := Option.bind_eq_some_iff.mp hs
          exact (tokens_splice hs).2.trans ihb
      · exact (last_attach ..).trans ihb

/-- Behind a number or a parenthesis an operator stays binary. -/
theorem regroup_bin (h : op.asHead.isNone = true ∨ a.last.type.endsOperand = true) :
    (bin op a b).regroup = attach a.regroup op b.regroup := by
  have hnone : (op.asHead.bind fun h => splice a.regroup h b.regroup) = none := by
    rcases h with hop | hends
    · rw [Option.isNone_iff_eq_none.mp hop]
      rfl
    · rw [Option.bind_eq_none_iff]
      intro h _
      have hsome := splice_isSome a.regroup h b.regroup
      rw [last_regroup, hends] at hsome
      exact Option.isNone_iff_eq_none.mp (by simpa using hsome)
  rw [regroup, hnone]

theorem logical_attach (ha : a.logical = true) (hb : b.logical = true) :
    (attach a op b).logical = true := by
  induction a with
  | bin o x y _ ihy =>
      simp only [logical, Bool.and_eq_true] at ha
      rw [attach]
      split
      · simp only [logical, Bool.and_eq_true]
        exact ⟨ha.1, ihy ha.2⟩
      · simp only [logical, Bool.and_eq_true]
        exact ⟨ha, hb⟩
  | un u e _ => exact absurd ha Bool.false_ne_true
  | _ =>
      simp only [attach, logical, Bool.and_eq_true] at ha ⊢
      exact ⟨ha, hb⟩

theorem logical_regroup (h : e.logical = true) (hfree : e.nameFree = true) :
    e.regroup.logical = true := by
  induction e with
  | operand kind str => exact h
  | paren e ih => exact ih h hfree
  | un u e _ => exact absurd h Bool.false_ne_true
  | bin op a b iha ihb =>
      simp only [logical, nameFree, Bool.and_eq_true, Bool.or_eq_true] at h hfree
      rw [regroup_bin hfree.1.1]
      exact logical_attach (iha h.1 hfree.1.2) (ihb h.2 hfree.2)

theorem first_logical (h : e.logical = true) : e.first.type ≠ .bang := by
  induction e with
  | operand kind str => cases kind <;> exact TokenType.noConfusion
  | paren e _ => exact TokenType.noConfusion
  | un u e _ => exact absurd h Bool.false_ne_true
  | bin op a b iha _ =>
      simp only [logical, Bool.and_eq_true] at h
      exact iha h.1

/-- Such a tree is understood as it is, but for `&&`, and evaluated everywhere. -/
theorem understood_logical (env : ExprEnv) (h : e.logical = true) (next : Except Abort (List Char)) :
    e.understood next = e.stored ∧ e.Evaluates env next := by
  induction e generalizing next with
  | operand kind str => exact ⟨rfl, trivial⟩
  | paren e ih =>
      obtain ⟨hsame, hev⟩ := ih h (.ok [])
      exact ⟨congrArg paren hsame, hev⟩
  | un u e _ => exact absurd h Bool.false_ne_true
  | bin op a b iha ihb =>
      simp only [logical, Bool.and_eq_true] at h
      obtain ⟨hsamea, heva⟩ := iha h.1 (.ok op.symbol.token.str)
      obtain ⟨hsameb, hevb⟩ := ihb h.2 next
      refine ⟨?_, .inr ⟨heva, hevb⟩⟩
      rw [understood, if_neg (first_logical h.1), hsamea, hsameb, stored]

end NameFree

/-! ## A register before an operator -/

section Broken

variable {env : ExprEnv} {op : BinOp} {h : Head} {a b e : Ast}

-- neither `!` nor a variable
def tameHead : Head → Bool
  | .not => false
  | .name .var _ => false
  | _ => true

-- a register
def regHead : Head → Bool
  | .name .reg _ => true
  | _ => false

/-- What the regrouping of such a tree can contain: no `!`, and no variable. -/
def tame : Ast → Bool
  | operand kind _ => kind ≠ .var
  | paren e => e.tame
  | un h e => tameHead h && e.tame
  | bin _ a b => a.tame && b.tame

/-- A register stands in front of an operand. -/
def broken : Ast → Bool
  | operand _ _ => false
  | paren e => e.broken
  | un h e => regHead h || e.broken
  | bin _ a b => a.broken || b.broken

theorem first_tame (ht : e.tame = true) : e.first.type ≠ .bang := by
  induction e with
  | operand kind str => cases kind <;> exact TokenType.noConfusion
  | paren e _ => exact TokenType.noConfusion
  | un u e _ =>
      simp only [tame, Bool.and_eq_true] at ht
      cases u with
      | not => exact absurd ht.1 Bool.false_ne_true
      | name kind str => cases kind <;> exact TokenType.noConfusion
      | _ => exact TokenType.noConfusion
  | bin o x y ihx _ =>
      simp only [tame, Bool.and_eq_true] at ht
      exact ihx ht.1

/-- A broken tree has no reading. -/
theorem read_broken (env : ExprEnv) (ht : e.tame = true) (hb : e.broken = true)
    (next : Except Abort (List Char)) (v : BitVec 32) : e.read env next ≠ .ok v := by
  induction e generalizing next v with
  | operand kind str => exact absurd hb Bool.false_ne_true
  | paren e ih => exact ih ht hb _ v
  | un u e ih =>
      rw [read, Ne, bind_eq_ok]
      rintro ⟨x, hx, hread⟩
      simp only [tame, Bool.and_eq_true] at ht
      by_cases hreg : regHead u = true
      · -- the token of a register is no operator
        cases u with
        | name kind str =>
            cases kind with
            | reg => cases hread
            | _ => cases hreg
        | _ => cases hreg
      · rw [broken, Bool.eq_false_iff.mpr hreg, Bool.false_or] at hb
        exact ih ht.2 hb _ x hx
  | bin o x y ihx ihy =>
      simp only [tame, broken, Bool.and_eq_true, Bool.or_eq_true] at ht hb
      rw [read, if_neg (first_tame ht.1), Ne, bind_eq_ok]
      rintro ⟨v₁, hv₁, h⟩
      obtain ⟨v₂, hv₂, -⟩ := bind_eq_ok.mp h
      rcases hb with hx | hy
      · exact ihx ht.1 hx _ v₁ hv₁
      · exact ihy ht.2 hy _ v₂ hv₂

theorem tame_pushHead (h : Head) (e : Ast) : (pushHead h e).tame = (tameHead h && e.tame) := by
  induction e with
  | bin o x y ihx _ => rw [pushHead, tame, ihx, tame, Bool.and_assoc]
  | _ => rfl

theorem broken_pushHead (h : Head) (e : Ast) :
    (pushHead h e).broken = (regHead h || e.broken) := by
  induction e with
  | bin o x y ihx _ => rw [pushHead, broken, ihx, broken, Bool.or_assoc]
  | _ => rfl

theorem tame_attach (a : Ast) (op : BinOp) (b : Ast) :
    (attach a op b).tame = (a.tame && b.tame) := by
  induction a with
  | bin o x y _ ihy =>
      rw [attach]
      split
      · rw [tame, ihy, tame, Bool.and_assoc]
      · rfl
  | _ => rfl

theorem broken_attach (a : Ast) (op : BinOp) (b : Ast) :
    (attach a op b).broken = (a.broken || b.broken) := by
  induction a with
  | bin o x y _ ihy =>
      rw [attach]
      split
      · rw [broken, ihy, broken, Bool.or_assoc]
      · rfl
  | _ => rfl

/-- Where the operator of a tame tree is taken as unary, a register stands before it. -/
theorem splice_tame (hs : splice a h b = some e) (hh : tameHead h = true) (ha : a.tame = true)
    (hb : b.tame = true) : e.tame = true ∧ e.broken = true := by
  induction a generalizing e with
  | operand kind str =>
      cases kind with
      | reg =>
          obtain rfl := Option.some.inj hs
          rw [tame_pushHead, tame_pushHead, broken_pushHead, hh, hb]
          exact ⟨rfl, rfl⟩
      | var => cases ha
      | num => cases hs
      | hex => cases hs
  | paren x _ => cases hs
  | un u x ih =>
      simp only [tame, Bool.and_eq_true] at ha
      obtain ⟨e', he', rfl⟩ := Option.map_eq_some_iff.mp hs
      obtain ⟨htame, hbroken⟩ := ih he' ha.2
      rw [tame_pushHead, broken_pushHead, htame, hbroken, ha.1, Bool.or_true]
      exact ⟨rfl, rfl⟩
  | bin o x y _ ihy =>
      simp only [tame, Bool.and_eq_true] at ha
      obtain ⟨e', he', rfl⟩ := Option.map_eq_some_iff.mp hs
      obtain ⟨htame, hbroken⟩ := ihy he' ha.2
      rw [tame, broken, htame, hbroken, ha.1, Bool.or_true]
      exact ⟨rfl, rfl⟩

theorem tameHead_asHead (hop : op.asHead = some h) : tameHead h = true := by
  cases op with
  | sub => obtain rfl := Option.some.inj hop; rfl
  | mul => obtain rfl := Option.some.inj hop; rfl
  | _ => cases hop

theorem tame_regroup (hl : e.logical = true) : e.regroup.tame = true := by
  induction e with
  | operand kind str => exact hl
  | paren e ih => exact ih hl
  | un u e _ => exact absurd hl Bool.false_ne_true
  | bin op a b iha ihb =>
      simp only [logical, Bool.and_eq_true] at hl
      rw [regroup]
      split
      · next e hs =>
          obtain ⟨h, hop, hs⟩ := Option.bind_eq_some_iff.mp hs
          exact (splice_tame hs (tameHead_asHead hop) (iha hl.1) (ihb hl.2)).1
      · rw [tame_attach, iha hl.1, ihb hl.2]
        rfl

/-- A register directly before `-` or `*` breaks the regrouped tree. -/
theorem broken_regroup (hl : e.logical = true) (hname : e.nameFree = false) :
    e.regroup.broken = true := by
  induction e with
  | operand kind str => cases hname
  | paren e ih => exact ih hl hname
  | un u e _ => exact absurd hl Bool.false_ne_true
  | bin op a b iha ihb =>
      simp only [logical, Bool.and_eq_true] at hl
      rw [regroup]
      split
      · next e hs =>
          obtain ⟨h, hop, hs⟩ := Option.bind_eq_some_iff.mp hs
          exact (splice_tame hs (tameHead_asHead hop) (tame_regroup hl.1) (tame_regroup hl.2)).2
      · next hnone =>
          rw [broken_attach]
          -- the operator is binary, so the name stands elsewhere
          have hop : (op.asHead.isNone || a.last.type.endsOperand) = true := by
            cases hhead : op.asHead with
            | none => rfl
            | some h =>
                rw [hhead, Option.bind_some] at hnone
                have hsome := splice_isSome a.regroup h b.regroup
                rw [hnone, last_regroup] at hsome
                simpa using hsome
          rw [nameFree, hop, Bool.true_and, Bool.and_eq_false_iff] at hname
          rcases hname with ha | hb
          · rw [iha hl.1 ha, Bool.true_or]
          · rw [ihb hl.2 hb, Bool.or_true]

end Broken

end Ast

/-! ## `expr` -/

/-- `expr` returns the value of such an expression, whatever its tokens and spacing, exactly
    when its tokens fit the table, no register stands directly before `-` or `*`, and
    grouping to the right and taking `&&` for `!=` leave the value. -/
theorem expr_logical_iff (env : ExprEnv) (e : Ast) (he : e.WellFormed) (hlogical : e.logical = true)
    (s : List Char) (hs : Spaced e.lexemes s) (v : BitVec 32) (hv : e.value env = some v)
    (success : Option Bool) (t : TokenTable) :
    Returns env s success t v ↔
      Fits e s ∧ e.nameFree = true ∧ e.regroup.stored.strict env = e.value env := by
  rw [returns_iff_read he hs, hv]
  refine and_congr_right fun _ => ?_
  cases hfree : e.nameFree with
  | true =>
      have hregroup := Ast.logical_regroup hlogical hfree
      obtain ⟨hsame, hev⟩ := Ast.understood_logical env hregroup
        (entryStr t s e.lexemes.length)
      rw [Ast.read_iff, hsame]
      exact ⟨fun h => ⟨rfl, h.2⟩, fun h => ⟨hev, h.2⟩⟩
  | false =>
      have hbroken := Ast.read_broken env (Ast.tame_regroup hlogical)
        (Ast.broken_regroup hlogical hfree) (entryStr t s e.lexemes.length) v
      exact ⟨fun h => absurd h hbroken, fun h => nomatch h.1⟩

/-- Where `!=` computes what `&&` should. -/
theorem stored_and_iff (x y : BitVec 32) :
    (BinOp.stored .and).apply x y = BinOp.apply x y .and ↔
      (x = 0 ∧ y = 0) ∨ (x ≠ 0 ∧ y ≠ 0 ∧ x ≠ y) := by
  have hbool : ∀ p q : Bool, boolInt p = boolInt q ↔ p = q := by decide
  show some (boolInt (x ≠ y)) = some (boolInt (x ≠ 0 && y ≠ 0)) ↔ _
  rw [Option.some.injEq, hbool, Bool.eq_iff_iff]
  simp only [Bool.and_eq_true, decide_eq_true_eq]
  by_cases hxy : x = y
  · subst hxy
    exact ⟨fun h => .inl (by grind), fun h => by grind⟩
  · apply Iff.intro
    · intro h
      exact .inr ⟨(h.mp hxy).1, (h.mp hxy).2, hxy⟩
    · rintro (⟨rfl, rfl⟩ | ⟨hx, hy, -⟩)
      · exact absurd rfl hxy
      · exact iff_of_true hxy ⟨hx, hy⟩

/-- `(A) op (B)` where A and B are themselves grouped as C groups them. -/
theorem returns_pair_iff {env : ExprEnv} {A B : Ast} (op : BinOp) (hA : A.WellFormed)
    (hB : B.WellFormed) (hlA : A.logical = true) (hlB : B.logical = true)
    (hfA : A.nameFree = true) (hfB : B.nameFree = true) {a b v : BitVec 32}
    (ha : A.regroup.stored.strict env = some a) (hb : B.regroup.stored.strict env = some b)
    {s : List Char} (hs : Spaced (Ast.bin op (.paren A) (.paren B)).lexemes s)
    {success : Option Bool} {t : TokenTable} :
    Returns env s success t v ↔
      Fits (.bin op (.paren A) (.paren B)) s ∧ op.stored.apply a b = some v := by
  have hlevel : op.level ≤ 9 := by cases op <;> decide
  have he : (Ast.bin op (.paren A) (.paren B)).WellFormed := by
    simp only [Ast.WellFormed, Ast.cExpr, Ast.spelled, Bool.and_eq_true, decide_eq_true_eq]
    exact ⟨⟨⟨hlevel, hA.1⟩, hB.1⟩, hA.2, hB.2⟩
  have hregroup : (Ast.bin op (.paren A) (.paren B)).regroup
      = .bin op (.paren A.regroup) (.paren B.regroup) := Ast.regroup_bin (.inr rfl)
  have hlogical : (Ast.bin op (.paren A.regroup) (.paren B.regroup)).logical = true := by
    simp only [Ast.logical, Bool.and_eq_true]
    exact ⟨Ast.logical_regroup hlA hfA, Ast.logical_regroup hlB hfB⟩
  obtain ⟨hsame, hev⟩ := Ast.understood_logical env hlogical
    (entryStr t s (Ast.bin op (.paren A) (.paren B)).lexemes.length)
  rw [returns_iff_read he hs, hregroup, Ast.read_iff, hsame]
  have hstrict : (Ast.bin op (.paren A.regroup) (.paren B.regroup)).stored.strict env
      = op.stored.apply a b := by
    rw [Ast.stored, Ast.strict, Ast.stored, Ast.strict, ha, Ast.stored, Ast.strict, hb]
    rfl
  rw [hstrict]
  exact and_congr_right fun _ => ⟨fun h => h.2, fun h => ⟨hev, h⟩⟩

-- (1)op(1)
def onePair (op : BinOp) : Ast :=
  .bin op (.paren (.operand .num ['1'])) (.paren (.operand .num ['1']))

/-- `(1)||(1)` is 1. -/
theorem expr_one_or_one :
    Returns .zeroed ['(', '1', ')', '|', '|', '(', '1', ')'] none .zeroed 1 ↔
      Fits (onePair .or) ['(', '1', ')', '|', '|', '(', '1', ')'] ∧ (onePair .or).nameFree = true ∧
        (onePair .or).regroup.stored.strict .zeroed = (onePair .or).value .zeroed :=
  expr_logical_iff .zeroed (onePair .or) ⟨by decide, by decide⟩ (by decide)
    ['(', '1', ')', '|', '|', '(', '1', ')'] (spaced_texts _) 1 rfl none .zeroed

/-- `(1)&&(1)` is 1, and `expr` computes 0. -/
theorem expr_one_and_one :
    ∃ (e : Ast) (s : List Char), e.WellFormed ∧ e.logical = true ∧ Spaced e.lexemes s ∧
      e.value .zeroed = some 1 ∧ ¬ Returns .zeroed s none .zeroed 1 := by
  refine ⟨onePair .and, ['(', '1', ')', '&', '&', '(', '1', ')'], ⟨by decide, by decide⟩, by decide,
    spaced_texts _, rfl, ?_⟩
  rintro ⟨t', h⟩
  have hzero : (expr .zeroed ['(', '1', ')', '&', '&', '(', '1', ')'] none .zeroed).map (·.1)
      = .ok 0 := rfl
  rw [h] at hzero
  have hval : (1 : BitVec 32) = 0 := Except.ok.inj hzero
  exact absurd hval (by decide)

end Nemu
