/-
  Nemu.Monitor.Expr.Classify

  Which `-` and `*` `expr` takes for unary operators.  Its loop asks for a number or a
  parenthesis before a binary one, so behind a register or a symbol name the operator
  becomes a unary one.
-/

import Nemu.Monitor.Expr.Understood

namespace Nemu

open Outcome

/-! ## The loop on a table -/

-- a register, or a symbol name
def TokenType.isName (type : TokenType) : Bool := type = .REG || type = .VAR

/-- `-` and `*`, which are told apart from unary operators. -/
def TokenType.isAmbiguous (type : TokenType) : Bool := type = .minus || type = .star

namespace TokenTable

/-- Every `-` and `*` behind the end of an operand is left alone, every other one has become
    the unary operator, and no other token has changed. -/
def RelabelRight (t : TokenTable) : Prop :=
  ∀ i : Nat, i < t.nr_token → (relabel t).tokens i =
    if i ≠ 0 ∧ ((t.tokens (i - 1)).type.endsOperand = true ∨ (t.tokens (i - 1)).type.isName = true)
    then t.tokens i else (t.tokens i).unary

/-- No register and no symbol name stands directly before a `-` or a `*`. -/
def NamesApart (t : TokenTable) : Prop :=
  ∀ i : Nat, i + 1 < t.nr_token → (t.tokens i).type.isName = true →
    (t.tokens (i + 1)).type.isAmbiguous = false

end TokenTable

section Relabel

variable {t : TokenTable} {tok : Token}

theorem unary_eq_self (h : tok.type.isAmbiguous = false) : tok.unary = tok := by
  simp only [TokenType.isAmbiguous, Bool.or_eq_false_iff, decide_eq_false_iff_not] at h
  unfold Token.unary
  split
  · next hstar => exact absurd hstar h.2
  · next hminus => exact absurd hminus h.1
  · rfl

theorem unary_ne_self (h : tok.type.isAmbiguous = true) : tok.unary ≠ tok := by
  simp only [TokenType.isAmbiguous, Bool.or_eq_true, decide_eq_true_eq] at h
  intro heq
  have htype := congrArg Token.type heq
  rcases h with hminus | hstar
  · rw [Token.unary, hminus] at htype
    cases htype
  · rw [Token.unary, hstar] at htype
    cases htype

-- becoming unary or not, `-` and `*` end no operand
theorem unary_endsOperand (tok : Token) :
    tok.unary.type.endsOperand = tok.type.endsOperand := by
  cases h : tok.type.isAmbiguous with
  | false => rw [unary_eq_self h]
  | true =>
      simp only [TokenType.isAmbiguous, Bool.or_eq_true, decide_eq_true_eq] at h
      rcases h with h | h
      · rw [Token.unary, h]
        rfl
      · rw [Token.unary, h]
        rfl

theorem afterOperand_iff (t : TokenTable) (i : Nat) :
    afterOperand t i = true ↔ i ≠ 0 ∧ (t.tokens (i - 1)).type.endsOperand = true := by
  rw [afterOperand, Bool.and_eq_true, decide_eq_true_eq]
  rfl

/-- The loop decides by the token before, as it was before the loop. -/
theorem relabelFrom_tokens (n : Nat) : ∀ (t : TokenTable) (i j : Nat),
    (relabelFrom t n i).tokens j =
      if i ≤ j ∧ j < i + n then
        if j ≠ 0 ∧ (t.tokens (j - 1)).type.endsOperand = true then t.tokens j
        else (t.tokens j).unary
      else t.tokens j := by
  induction n with
  | zero =>
      intro t i j
      rw [if_neg (by omega)]
      rfl
  | succ n ih =>
      intro t i j
      have hother : ∀ k : Int, k ≠ i → (relabelAt t i).tokens k = t.tokens k := by
        intro k hk
        rw [relabelAt_tokens, Function.update_of_ne hk]
      have hself : (relabelAt t i).tokens i
          = if i ≠ 0 ∧ (t.tokens (i - 1)).type.endsOperand = true then t.tokens i
            else (t.tokens i).unary := by
        rw [relabelAt_tokens, Function.update_self]
        simp only [afterOperand_iff]
      -- the token rewritten last ends an operand if it did before
      have hends : ∀ k : Int, ((relabelAt t i).tokens k).type.endsOperand
          = (t.tokens k).type.endsOperand := by
        intro k
        by_cases hk : k = i
        · rw [hk, hself]
          split
          · rfl
          · exact unary_endsOperand _
        · rw [hother k hk]
      rw [relabelFrom, ih, hends]
      by_cases hj : j = i
      · rw [if_neg (by omega), if_pos (by omega), hj, hself]
      · rw [hother j (by omega)]
        by_cases hin : i + 1 ≤ j ∧ j < i + 1 + n
        · have hin' : i ≤ j ∧ j < i + (n + 1) := by omega
          rw [if_pos hin, if_pos hin']
        · rw [if_neg hin, if_neg (by omega)]

theorem relabel_tokens (t : TokenTable) {j : Nat} (hj : j < t.nr_token) :
    (relabel t).tokens j =
      if j ≠ 0 ∧ (t.tokens (j - 1)).type.endsOperand = true then t.tokens j
      else (t.tokens j).unary := by
  have hin : 0 ≤ j ∧ j < 0 + t.nr_token := by omega
  rw [relabel, relabelFrom_tokens, if_pos hin]

/-- The loop is right exactly if names stand apart from `-` and `*`. -/
theorem relabelRight_iff (t : TokenTable) : t.RelabelRight ↔ t.NamesApart := by
  have hdisjoint : ∀ type : TokenType, type.isName = true → type.endsOperand = false := by
    intro type
    cases type <;> decide
  apply Iff.intro
  · intro hright i hi hname
    have hat := hright (i + 1) hi
    rw [relabel_tokens t hi] at hat
    push_cast at hat
    rw [Int.add_sub_cancel, hdisjoint _ hname, hname] at hat
    rw [if_neg (by simp), if_pos (by simp)] at hat
    by_contra hamb
    exact unary_ne_self (Bool.not_eq_false _ ▸ hamb) hat
  · intro hapart i hi
    rw [relabel_tokens t hi]
    by_cases hends : i ≠ 0 ∧ (t.tokens (i - 1)).type.endsOperand = true
    · rw [if_pos hends, if_pos ⟨hends.1, .inl hends.2⟩]
    · rw [if_neg hends]
      by_cases hname : i ≠ 0 ∧ (t.tokens (i - 1)).type.isName = true
      · rw [if_pos ⟨hname.1, .inr hname.2⟩]
        obtain ⟨k, rfl⟩ := Nat.exists_eq_succ_of_ne_zero hname.1
        have hk := hname.2
        push_cast at hk ⊢
        rw [Int.add_sub_cancel] at hk
        exact unary_eq_self (hapart k hi hk)
      · rw [if_neg]
        rintro ⟨h0, h | h⟩
        · exact hends ⟨h0, h⟩
        · exact hname ⟨h0, h⟩

end Relabel

/-! ## `expr` -/

/-- The loop leaves every token table as it should exactly if no register and no symbol name
    stands directly before a `-` or a `*`; and `expr` returns `L - R` or `L * R` exactly when
    the tokens fit the table, the parts that are evaluated have values, and the expression
    understood for it, operators taken as the loop left them, has its value. -/
theorem expr_classify_iff (env : ExprEnv) (toks : TokenTable) (op : BinOp) (L R : Ast)
    (hop : op = .sub ∨ op = .mul) (he : (Ast.bin op L R).WellFormed) (s : List Char)
    (hs : Spaced (Ast.bin op L R).lexemes s) (x y : BitVec 32) (hx : L.value env = some x)
    (hy : R.value env = some y) (success : Option Bool) (t : TokenTable) :
    (toks.RelabelRight ↔ toks.NamesApart) ∧
      (Returns env s success t (if op = .sub then x - y else x * y) ↔
        Fits (.bin op L R) s ∧
          (Ast.bin op L R).regroup.Evaluates env
            (entryStr t s (Ast.bin op L R).lexemes.length) ∧
          ((Ast.bin op L R).regroup.understood
            (entryStr t s (Ast.bin op L R).lexemes.length)).strict env
            = (Ast.bin op L R).value env) := by
  refine ⟨relabelRight_iff toks, ?_⟩
  have hvalue : (Ast.bin op L R).value env = some (if op = .sub then x - y else x * y) := by
    rw [Ast.value, hx, hy]
    rcases hop with rfl | rfl <;> rfl
  rw [hvalue]
  exact returns_iff_understood he hs

/-- `1-1`: the operator stays binary. -/
theorem expr_one_sub_one :
    (TokenTable.zeroed.RelabelRight ↔ TokenTable.zeroed.NamesApart) ∧
      (Returns .zeroed ['1', '-', '1'] none .zeroed 0 ↔
        Fits (.bin .sub (.operand .num ['1']) (.operand .num ['1'])) ['1', '-', '1'] ∧
          (Ast.bin .sub (.operand .num ['1']) (.operand .num ['1'])).regroup.Evaluates .zeroed
            (entryStr .zeroed ['1', '-', '1'] 3) ∧
          ((Ast.bin .sub (.operand .num ['1']) (.operand .num ['1'])).regroup.understood
            (entryStr .zeroed ['1', '-', '1'] 3)).strict .zeroed
            = (Ast.bin .sub (.operand .num ['1']) (.operand .num ['1'])).value .zeroed) :=
  expr_classify_iff .zeroed .zeroed .sub (.operand .num ['1']) (.operand .num ['1']) (.inl rfl)
    ⟨rfl, rfl⟩ ['1', '-', '1'] (spaced_texts _) 1 1 rfl rfl none .zeroed

/-- In `$eax-1` the `-` becomes a unary minus, and `expr` reaches `assert(0)`. -/
theorem expr_eax_sub_one :
    (∃ t, makeToken ['$', 'e', 'a', 'x', '-', '1'] .zeroed = .ok (true, t) ∧ ¬ t.RelabelRight) ∧
      ∃ e : Ast, e.WellFormed ∧ Spaced e.lexemes ['$', 'e', 'a', 'x', '-', '1'] ∧
        e.value .zeroed = some (-1) ∧
        ¬ Returns .zeroed ['$', 'e', 'a', 'x', '-', '1'] none .zeroed (-1) := by
  refine ⟨⟨_, rfl, ?_⟩, .bin .sub (.operand .reg ['$', 'e', 'a', 'x']) (.operand .num ['1']),
    ⟨rfl, rfl⟩, spaced_texts _, rfl, ?_⟩
  · intro hright
    have htype : TokenType.NEG = .minus := congrArg Token.type (hright 1 (by decide))
    cases htype
  · rintro ⟨t', h⟩
    have hassert : expr .zeroed ['$', 'e', 'a', 'x', '-', '1'] none .zeroed
        = .error .assertion := rfl
    rw [hassert] at h
    cases h

end Nemu
