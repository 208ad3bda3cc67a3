/-
  Nemu.Monitor.Expr.Reading

  What `eval` computes on the tokens of a tree whose root is always the first operator
  of the highest priority: the searches for parentheses and for the dominant operator
  follow the tree, so the value is a recursion over it.
-/

import Nemu.Monitor.Expr.Grammar

namespace Nemu

open Outcome

/-! ## The tokens of a tree in the table -/

section Holds

variable {t : TokenTable} {i : Int} {xs ys : List Token} {tok : Token}

theorem holds_append : t.Holds i (xs ++ ys) ↔ t.Holds i xs ∧ t.Holds (i + xs.length) ys := by
  induction xs generalizing i with
  | nil => simp [TokenTable.Holds]
  | cons x xs ih =>
      simp only [List.cons_append, TokenTable.Holds, ih, and_assoc, List.length_cons,
        Nat.cast_add, Nat.cast_one]
      rw [show i + 1 + (xs.length : Int) = i + (xs.length + 1) by omega]

theorem holds_cons : t.Holds i (tok :: xs) ↔ t.tokens i = tok ∧ t.Holds (i + 1) xs := Iff.rfl

end Holds

namespace Ast

variable {e : Ast}

theorem tokens_ne_nil (e : Ast) : e.tokens ≠ [] := by
  cases e <;> simp [tokens]

theorem firstLoosest_mono {i k : Nat} (hik : i ≤ k) (h : e.firstLoosest i = true) :
    e.firstLoosest k = true := by
  cases e with
  | bin op a b =>
      simp only [firstLoosest, Bool.and_eq_true, decide_eq_true_eq] at h ⊢
      exact ⟨⟨by omega, h.1.2⟩, h.2⟩
  | _ => exact h

theorem length_tokens_pos (e : Ast) : 0 < e.tokens.length :=
  List.length_pos_iff.mpr e.tokens_ne_nil

end Ast

/-! ## Which tokens the searches look at -/

/-- Neither parenthesis. -/
def TokenType.isInner (type : TokenType) : Bool := type ≠ .lparen && type ≠ .rparen

theorem OperandKind.type_isInner (kind : OperandKind) : kind.type.isInner = true := by
  cases kind <;> rfl

theorem OperandKind.tokenPri_type (kind : OperandKind) : tokenPri kind.type = 0 := by
  cases kind <;> rfl

theorem Head.token_isInner (h : Head) : h.token.type.isInner = true := by
  cases h with
  | name kind str => exact kind.type_isInner
  | _ => rfl

theorem Head.tokenPri_token (h : Head) : tokenPri h.token.type = 0 := by
  cases h with
  | name kind str => exact kind.tokenPri_type
  | _ => rfl

theorem BinOp.token_isInner (op : BinOp) : op.symbol.token.type.isInner = true := by
  cases op <;> rfl

theorem BinOp.tokenPri_token (op : BinOp) : tokenPri op.symbol.token.type = op.pri := by
  cases op <;> rfl

theorem BinOp.pri_ge (op : BinOp) : 5 ≤ op.pri := by cases op <;> decide

/-- The tokens of a tree are built from inner tokens by concatenation and parentheses. -/
theorem Ast.tokens_induction {P : List Token → Prop}
    (inner : ∀ tok : Token, tok.type.isInner = true → P [tok])
    (append : ∀ xs ys, P xs → P ys → P (xs ++ ys))
    (paren : ∀ xs, P xs → P (Symbol.lparen.token :: (xs ++ [Symbol.rparen.token]))) (e : Ast) :
    P e.tokens := by
  induction e with
  | operand kind str => exact inner _ kind.type_isInner
  | paren e ih => exact paren _ ih
  | un h e ih => exact append [h.token] _ (inner _ h.token_isInner) ih
  | bin op a b iha ihb =>
      exact append _ _ iha (append [op.symbol.token] _ (inner _ op.token_isInner) ihb)

/-! ## `domi_position` -/

section Domi

variable {t : TokenTable} {m : Nat} {j step op : Int} {pri : Nat}

/-- The loop ends with what it started with, with a position it passed, or with `-2`. -/
theorem domiLoop_rule {P : Int → Prop} (hneg : P (-2)) (m : Nat) : ∀ (j step : Int) (pri : Nat)
    (op : Int), P op → (∀ i, j ≤ i → i < j + m → P i) → P (domiLoop t m j step pri op) := by
  induction m with
  | zero => exact fun j step pri op hop _ => hop
  | succ m ih =>
      intro j step pri op hop hpos
      push_cast at hpos
      have hnext : ∀ step pri op', P op' → P (domiLoop t m (j + 1) step pri op') :=
        fun step pri op' h => ih (j + 1) step pri op' h
          (fun i hji hi => hpos i (by omega) (by omega))
      have hhere : P j := hpos j (Int.le_refl j) (by omega)
      rw [domiLoop]
      split_ifs
      all_goals first
        | exact hneg
        | exact hnext _ _ _ hop
        | exact hnext _ _ _ hhere

theorem domiLoop_inner (hinner : (t.tokens j).type.isInner = true) :
    domiLoop t (m + 1) j step pri op =
      if step = 0 ∧ pri < tokenPri (t.tokens j).type then
        domiLoop t m (j + 1) step (tokenPri (t.tokens j).type) j
      else domiLoop t m (j + 1) step pri op := by
  simp only [TokenType.isInner, Bool.and_eq_true, decide_eq_true_eq] at hinner
  simp only [domiLoop, if_neg hinner.1, if_neg hinner.2]
  by_cases hstep : step = 0
  · by_cases hpri : tokenPri (t.tokens j).type = 0
    · simp [hstep, hpri]
    · simp [hstep, hpri]
  · simp [hstep]

theorem domiLoop_lparen (htok : t.tokens j = Symbol.lparen.token) (hstep : 0 ≤ step) :
    domiLoop t (m + 1) j step pri op = domiLoop t m (j + 1) (step + 1) pri op := by
  have hne : step + 1 ≠ 0 := by omega
  simp [domiLoop, htok, Symbol.token, hne]

theorem domiLoop_rparen (htok : t.tokens j = Symbol.rparen.token) :
    domiLoop t (m + 1) j (step + 1) pri op = domiLoop t m (j + 1) step pri op := by
  simp only [domiLoop, htok, Symbol.token, reduceCtorEq, if_false, if_true,
    Int.add_sub_cancel, tokenPri]
  by_cases h0 : step = 0
  · simp [h0]
  · simp [h0]

/-- Inside a parenthesis nothing is chosen. -/
theorem domiLoop_inside (e : Ast) :
    ∀ (m : Nat) (j step : Int), 0 < step → t.Holds j e.tokens →
      domiLoop t (e.tokens.length + m) j step pri op =
        domiLoop t m (j + e.tokens.length) step pri op := by
  refine Ast.tokens_induction
    (P := fun toks => ∀ (m : Nat) (j step : Int), 0 < step → t.Holds j toks →
      domiLoop t (toks.length + m) j step pri op =
        domiLoop t m (j + toks.length) step pri op) ?inner ?append ?paren e
  case inner =>
      intro tok hinner m j step hstep hh
      have hstay : ¬ (step = 0 ∧ pri < tokenPri (t.tokens j).type) := by omega
      rw [List.length_singleton, Nat.add_comm, domiLoop_inner (by rw [hh.1]; exact hinner),
        if_neg hstay]
      rfl
  case append =>
      intro xs ys ihx ihy m j step hstep hh
      obtain ⟨hx, hy⟩ := holds_append.mp hh
      rw [List.length_append, Nat.add_assoc, ihx _ _ _ hstep hx, ihy _ _ _ hstep hy]
      push_cast
      rw [Int.add_assoc]
  case paren =>
      intro xs ih m j step hstep hh
      obtain ⟨hl, hh⟩ := holds_cons.mp hh
      obtain ⟨hx, hr, -⟩ := holds_append.mp hh
      have hlen : (Symbol.lparen.token :: (xs ++ [Symbol.rparen.token])).length + m =
          (xs.length + (m + 1)) + 1 := by
        simp only [List.length_cons, List.length_append, List.length_nil]
        omega
      rw [hlen, domiLoop_lparen hl hstep.le, ih _ _ _ (by omega) hx, domiLoop_rparen hr]
      simp only [List.length_cons, List.length_append, List.length_nil]
      congr 1
      push_cast
      omega

theorem domiLoop_paren (e : Ast) (m : Nat) (j : Int) (hh : t.Holds j (Ast.paren e).tokens) :
    domiLoop t ((Ast.paren e).tokens.length + m) j 0 pri op =
      domiLoop t m (j + (Ast.paren e).tokens.length) 0 pri op := by
  obtain ⟨hl, hh⟩ := holds_cons.mp hh
  obtain ⟨hx, hr, -⟩ := holds_append.mp hh
  have hlen : (Ast.paren e).tokens.length + m = (e.tokens.length + (m + 1)) + 1 := by
    simp only [Ast.tokens, List.length_cons, List.length_append, List.length_nil]
    omega
  rw [hlen, domiLoop_lparen hl (le_refl 0), domiLoop_inside e _ _ _ (by omega) hx,
    domiLoop_rparen hr]
  simp only [Ast.tokens, List.length_cons, List.length_append, List.length_nil]
  congr 1
  push_cast
  omega

theorem domiLoop_head {tok : Token} (m : Nat) (j : Int) (htok : t.tokens j = tok)
    (hinner : tok.type.isInner = true) (hpri : tokenPri tok.type = 0) :
    domiLoop t (m + 1) j step pri op = domiLoop t m (j + 1) step pri op := by
  have hstay : ¬ (step = 0 ∧ pri < tokenPri (t.tokens j).type) := by
    rw [htok, hpri]
    omega
  rw [domiLoop_inner (by rw [htok]; exact hinner), if_neg hstay]

/-- A tree of operators no looser than the one found, or of none, changes nothing. -/
theorem domiLoop_tighter {e : Ast} {k : Nat} (he : e.firstLoosest k = true)
    (hk : k ≤ pri ∨ k < 5) (m : Nat) (j : Int) (hh : t.Holds j e.tokens) :
    domiLoop t (e.tokens.length + m) j 0 pri op = domiLoop t m (j + e.tokens.length) 0 pri op := by
  induction e generalizing k m j with
  | operand kind str =>
      rw [Nat.add_comm]
      exact domiLoop_head m j hh.1 kind.type_isInner kind.tokenPri_type
  | paren e _ => exact domiLoop_paren e m j hh
  | un h e ih =>
      have hlen : (Ast.un h e).tokens.length + m = (e.tokens.length + m) + 1 := by
        simp only [Ast.tokens, List.length_cons]
        omega
      rw [hlen, domiLoop_head _ j hh.1 h.token_isInner h.tokenPri_token,
        ih he (.inr (by decide)) m _ hh.2]
      simp only [Ast.tokens, List.length_cons]
      congr 1
      push_cast
      omega
  | bin o a b iha ihb =>
      simp only [Ast.firstLoosest, Bool.and_eq_true, decide_eq_true_eq] at he
      obtain ⟨⟨ho, ha⟩, hb⟩ := he
      obtain ⟨hha, htok, hhb⟩ := holds_append.mp hh
      have hpri := o.pri_ge
      have hstay : ¬ ((0 : Int) = 0 ∧ pri < tokenPri (t.tokens (j + a.tokens.length)).type) := by
        rw [htok, o.tokenPri_token]
        omega
      have hlen : (Ast.bin o a b).tokens.length + m =
          a.tokens.length + ((b.tokens.length + m) + 1) := by
        simp only [Ast.tokens, List.length_append, List.length_cons]
        omega
      rw [hlen, iha ha (by omega) _ _ hha, domiLoop_inner (by rw [htok]; exact o.token_isInner),
        if_neg hstay, ihb hb (by omega) _ _ hhb]
      simp only [Ast.tokens, List.length_append, List.length_cons]
      congr 1
      push_cast
      omega

/-- A tree leaves a priority within its bound. -/
theorem domiLoop_bound {e : Ast} {k : Nat} (he : e.firstLoosest k = true) (hpri : pri ≤ k)
    (m : Nat) (j : Int) (hh : t.Holds j e.tokens) :
    ∃ pri' op', pri' ≤ k ∧
      domiLoop t (e.tokens.length + m) j 0 pri op =
        domiLoop t m (j + e.tokens.length) 0 pri' op' := by
  induction e generalizing k m j pri op with
  | operand kind str => exact ⟨pri, op, hpri, domiLoop_tighter (k := 0) rfl (.inr (by decide)) m j hh⟩
  | paren e _ => exact ⟨pri, op, hpri, domiLoop_paren e m j hh⟩
  | un h e ih =>
      have he' : (Ast.un h e).firstLoosest 0 = true := he
      exact ⟨pri, op, hpri, domiLoop_tighter he' (.inr (by decide)) m j hh⟩
  | bin o a b iha ihb =>
      simp only [Ast.firstLoosest, Bool.and_eq_true, decide_eq_true_eq] at he
      obtain ⟨⟨ho, ha⟩, hb⟩ := he
      obtain ⟨hha, htok, hhb⟩ := holds_append.mp hh
      have hlen : (Ast.bin o a b).tokens.length + m =
          a.tokens.length + ((b.tokens.length + m) + 1) := by
        simp only [Ast.tokens, List.length_append, List.length_cons]
        omega
      have hend : j + (Ast.bin o a b).tokens.length =
          j + a.tokens.length + 1 + b.tokens.length := by
        simp only [Ast.tokens, List.length_append, List.length_cons]
        push_cast
        omega
      obtain ⟨pri₁, op₁, hpri₁, hrun₁⟩ :=
        iha (Ast.firstLoosest_mono (by omega) ha) hpri ((b.tokens.length + m) + 1) j hha
      have hinner : (t.tokens (j + a.tokens.length)).type.isInner = true := by
        rw [htok]
        exact o.token_isInner
      rw [hlen, hend, hrun₁, domiLoop_inner hinner, htok, o.tokenPri_token]
      split
      · exact ihb (Ast.firstLoosest_mono ho hb) ho m _ hhb
      · exact ihb (Ast.firstLoosest_mono ho hb) hpri₁ m _ hhb

/-- The dominant operator of a binary node is its own. -/
theorem domiPosition_bin {o : BinOp} {a b : Ast} {p q : Int} {k : Nat}
    (he : (Ast.bin o a b).firstLoosest k = true) (hh : t.Holds p (Ast.bin o a b).tokens)
    (hq : q + 1 = p + (Ast.bin o a b).tokens.length) :
    domiPosition t p q = p + a.tokens.length := by
  simp only [Ast.firstLoosest, Bool.and_eq_true, decide_eq_true_eq] at he
  obtain ⟨⟨-, ha⟩, hb⟩ := he
  obtain ⟨hha, htok, hhb⟩ := holds_append.mp hh
  have hpri := o.pri_ge
  have hlen : (q + 1 - p).toNat = a.tokens.length + ((b.tokens.length + 0) + 1) := by
    simp only [Ast.tokens, List.length_append, List.length_cons] at hq
    omega
  obtain ⟨pri₁, op₁, hpri₁, hrun₁⟩ := domiLoop_bound ha (Nat.zero_le _) _ p hha
  have hinner : (t.tokens (p + a.tokens.length)).type.isInner = true := by
    rw [htok]
    exact o.token_isInner
  have hfound : (0 : Int) = 0 ∧ pri₁ < o.pri := ⟨rfl, by omega⟩
  rw [domiPosition, hlen, hrun₁, domiLoop_inner hinner, htok, o.tokenPri_token, if_pos hfound]
  exact domiLoop_tighter hb (.inl (le_refl _)) 0 _ hhb

/-- Behind a head there is no operator to be found. -/
theorem domiPosition_un {h : Head} {e : Ast} {p q : Int} (he : e.firstLoosest 4 = true)
    (hh : t.Holds p (Ast.un h e).tokens) (hq : q + 1 = p + (Ast.un h e).tokens.length) :
    domiPosition t p q = -1 := by
  have he' : (Ast.un h e).firstLoosest 0 = true := he
  have hlen : (q + 1 - p).toNat = (Ast.un h e).tokens.length + 0 := by omega
  rw [domiPosition, hlen, domiLoop_tighter he' (.inl (le_refl _)) 0 p hh]
  rfl

end Domi

/-! ## `check_parentheses` -/

section Parens

variable {t : TokenTable} {n : Nat} {a : Int} {j k : Nat}

theorem parensLoop_inner (hinner : (t.tokens a).type.isInner = true) :
    parensLoop t (n + 1) a j k = if n ≠ 0 ∧ j = k then false else parensLoop t n (a + 1) j k := by
  simp only [TokenType.isInner, Bool.and_eq_true, decide_eq_true_eq] at hinner
  simp only [parensLoop, if_neg hinner.1, if_neg hinner.2]

theorem parensLoop_lparen (htok : t.tokens a = Symbol.lparen.token) (hjk : k ≤ j) :
    parensLoop t (n + 1) a j k = parensLoop t n (a + 1) (j + 1) k := by
  have hne : ¬ (n ≠ 0 ∧ j + 1 = k) := by omega
  simp only [parensLoop, htok, Symbol.token, if_true, reduceCtorEq, if_false, if_neg hne]

theorem parensLoop_rparen (htok : t.tokens a = Symbol.rparen.token) :
    parensLoop t (n + 1) a j k =
      if n ≠ 0 ∧ j = k + 1 then false else parensLoop t n (a + 1) j (k + 1) := by
  simp only [parensLoop, htok, Symbol.token, if_true, reduceCtorEq, if_false]

/-- Inside a parenthesis the counters stay apart. -/
theorem parensLoop_inside (e : Ast) :
    ∀ (n : Nat) (a : Int) (j k : Nat), k < j → t.Holds a e.tokens →
      ∃ d, parensLoop t (e.tokens.length + n) a j k =
        parensLoop t n (a + e.tokens.length) (j + d) (k + d) := by
  refine Ast.tokens_induction
    (P := fun toks => ∀ (n : Nat) (a : Int) (j k : Nat), k < j → t.Holds a toks →
      ∃ d, parensLoop t (toks.length + n) a j k =
        parensLoop t n (a + toks.length) (j + d) (k + d)) ?inner ?append ?paren e
  case inner =>
      intro tok hinner n a j k hjk hh
      refine ⟨0, ?_⟩
      rw [List.length_singleton, Nat.add_comm, parensLoop_inner (by rw [hh.1]; exact hinner),
        if_neg (by omega)]
      rfl
  case append =>
      intro xs ys ihx ihy n a j k hjk hh
      obtain ⟨hx, hy⟩ := holds_append.mp hh
      obtain ⟨d₁, h₁⟩ := ihx (ys.length + n) a j k hjk hx
      obtain ⟨d₂, h₂⟩ := ihy n (a + xs.length) (j + d₁) (k + d₁) (by omega) hy
      refine ⟨d₁ + d₂, ?_⟩
      rw [List.length_append, Nat.add_assoc, h₁, h₂]
      congr 1
      · push_cast
        omega
      · omega
      · omega
  case paren =>
      intro xs ih n a j k hjk hh
      obtain ⟨hl, hh⟩ := holds_cons.mp hh
      obtain ⟨hx, hr, -⟩ := holds_append.mp hh
      obtain ⟨d, hd⟩ := ih (n + 1) (a + 1) (j + 1) k (by omega) hx
      have hlen : (Symbol.lparen.token :: (xs ++ [Symbol.rparen.token])).length + n =
          (xs.length + (n + 1)) + 1 := by
        simp only [List.length_cons, List.length_append, List.length_nil]
        omega
      refine ⟨d + 1, ?_⟩
      rw [hlen, parensLoop_lparen hl hjk.le, hd, parensLoop_rparen hr, if_neg (by omega)]
      simp only [List.length_cons, List.length_append, List.length_nil]
      congr 1
      · push_cast
        omega
      · omega

/-- The counters meet before the end if more follows a tree. -/
theorem parensLoop_more (e : Ast) (hn : n ≠ 0) (hh : t.Holds a e.tokens) :
    parensLoop t (e.tokens.length + n) a j j = false := by
  induction e generalizing n with
  | operand kind str =>
      rw [Ast.tokens, List.length_singleton, Nat.add_comm,
        parensLoop_inner (by rw [hh.1]; exact kind.type_isInner), if_pos ⟨hn, rfl⟩]
  | paren e _ =>
      obtain ⟨hl, hh⟩ := holds_cons.mp hh
      obtain ⟨hx, hr, -⟩ := holds_append.mp hh
      obtain ⟨d, hd⟩ := parensLoop_inside e (n + 1) (a + 1) (j + 1) j (by omega) hx
      have hlen : (Ast.paren e).tokens.length + n = (e.tokens.length + (n + 1)) + 1 := by
        simp only [Ast.tokens, List.length_cons, List.length_append, List.length_nil]
        omega
      rw [hlen, parensLoop_lparen hl (le_refl j), hd, parensLoop_rparen hr,
        if_pos ⟨hn, by omega⟩]
  | un h e _ =>
      have hlen : (Ast.un h e).tokens.length + n = (e.tokens.length + n) + 1 := by
        simp only [Ast.tokens, List.length_cons]
        omega
      rw [hlen, parensLoop_inner (by rw [hh.1]; exact h.token_isInner), if_pos ⟨by omega, rfl⟩]
  | bin o x y ihx _ =>
      have hlen : (Ast.bin o x y).tokens.length + n = x.tokens.length + (y.tokens.length + 1 + n) := by
        simp only [Ast.tokens, List.length_append, List.length_cons]
        omega
      rw [hlen]
      exact ihx (by omega) (holds_append.mp hh).1

theorem checkParentheses_paren {e : Ast} {p q : Int} (hh : t.Holds p (Ast.paren e).tokens)
    (hq : q + 1 = p + (Ast.paren e).tokens.length) : checkParentheses t p q = true := by
  obtain ⟨hl, hh⟩ := holds_cons.mp hh
  obtain ⟨hx, hr, -⟩ := holds_append.mp hh
  obtain ⟨d, hd⟩ := parensLoop_inside e 1 (p + 1) 1 0 (by omega) hx
  have hlen : (q + 1 - p).toNat = (e.tokens.length + 1) + 1 := by
    simp only [Ast.tokens, List.length_cons, List.length_append, List.length_nil] at hq
    omega
  have houter : (t.tokens p).type = .lparen ∨ (t.tokens q).type = .rparen := .inl (by rw [hl]; rfl)
  rw [checkParentheses, if_pos houter, hlen, parensLoop_lparen hl (le_refl 0), hd,
    parensLoop_rparen hr, if_neg (by omega), parensLoop]
  simp [Nat.add_comm]

theorem checkParentheses_bin {o : BinOp} {x y : Ast} {p q : Int}
    (hh : t.Holds p (Ast.bin o x y).tokens) (hq : q + 1 = p + (Ast.bin o x y).tokens.length) :
    checkParentheses t p q = false := by
  have hlen : (q + 1 - p).toNat = x.tokens.length + (y.tokens.length + 1) := by
    simp only [Ast.tokens, List.length_append, List.length_cons] at hq
    omega
  rw [checkParentheses, hlen, parensLoop_more x (by omega) (holds_append.mp hh).1, ite_self]

theorem checkParentheses_un {h : Head} {e : Ast} {p q : Int}
    (hh : t.Holds p (Ast.un h e).tokens) (hq : q + 1 = p + (Ast.un h e).tokens.length) :
    checkParentheses t p q = false := by
  have hpos := e.length_tokens_pos
  have hlen : (q + 1 - p).toNat = e.tokens.length + 1 := by
    simp only [Ast.tokens, List.length_cons] at hq
    omega
  have hmeet : e.tokens.length ≠ 0 ∧ (0 : Nat) = 0 := ⟨by omega, rfl⟩
  rw [checkParentheses, hlen, parensLoop_inner (by rw [hh.1]; exact h.token_isInner),
    if_pos hmeet, ite_self]

end Parens

/-! ## `eval` -/

namespace Ast

def first : Ast → Token
  | operand kind str => ⟨kind.type, str⟩
  | paren _ => Symbol.lparen.token
  | un h _ => h.token
  | bin _ a _ => a.first

def last : Ast → Token
  | operand kind str => ⟨kind.type, str⟩
  | paren _ => Symbol.rparen.token
  | un _ e => e.last
  | bin _ _ b => b.last

end Ast

-- the string of the second token of a list, or of the one that follows it
def secondStr (next : Except Abort (List Char)) : List Token → Except Abort (List Char)
  | _ :: tok :: _ => .ok tok.str
  | _ => next

-- `sscanf` of the last token's string, as a result of `!` and of a leading `-`
def scanLast (f : BitVec 32 → BitVec 32) (e : Ast) : Except Abort (BitVec 32) := do
  let str ← e.last.cstr
  return f (scanInt str)

/-- What stands before an operand, once `val` is computed from the tokens behind it. -/
def Head.read (env : ExprEnv) (next : Except Abort (List Char)) (e : Ast) (val : BitVec 32) :
    Head → Except Abort (BitVec 32)
  | .neg => scanLast (- ·) e
  | .not => scanLast (fun x => boolInt (x = 0)) e
  -- a variable in front of an operand is taken for a dereference
  | .deref | .name .var _ => do
      let str ← secondStr next e.tokens
      readWord env ((namedReg env.emu.cpu str).getD val)
  | .name _ _ => .error .assertion

/-- The value that the evaluator gives a tree; `next` is the string of the token behind
    it, which the dereference of a single token looks at. -/
def Ast.read (env : ExprEnv) (next : Except Abort (List Char)) : Ast → Except Abort (BitVec 32)
  | operand kind str => evalToken env ⟨kind.type, str⟩
  | paren e => e.read env (.ok Symbol.rparen.token.str)
  | un h e => do
      let val ← e.read env next
      h.read env next e val
  | bin op a b =>
      if a.first.type = .bang then scanLast (fun x => boolInt (x = 0)) b
      else do
        let val1 ← a.read env (.ok op.symbol.token.str)
        let val2 ← b.read env next
        applyOp op.symbol.token.type val1 val2

section Eval

variable {env : ExprEnv} {t : TokenTable}

theorem holds_first (e : Ast) {p : Int} (hh : t.Holds p e.tokens) : t.tokens p = e.first := by
  induction e with
  | operand kind str => exact hh.1
  | paren e _ => exact hh.1
  | un h e _ => exact hh.1
  | bin op a b iha _ => exact iha (holds_append.mp hh).1

theorem holds_last (e : Ast) {p q : Int} (hh : t.Holds p e.tokens)
    (hq : q + 1 = p + e.tokens.length) : t.tokens q = e.last := by
  induction e generalizing p with
  | operand kind str =>
      simp only [Ast.tokens, List.length_singleton, Nat.cast_one] at hq
      obtain rfl : q = p := by omega
      exact hh.1
  | paren e _ =>
      obtain ⟨-, hr, -⟩ := holds_append.mp (holds_cons.mp hh).2
      simp only [Ast.tokens, List.length_cons, List.length_append, List.length_nil] at hq
      obtain rfl : q = p + 1 + e.tokens.length := by
        push_cast at hq
        omega
      exact hr
  | un h e ih =>
      refine ih hh.2 ?_
      simp only [Ast.tokens, List.length_cons] at hq
      push_cast at hq
      omega
  | bin op a b _ ihb =>
      refine ihb (holds_append.mp hh).2.2 ?_
      simp only [Ast.tokens, List.length_append, List.length_cons] at hq
      push_cast at hq
      omega

/-- The string two tokens behind a head. -/
theorem strAt_second (toks : List Token) {p q : Int} (hh : t.Holds (p + 1) toks)
    (hq : q + 1 = p + 1 + toks.length) (hne : toks ≠ []) (hroom : q < NR_TOKEN) :
    strAt t (p + 2) = secondStr (strAt t (q + 1)) toks := by
  match toks, hne with
  | [x], _ =>
      simp only [List.length_singleton, Nat.cast_one] at hq
      rw [hq, show p + 1 + 1 = p + 2 by omega]
      rfl
  | x :: y :: rest, _ =>
      simp only [List.length_cons] at hq
      push_cast at hq
      have htok : t.tokens (p + 2) = y := by
        rw [← hh.2.1]
        congr 1
        omega
      rw [strAt, if_pos (by omega), htok]
      rfl

/-- A call with the second index before the first. -/
theorem eval_empty {fuel : Nat} {p q : Int} (hfuel : fuel ≠ 0) (hpq : q < p) :
    eval env t fuel p q = .error .assertion := by
  obtain ⟨n, rfl⟩ := Nat.exists_eq_succ_of_ne_zero hfuel
  rw [eval, if_pos hpq]

/-- A call on part of the tokens that returns is on at least one of them. -/
theorem eval_ok_le {fuel : Nat} {p q : Int} {v : BitVec 32} (h : eval env t fuel p q = .ok v) :
    p ≤ q := by
  by_contra hlt
  cases fuel with
  | zero => exact nomatch h
  | succ fuel =>
      rw [eval_empty (Nat.succ_ne_zero fuel) (by omega)] at h
      exact nomatch h

theorem strAt_tokens {i : Int} {tok : Token} (htok : t.tokens i = tok) (hi : i < NR_TOKEN) :
    strAt t i = .ok tok.str := by
  rw [strAt, if_pos hi, htok]

/-- `eval` on the tokens of a tree. -/
theorem eval_tokens {e : Ast} {k : Nat} (he : e.firstLoosest k = true) (fuel : Nat) {p q : Int}
    (hp : 0 ≤ p) (hh : t.Holds p e.tokens) (hq : q + 1 = p + e.tokens.length)
    (hroom : q < NR_TOKEN) (hfuel : e.tokens.length ≤ fuel) :
    eval env t fuel p q = e.read env (strAt t (q + 1)) := by
  induction e generalizing k fuel p q with
  | operand kind str =>
      simp only [Ast.tokens, List.length_singleton, Nat.cast_one] at hq hfuel
      obtain rfl : q = p := by omega
      obtain ⟨n, rfl⟩ := Nat.exists_eq_succ_of_ne_zero (by omega : fuel ≠ 0)
      rw [eval, if_neg (by omega), if_pos rfl, hh.1]
      rfl
  | paren e ih =>
      have hcheck := checkParentheses_paren hh hq
      have hpos := e.length_tokens_pos
      obtain ⟨hl, hh⟩ := holds_cons.mp hh
      obtain ⟨hx, hr, -⟩ := holds_append.mp hh
      simp only [Ast.tokens, List.length_cons, List.length_append, List.length_nil] at hq hfuel
      push_cast at hq
      obtain ⟨n, rfl⟩ := Nat.exists_eq_succ_of_ne_zero (by omega : fuel ≠ 0)
      have hnext : strAt t (q - 1 + 1) = .ok Symbol.rparen.token.str := by
        refine strAt_tokens ?_ (by omega)
        rw [← hr]
        congr 1
        omega
      rw [eval, if_neg (by omega), if_neg (by omega), if_pos hcheck,
        ih he n (by omega) hx (by omega) (by omega) (by omega), hnext]
      rfl
  | un h e ih =>
      have hcheck := checkParentheses_un hh hq
      have hdomi := domiPosition_un he hh hq
      have hlast := holds_last _ hh hq
      have hpos := e.length_tokens_pos
      obtain ⟨hhead, hx⟩ := holds_cons.mp hh
      simp only [Ast.tokens, List.length_cons] at hq hfuel
      push_cast at hq
      obtain ⟨n, rfl⟩ := Nat.exists_eq_succ_of_ne_zero (by omega : fuel ≠ 0)
      have hval := ih he n (by omega) hx (by omega) hroom (by omega)
      have hempty : eval env t n p (-1 - 1) = .error .assertion := eval_empty (by omega) (by omega)
      have hsecond := strAt_second e.tokens hx (by omega) e.tokens_ne_nil hroom
      rw [eval, if_neg (by omega), if_neg (by omega), hcheck, if_neg Bool.false_ne_true, hdomi,
        if_pos rfl, hval, Ast.read]
      refine congrArg _ (funext fun val => ?_)
      rw [hhead, hlast, hempty, evalPoint, hsecond]
      cases h with
      | neg => rfl
      | deref => rfl
      | not => rfl
      | name kind str => cases kind <;> rfl
  | bin op a b iha ihb =>
      have hcheck := checkParentheses_bin hh hq
      have hdomi := domiPosition_bin he hh hq
      have hfirst := holds_first _ hh
      have hlast := holds_last _ hh hq
      have hposa := a.length_tokens_pos
      have hposb := b.length_tokens_pos
      obtain ⟨hxa, hop, hxb⟩ := holds_append.mp hh
      simp only [Ast.firstLoosest, Bool.and_eq_true, decide_eq_true_eq] at he
      obtain ⟨⟨-, ha⟩, hb⟩ := he
      simp only [Ast.tokens, List.length_append, List.length_cons] at hq hfuel
      push_cast at hq
      obtain ⟨n, rfl⟩ := Nat.exists_eq_succ_of_ne_zero (by omega : fuel ≠ 0)
      have hval1 := iha ha n hp hxa (by omega : p + a.tokens.length - 1 + 1 = _) (by omega) (by omega)
      have hval2 := ihb hb n (by omega) hxb (by omega : q + 1 = _) hroom (by omega)
      have hnext : strAt t (p + a.tokens.length - 1 + 1) = .ok op.symbol.token.str :=
        strAt_tokens (by rw [← hop]; congr 1; omega) (by omega)
      rw [eval, if_neg (by omega), if_neg (by omega), hcheck, if_neg Bool.false_ne_true, hdomi,
        if_neg (by omega), hval1, hval2, hnext, hfirst, hlast, hop]
      rfl

end Eval

end Nemu
