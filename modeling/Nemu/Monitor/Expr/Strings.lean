/-
  Nemu.Monitor.Expr.Strings

  `expr` on a string that spells a C expression: the tokenizer records its lexemes,
  the loop of `expr` turns them into the tokens of the regrouped tree, and `eval` reads
  that tree.
-/

import Nemu.Monitor.Expr.Regroup

namespace Nemu

open Outcome

/-! ## Unary and binary operators -/

-- the types after which `-` and `*` are binary
def TokenType.endsOperand (type : TokenType) : Bool :=
  type = .NUM || type = .HEX || type = .rparen

-- `*` and `-` with no operand before them
def Token.unary (tok : Token) : Token :=
  match tok.type with
  | .star => { tok with type := .POINT }
  | .minus => { tok with type := .NEG }
  | _ => tok

/-- The loop of `expr` on a list of tokens; `after` tells whether an operand ends before
    the first. -/
def relabelTokens : Bool → List Token → List Token
  | _, [] => []
  | true, tok :: toks => tok :: relabelTokens tok.type.endsOperand toks
  | false, tok :: toks => tok.unary :: relabelTokens tok.unary.type.endsOperand toks

theorem length_relabelTokens (after : Bool) (toks : List Token) :
    (relabelTokens after toks).length = toks.length := by
  induction toks generalizing after with
  | nil => rfl
  | cons tok toks ih => cases after <;> rw [relabelTokens, List.length_cons, ih, List.length_cons]

section Relabel

variable {t : TokenTable}

theorem relabelAt_tokens (t : TokenTable) (i : Nat) :
    (relabelAt t i).tokens = Function.update t.tokens i
      (if afterOperand t i then t.tokens i else (t.tokens i).unary) := by
  cases hafter : afterOperand t i with
  | true => simp [relabelAt, hafter]
  | false =>
      rw [if_neg Bool.false_ne_true]
      by_cases hstar : (t.tokens i).type = .star
      · simp [relabelAt, hafter, hstar, TokenTable.set, Token.unary]
      · by_cases hminus : (t.tokens i).type = .minus
        · simp [relabelAt, hafter, hminus, TokenTable.set, Token.unary]
        · have hsame : (t.tokens i).unary = t.tokens i := by
            unfold Token.unary
            split
            · next h => exact absurd h hstar
            · next h => exact absurd h hminus
            · rfl
          simp [relabelAt, hstar, hminus, hsame]

theorem relabelAt_nr_token (t : TokenTable) (i : Nat) :
    (relabelAt t i).nr_token = t.nr_token := by
  simp only [relabelAt]
  split <;> split <;> rfl

theorem relabelFrom_nr_token (t : TokenTable) (n i : Nat) :
    (relabelFrom t n i).nr_token = t.nr_token := by
  induction n generalizing t i with
  | zero => rfl
  | succ n ih => rw [relabelFrom, ih, relabelAt_nr_token]

theorem afterOperand_succ (t : TokenTable) (i : Nat) :
    afterOperand t (i + 1) = (t.tokens i).type.endsOperand := by
  simp [afterOperand, TokenType.endsOperand]

theorem holds_congr {t' : TokenTable} {toks : List Token} {i : Int}
    (hsame : ∀ j, i ≤ j → t.tokens j = t'.tokens j) (hh : t.Holds i toks) : t'.Holds i toks := by
  induction toks generalizing i with
  | nil => trivial
  | cons tok toks ih =>
      exact ⟨(hsame i (le_refl i)).symm.trans hh.1, ih (fun j hj => hsame j (by omega)) hh.2⟩

/-- The loop on the tokens of a list. -/
theorem relabelFrom_holds (toks : List Token) (i : Nat) (t : TokenTable)
    (hh : t.Holds i toks) :
    (relabelFrom t toks.length i).Holds i (relabelTokens (afterOperand t i) toks) ∧
      ∀ j : Int, j < i ∨ i + toks.length ≤ j →
        (relabelFrom t toks.length i).tokens j = t.tokens j := by
  induction toks generalizing i t with
  | nil => exact ⟨trivial, fun _ _ => rfl⟩
  | cons tok toks ih =>
      obtain ⟨htok, hh⟩ := hh
      have hothers : ∀ j : Int, j ≠ i → (relabelAt t i).tokens j = t.tokens j := by
        intro j hj
        rw [relabelAt_tokens, Function.update_of_ne hj]
      have hself : (relabelAt t i).tokens i = if afterOperand t i then tok else tok.unary := by
        rw [relabelAt_tokens, Function.update_self, htok]
      have hh' : (relabelAt t i).Holds ((i + 1 : Nat) : Int) toks := by
        push_cast
        exact holds_congr (fun j hj => (hothers j (by omega)).symm) hh
      obtain ⟨hrest, hsame⟩ := ih (i + 1) (relabelAt t i) hh'
      rw [afterOperand_succ, hself] at hrest
      have hi := hsame i (.inl (by push_cast; omega))
      rw [hself] at hi
      push_cast at hrest
      refine ⟨?_, fun j hj => ?_⟩
      · cases hafter : afterOperand t i with
        | true =>
            rw [hafter, if_pos rfl] at hi hrest
            exact ⟨hi, hrest⟩
        | false =>
            rw [hafter, if_neg Bool.false_ne_true] at hi hrest
            exact ⟨hi, hrest⟩
      · rw [List.length_cons] at hj
        push_cast at hj
        rw [List.length_cons, relabelFrom, hsame j (by push_cast; omega), hothers j (by omega)]

end Relabel

namespace Ast

theorem relabelTokens_inner (after : Bool) {tok : Token} (toks : List Token)
    (hstar : tok.type ≠ .star) (hminus : tok.type ≠ .minus) :
    relabelTokens after (tok :: toks) = tok :: relabelTokens tok.type.endsOperand toks := by
  cases after with
  | true => rfl
  | false =>
      have hsame : tok.unary = tok := by
        unfold Token.unary
        split
        · next h => exact absurd h hstar
        · next h => exact absurd h hminus
        · rfl
      rw [relabelTokens, hsame]

/-- A tree that ends in a number or a parenthesis is not spliced, any other is. -/
theorem splice_isSome (a : Ast) (h : Head) (b : Ast) :
    (splice a h b).isSome = !a.last.type.endsOperand := by
  induction a with
  | operand kind str => cases kind <;> rfl
  | paren x _ => rfl
  | un u x ih => rw [splice, Option.isSome_map, ih, last]
  | bin o x y _ ihy => rw [splice, Option.isSome_map, ihy, last]

-- the tokens behind an operator that stays binary
theorem tokens_regroup_bin {op : BinOp} {a b : Ast}
    (hnone : (op.asHead.bind fun h => splice a.regroup h b.regroup) = none) (rest : List Token) :
    a.regroup.tokens ++ (Lexeme.symbol op.symbol).token ::
        (b.regroup.tokens ++ relabelTokens b.regroup.last.type.endsOperand rest) =
      (bin op a b).regroup.tokens ++
        relabelTokens (bin op a b).regroup.last.type.endsOperand rest := by
  rw [regroup, hnone]
  show _ = (attach a.regroup op b.regroup).tokens ++
    relabelTokens (attach a.regroup op b.regroup).last.type.endsOperand rest
  rw [tokens_attach, last_attach, List.append_assoc]
  rfl

-- and behind one that becomes unary
theorem tokens_regroup_splice {op : BinOp} {h : Head} {a b e : Ast} (hhead : op.asHead = some h)
    (hs : splice a.regroup h b.regroup = some e) (rest : List Token) :
    a.regroup.tokens ++ h.token ::
        (b.regroup.tokens ++ relabelTokens b.regroup.last.type.endsOperand rest) =
      (bin op a b).regroup.tokens ++
        relabelTokens (bin op a b).regroup.last.type.endsOperand rest := by
  have hregroup : (bin op a b).regroup = e := by
    rw [regroup, hhead, Option.bind_some, hs]
  rw [hregroup, (tokens_splice hs).1, (tokens_splice hs).2, List.append_assoc]
  rfl

theorem splice_eq_none {a : Ast} (hends : a.last.type.endsOperand = true) (h : Head) (b : Ast) :
    splice a h b = none := by
  have hsome := splice_isSome a h b
  rw [hends, Bool.not_true] at hsome
  exact Option.isNone_iff_eq_none.mp (Option.isSome_eq_false_iff.mp hsome)

-- only `-` and `*` can become unary
theorem asHead_eq_none {op : BinOp} (h : op.asHead = none) :
    (Lexeme.symbol op.symbol).token.type ≠ .star ∧
      (Lexeme.symbol op.symbol).token.type ≠ .minus := by
  cases op with
  | sub => cases h
  | mul => cases h
  | _ => exact ⟨TokenType.noConfusion, TokenType.noConfusion⟩

theorem asHead_eq_some {op : BinOp} {h : Head} (hhead : op.asHead = some h) :
    (Lexeme.symbol op.symbol).token.unary = h.token ∧ h.token.type.endsOperand = false := by
  cases op with
  | sub => obtain rfl := Option.some.inj hhead; exact ⟨rfl, rfl⟩
  | mul => obtain rfl := Option.some.inj hhead; exact ⟨rfl, rfl⟩
  | _ => cases hhead

/-- The tokens of a C expression become those of its regrouped tree. -/
theorem relabelTokens_cExpr {e : Ast} {level : Nat} (he : e.cExpr level = true)
    (rest : List Token) :
    relabelTokens false (e.lexemes.map Lexeme.token ++ rest) =
      e.regroup.tokens ++ relabelTokens e.regroup.last.type.endsOperand rest := by
  induction e generalizing level rest with
  | operand kind str =>
      have htype : kind.type ≠ .star ∧ kind.type ≠ .minus := by cases kind <;> decide
      exact relabelTokens_inner false rest htype.1 htype.2
  | paren e ih =>
      have hl : Lexeme.token (.symbol .lparen) = Symbol.lparen.token := rfl
      have hr : Lexeme.token (.symbol .rparen) = Symbol.rparen.token := rfl
      rw [lexemes, List.map_cons, List.map_append, List.map_singleton, List.cons_append,
        List.append_assoc, List.singleton_append, hl, hr,
        relabelTokens_inner _ _ (by decide) (by decide)]
      show Symbol.lparen.token :: relabelTokens false _ = _
      rw [ih he, relabelTokens_inner _ _ (by decide) (by decide), regroup, tokens,
        List.cons_append, List.append_assoc]
      rfl
  | un h e ih =>
      simp only [cExpr, Bool.and_eq_true] at he
      have hhead : h.lexeme.token.unary = h.token ∧ h.token.type.endsOperand = false := by
        cases h with
        | name kind str => exact absurd he.1 Bool.false_ne_true
        | _ => exact ⟨rfl, rfl⟩
      rw [lexemes, List.map_cons, List.cons_append, relabelTokens, hhead.1, hhead.2, ih he.2]
      rfl
  | bin op a b iha ihb =>
      simp only [cExpr, Bool.and_eq_true, decide_eq_true_eq] at he
      rw [lexemes, List.map_append, List.map_cons, List.append_assoc, List.cons_append,
        iha he.1.2]
      have hop : (Lexeme.symbol op.symbol).token.type.endsOperand = false := by
        cases op <;> rfl
      -- the operator stays binary behind a number or a parenthesis
      cases hends : a.regroup.last.type.endsOperand with
      | true =>
          have hnone : (op.asHead.bind fun h => splice a.regroup h b.regroup) = none := by
            rw [Option.bind_eq_none_iff]
            exact fun h _ => splice_eq_none hends h b.regroup
          rw [relabelTokens, hop, ihb he.2]
          exact tokens_regroup_bin hnone rest
      | false =>
          cases hhead : op.asHead with
          | none =>
              have hnone : (op.asHead.bind fun h => splice a.regroup h b.regroup) = none := by
                rw [hhead, Option.bind_none]
              obtain ⟨hstar, hminus⟩ := asHead_eq_none hhead
              rw [relabelTokens_inner _ _ hstar hminus, hop, ihb he.2]
              exact tokens_regroup_bin hnone rest
          | some h =>
              have hsome := splice_isSome a.regroup h b.regroup
              rw [hends] at hsome
              obtain ⟨e, he'⟩ := Option.isSome_iff_exists.mp hsome
              obtain ⟨hunary, hends'⟩ := asHead_eq_some hhead
              rw [relabelTokens, hunary, hends', ihb he.2]
              exact tokens_regroup_splice hhead he' rest

/-! ## The lexemes of a C expression -/

theorem lexemes_ne_nil (e : Ast) : e.lexemes ≠ [] := by
  cases e <;> simp [lexemes]

theorem length_lexemes (e : Ast) : e.lexemes.length = e.tokens.length := by
  induction e with
  | operand kind str => rfl
  | paren e ih => simp [lexemes, tokens, ih]
  | un h e ih => simp [lexemes, tokens, ih]
  | bin op a b iha ihb => simp [lexemes, tokens, iha, ihb]

theorem valid_lexemes {e : Ast} {level : Nat} (he : e.cExpr level = true) (hs : e.spelled = true) :
    ∀ a ∈ e.lexemes, a.valid = true := by
  induction e generalizing level with
  | operand kind str =>
      intro a ha
      obtain rfl := List.mem_singleton.mp ha
      exact hs
  | paren e ih =>
      intro a ha
      simp only [lexemes, List.mem_cons, List.mem_append, List.mem_nil_iff, or_false] at ha
      rcases ha with rfl | ha | rfl
      · rfl
      · exact ih he hs a ha
      · rfl
  | un h e ih =>
      simp only [cExpr, Bool.and_eq_true] at he
      intro a ha
      simp only [lexemes, List.mem_cons] at ha
      rcases ha with rfl | ha
      · cases h with
        | name kind str => exact absurd he.1 Bool.false_ne_true
        | _ => rfl
      · exact ih he.2 hs a ha
  | bin op x y ihx ihy =>
      simp only [cExpr, spelled, Bool.and_eq_true] at he hs
      intro a ha
      simp only [lexemes, List.mem_cons, List.mem_append] at ha
      rcases ha with ha | rfl | ha
      · exact ihx he.1.2 hs.1 a ha
      · rfl
      · exact ihy he.2 hs.2 a ha

/-- No C expression begins with a sign that `!` could join. -/
theorem symbol_joins_head {e : Ast} {level : Nat} (he : e.cExpr level = true)
    (hs : e.spelled = true) (sym : Symbol) :
    ∀ a ∈ e.lexemes.head?, (Lexeme.symbol sym).joins a = true := by
  induction e generalizing level with
  | operand kind str =>
      intro a ha
      obtain rfl := Option.some.inj ha
      cases str with
      | nil => cases sym <;> rfl
      | cons c cs =>
          have hc : c ≠ '=' := by
            rintro rfl
            exact absurd (Lexeme.spells_chars hs '=' (List.mem_cons_self ..)) (by decide)
          cases sym with
          | bang => simpa [Lexeme.joins, Lexeme.stops, Lexeme.text] using hc
          | _ => rfl
  | paren e _ =>
      intro a ha
      obtain rfl := Option.some.inj ha
      cases sym <;> rfl
  | un h e _ =>
      simp only [cExpr, Bool.and_eq_true] at he
      intro a ha
      obtain rfl := Option.some.inj ha
      cases h with
      | name kind str => exact absurd he.1 Bool.false_ne_true
      | _ => cases sym <;> rfl
  | bin op x y ihx _ =>
      simp only [cExpr, spelled, Bool.and_eq_true] at he hs
      intro a ha
      rw [lexemes, List.head?_append_of_ne_nil _ x.lexemes_ne_nil] at ha
      exact ihx he.1.2 hs.1 a ha

/-- An operand or a parenthesis ends before any sign. -/
theorem last_joins_symbol (e : Ast) (sym : Symbol) :
    ∀ a ∈ e.lexemes.getLast?, a.joins (.symbol sym) = true := by
  have hoperand : ∀ kind str, (Lexeme.operand kind str).joins (.symbol sym) = true := by
    intro kind str
    cases sym <;> rfl
  induction e with
  | operand kind str =>
      intro a ha
      obtain rfl := Option.some.inj ha
      exact hoperand kind str
  | paren e _ =>
      intro a ha
      rw [lexemes, ← List.cons_append, List.getLast?_append_of_ne_nil _ (List.cons_ne_nil _ _)] at ha
      obtain rfl := Option.some.inj ha
      cases sym <;> rfl
  | un h e ih =>
      intro a ha
      rw [lexemes, List.getLast?_cons_of_ne_nil e.lexemes_ne_nil] at ha
      exact ih a ha
  | bin op x y _ ihy =>
      intro a ha
      rw [lexemes, List.getLast?_append_of_ne_nil _ (List.cons_ne_nil _ _),
        List.getLast?_cons_of_ne_nil y.lexemes_ne_nil] at ha
      exact ihy a ha

theorem isChain_lexemes {e : Ast} {level : Nat} (he : e.cExpr level = true) (hs : e.spelled = true) :
    e.lexemes.IsChain (Lexeme.joins · · = true) := by
  induction e generalizing level with
  | operand kind str => exact .singleton _
  | paren e ih =>
      rw [lexemes, List.isChain_cons, List.isChain_append]
      refine ⟨?_, ih he hs, .singleton _, ?_⟩
      · rw [List.head?_append_of_ne_nil _ e.lexemes_ne_nil]
        exact symbol_joins_head (e := e) he hs .lparen
      · intro a ha b hb
        obtain rfl := Option.some.inj hb
        exact e.last_joins_symbol .rparen a ha
  | un h e ih =>
      simp only [cExpr, Bool.and_eq_true] at he
      rw [lexemes, List.isChain_cons]
      refine ⟨?_, ih he.2 hs⟩
      cases h with
      | name kind str => exact absurd he.1 Bool.false_ne_true
      | neg => exact symbol_joins_head he.2 hs .minus
      | deref => exact symbol_joins_head he.2 hs .star
      | not => exact symbol_joins_head he.2 hs .bang
  | bin op x y ihx ihy =>
      simp only [cExpr, spelled, Bool.and_eq_true] at he hs
      rw [lexemes, List.isChain_append, List.isChain_cons]
      refine ⟨ihx he.1.2 hs.1, ⟨symbol_joins_head he.2 hs.2 op.symbol, ihy he.2 hs.2⟩, ?_⟩
      intro a ha b hb
      obtain rfl := Option.some.inj hb
      exact x.last_joins_symbol op.symbol a ha

end Ast

/-! ## `expr` -/

open Ast

/-- The string of entry `n` once the blanks at the end of `s` have cleared it; there is
    none behind the table. -/
def entryStr (t : TokenTable) (s : List Char) (n : Nat) : Except Abort (List Char) :=
  if n < NR_TOKEN then .ok (if s.getLast? = some ' ' then [] else (t.tokens n).str)
  else .error .outOfBounds

/-- `expr` on a string that spells a C expression, when the table has room for it. -/
theorem expr_spaced (env : ExprEnv) {e : Ast} {level : Nat} {s : List Char} {t : TokenTable}
    (he : e.cExpr level = true) (hspelled : e.spelled = true) (hs : Spaced e.lexemes s)
    (hlen : ∀ a ∈ e.lexemes, a.text.length ≤ STR_SIZE)
    (hroom : Room { t with nr_token := 0 } e.lexemes s) (success : Option Bool) :
    ∃ t', t'.nr_token = e.lexemes.length ∧ t'.Holds 0 e.regroup.tokens ∧
      expr env s success t = (do
        let v ← e.regroup.read env (entryStr t s e.lexemes.length)
        return (v, success, t')) := by
  obtain ⟨t₁, hrun, hlexed⟩ := makeTokenFrom_spaced hs (isChain_lexemes he hspelled)
    (valid_lexemes he hspelled) hlen s.length (le_refl _) { t with nr_token := 0 } hroom
  have hnr : t₁.nr_token = e.lexemes.length := by simpa using hlexed.nr_token
  have hlength : (e.lexemes.map Lexeme.token).length = t₁.nr_token := by rw [List.length_map, hnr]
  -- the loop over the tokens
  obtain ⟨hholds, hsame⟩ := relabelFrom_holds (e.lexemes.map Lexeme.token) 0 t₁ hlexed.holds
  have htokens := relabelTokens_cExpr he []
  rw [List.append_nil, relabelTokens, List.append_nil] at htokens
  have hafter : afterOperand t₁ 0 = false := rfl
  rw [hafter, htokens, hlength] at hholds
  rw [hlength] at hsame
  have hcount : e.regroup.tokens.length = t₁.nr_token := by
    rw [← htokens, length_relabelTokens, hlength]
  -- the string behind the last token
  have hnext : strAt (relabel t₁) ((t₁.nr_token : Int) - 1 + 1) = entryStr t s e.lexemes.length := by
    have hentry : ((relabel t₁).tokens t₁.nr_token).str =
        if s.getLast? = some ' ' then [] else (t.tokens t₁.nr_token).str := by
      rw [relabel, hsame _ (.inr (by simp)), hlexed.next]
    rw [Int.sub_add_cancel, strAt, entryStr, hentry, hnr]
    simp only [Nat.cast_lt]
  have hnr' : (relabel t₁).nr_token = t₁.nr_token := relabelFrom_nr_token t₁ _ 0
  have hroom' : (t₁.nr_token : Int) - 1 < NR_TOKEN := by
    rcases hroom with h | h <;> simp only at h <;> omega
  have heval : eval env (relabel t₁) ((relabel t₁).nr_token + 1) 0 ((t₁.nr_token : Int) - 1) =
      e.regroup.read env (entryStr t s e.lexemes.length) := by
    rw [← hnext]
    exact eval_tokens (firstLoosest_regroup he) _ (le_refl 0) hholds (by omega) hroom' (by omega)
  refine ⟨relabel t₁, hnr'.trans hnr, hholds, ?_⟩
  rw [expr, makeToken, hrun]
  simp only [ok_bind, if_true]
  have hq : ((relabel t₁).nr_token : Int) - 1 = (t₁.nr_token : Int) - 1 := by rw [hnr']
  rw [hq, heval]

/-- A call on a C expression that returns had room for it, and returns what the evaluator
    reads. -/
theorem expr_spaced_ok {env : ExprEnv} {e : Ast} {level : Nat} {s : List Char}
    {t t' : TokenTable} {success r : Option Bool} {v : BitVec 32} (he : e.cExpr level = true)
    (hspelled : e.spelled = true) (hs : Spaced e.lexemes s)
    (hexpr : expr env s success t = .ok (v, r, t')) :
    (Room { t with nr_token := 0 } e.lexemes s ∧ ∀ a ∈ e.lexemes, a.text.length ≤ STR_SIZE) ∧
      e.regroup.read env (entryStr t s e.lexemes.length) = .ok v ∧ r = success ∧
      t'.nr_token = e.lexemes.length ∧ t'.Holds 0 e.regroup.tokens := by
  obtain ⟨p, hp, -⟩ := bind_eq_ok.mp hexpr
  obtain ⟨hroom, hlen⟩ := room_of_makeTokenFrom hs (isChain_lexemes he hspelled)
    (valid_lexemes he hspelled) s.length (le_refl _) _ (Nat.zero_le _) hp
  obtain ⟨t₁, hnr, hholds, hexpr₁⟩ := expr_spaced env he hspelled hs hlen hroom success
  rw [hexpr₁] at hexpr
  obtain ⟨w, hread, hret⟩ := bind_eq_ok.mp hexpr
  obtain ⟨rfl, hret'⟩ := Prod.mk.inj (pure_eq_ok.mp hret)
  obtain ⟨rfl, rfl⟩ := Prod.mk.inj hret'
  exact ⟨⟨hroom, hlen⟩, hread, rfl, hnr, hholds⟩

end Nemu
