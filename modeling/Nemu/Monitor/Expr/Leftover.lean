/-
  Nemu.Monitor.Expr.Leftover

  The token table is global, and a call of `expr` finds in it what earlier calls left.
  The only string of theirs that it can read is the one behind its last token, for a `*`
  directly before that token: `eval_same` for strings of any kind, and for expressions
  the exact condition under which the history does not show.
-/

import Nemu.Lib.DetSystem
import Nemu.Monitor.Expr.Classify

namespace Nemu

open Outcome DetSystem

/-! ## Histories -/

/-- The token tables that calls of `expr` can leave, over any machine states and symbol
    tables. -/
inductive Reached : TokenTable → Prop
  | zeroed : Reached .zeroed
  | expr {env : ExprEnv} {s : List Char} {success r : Option Bool} {t t' : TokenTable}
      {v : BitVec 32} (h : Reached t) (hexpr : expr env s success t = .ok (v, r, t')) : Reached t'

/-- The value of a call and what it leaves in `*success`, if it returns. -/
def result (env : ExprEnv) (s : List Char) (success : Option Bool) (t : TokenTable) :
    Option (BitVec 32 × Option Bool) :=
  (expr env s success t).toOption.map fun p => (p.1, p.2.1)

/-- The result does not depend on the history. -/
def HistoryFree (env : ExprEnv) (s : List Char) (success : Option Bool) : Prop :=
  ∀ t₁ t₂, Reached t₁ → Reached t₂ → result env s success t₁ = result env s success t₂

/-! ## Two tables with the same tokens -/

/-- The same tokens, whatever lies behind them. -/
def SameTokens (t t' : TokenTable) : Prop :=
  t.nr_token = t'.nr_token ∧ ∀ i : Int, 0 ≤ i → i < t.nr_token → t.tokens i = t'.tokens i

section Same

variable {t t' : TokenTable}

theorem sameTokens_set (h : SameTokens t t') (tok tok' : Token) :
    SameTokens (t.set t.nr_token tok) (t'.set t'.nr_token tok') := by
  refine ⟨h.1, fun i h0 hi => ?_⟩
  have hi' : i < t.nr_token := hi
  show Function.update t.tokens _ _ i = Function.update t'.tokens _ _ i
  rw [← h.1, Function.update_of_ne (by omega), Function.update_of_ne (by omega)]
  exact h.2 i h0 hi'

theorem sameTokens_push (h : SameTokens t t') (type : TokenType) (str : List Char) :
    SameTokens (t.push type str) (t'.push type str) := by
  refine ⟨congrArg (· + 1) h.1, fun i h0 hi => ?_⟩
  have hi' : i < ((t.nr_token + 1 : Nat) : Int) := hi
  show Function.update t.tokens _ _ i = Function.update t'.tokens _ _ i
  rw [← h.1]
  by_cases hlast : i = t.nr_token
  · rw [hlast, Function.update_self, Function.update_self]
  · rw [Function.update_of_ne hlast, Function.update_of_ne hlast]
    exact h.2 i h0 (by omega)

theorem pushCopy_same (h : SameTokens t t') (type : TokenType) (substr : List Char) :
    Both SameTokens (t.pushCopy type substr) (t'.pushCopy type substr) := by
  rw [TokenTable.pushCopy, TokenTable.pushCopy]
  by_cases hlen : substr.length ≤ STR_SIZE
  · rw [if_pos hlen, if_pos hlen]
    exact .ok (sameTokens_push h type substr)
  · rw [if_neg hlen, if_neg hlen]
    exact .error _

theorem record_same (h : SameTokens t t') (token_type : TokenType) (substr : List Char) :
    Both SameTokens (record token_type substr t) (record token_type substr t') := by
  have hset := sameTokens_set h { t.tokens t.nr_token with str := [] }
    { t'.tokens t'.nr_token with str := [] }
  rw [record, record]
  by_cases hroom : t.nr_token < NR_TOKEN
  · rw [if_pos hroom, if_pos (h.1 ▸ hroom)]
    cases token_type with
    | NOTYPE => exact .ok hset
    | NUM => exact pushCopy_same hset .NUM substr
    | HEX => exact pushCopy_same hset .HEX substr
    | REG => exact pushCopy_same hset .REG substr
    | POINT => exact pushCopy_same hset .VAR substr
    | NEG => exact .error _
    | _ => exact .ok (sameTokens_push hset _ _)
  · rw [if_neg hroom, if_neg (h.1 ▸ hroom)]
    exact .error _

/-- `make_token` records the same tokens over any table. -/
theorem makeTokenFrom_same (fuel : Nat) (e : List Char) : ∀ {t t' : TokenTable},
    SameTokens t t' →
      Both (fun p p' => p.1 = p'.1 ∧ SameTokens p.2 p'.2) (makeTokenFrom fuel e t)
        (makeTokenFrom fuel e t') := by
  induction fuel generalizing e with
  | zero =>
      intro t t' h
      cases e with
      | nil => exact .ok ⟨rfl, h⟩
      | cons c cs => exact .error _
  | succ fuel ih =>
      intro t t' h
      cases e with
      | nil => exact .ok ⟨rfl, h⟩
      | cons c cs =>
          simp only [makeTokenFrom]
          cases firstRule (c :: cs) with
          | none => exact .ok ⟨rfl, h⟩
          | some m => exact (record_same h m.1 _).bind fun u u' hu => ih _ hu

theorem makeToken_same (e : List Char) (t t' : TokenTable) :
    Both (fun p p' => p.1 = p'.1 ∧ SameTokens p.2 p'.2) (makeToken e t) (makeToken e t') := by
  apply makeTokenFrom_same
  exact ⟨rfl, fun i h0 hi => absurd hi (by simpa using h0)⟩

theorem relabel_same (h : SameTokens t t') : SameTokens (relabel t) (relabel t') := by
  have hnr : ∀ t : TokenTable, (relabel t).nr_token = t.nr_token :=
    fun t => relabelFrom_nr_token t _ 0
  refine ⟨by rw [hnr, hnr, h.1], fun i h0 hi => ?_⟩
  rw [hnr] at hi
  obtain ⟨j, rfl⟩ := Int.eq_ofNat_of_zero_le h0
  have hj : j < t.nr_token := by exact_mod_cast hi
  rw [relabel_tokens t hj, relabel_tokens t' (h.1 ▸ hj), h.2 j h0 hi]
  by_cases hzero : j = 0
  · simp only [hzero, ne_eq, not_true_eq_false, false_and]
  · rw [h.2 (j - 1) (by omega) (by omega)]

end Same

/-! ## `eval` on two tables with the same tokens -/

section EvalSame

variable {env : ExprEnv} {t t' : TokenTable} {n : Int}
  (hsame : ∀ i : Int, 0 ≤ i → i < n → t.tokens i = t'.tokens i)

include hsame

theorem parensLoop_same (m : Nat) : ∀ (a : Int) (j k : Nat), 0 ≤ a → a + m ≤ n →
    parensLoop t m a j k = parensLoop t' m a j k := by
  induction m with
  | zero => exact fun a j k _ _ => rfl
  | succ m ih =>
      intro a j k ha hm
      push_cast at hm
      simp only [parensLoop, hsame a ha (by omega), ih (a + 1) _ _ (by omega) (by omega)]

theorem domiLoop_same (m : Nat) : ∀ (j step : Int) (pri : Nat) (op : Int), 0 ≤ j → j + m ≤ n →
    domiLoop t m j step pri op = domiLoop t' m j step pri op := by
  induction m with
  | zero => exact fun j step pri op _ _ => rfl
  | succ m ih =>
      intro j step pri op hj hm
      push_cast at hm
      simp only [domiLoop, hsame j hj (by omega), ih (j + 1) _ _ _ (by omega) (by omega)]

end EvalSame

-- the operator found lies in the range, if there is one
theorem domiLoop_le (t : TokenTable) (m : Nat) (j step : Int) (pri : Nat) (op b : Int)
    (hop : op ≤ b) (hb : -2 ≤ b) (hm : j + m ≤ b + 1) : domiLoop t m j step pri op ≤ b :=
  domiLoop_rule (P := (· ≤ b)) hb m j step pri op hop (fun i _ hi => by omega)

section EvalSame

variable {env : ExprEnv} {t t' : TokenTable} {n : Int}

theorem evalPoint_same (hsame : ∀ i : Int, 0 ≤ i → i < n → t.tokens i = t'.tokens i)
    (hlook : NR_TOKEN ≤ n ∨ (t.tokens (n - 2)).type ≠ .POINT) {p : Int} (hp : 0 ≤ p)
    (hn : p + 2 ≤ n) (htype : (t.tokens p).type = .POINT) (val : BitVec 32) :
    evalPoint env t p val = evalPoint env t' p val := by
  have hstr : strAt t (p + 2) = strAt t' (p + 2) := by
    rw [strAt, strAt]
    by_cases hroom : p + 2 < NR_TOKEN
    · rw [if_pos hroom, if_pos hroom]
      by_cases hin : p + 2 < n
      · rw [hsame (p + 2) (by omega) hin]
      · -- the string behind the last token, of a dereference that is excluded
        obtain rfl : p = n - 2 := by omega
        exact absurd htype (hlook.resolve_left (by omega))
    · rw [if_neg hroom, if_neg hroom]
  rw [evalPoint, evalPoint, hstr]

/-- `eval` reads no string behind the first `n` tokens, but for a dereference of the last
    of them. -/
theorem eval_same (env : ExprEnv) (hsame : ∀ i : Int, 0 ≤ i → i < n → t.tokens i = t'.tokens i)
    (hlook : NR_TOKEN ≤ n ∨ (t.tokens (n - 2)).type ≠ .POINT) (fuel : Nat) :
    ∀ p q : Int, 0 ≤ p → q < n → eval env t fuel p q = eval env t' fuel p q := by
  induction fuel with
  | zero => exact fun p q _ _ => rfl
  | succ fuel ih =>
      intro p q hp hq
      rw [eval, eval]
      by_cases hempty : q < p
      · rw [if_pos hempty, if_pos hempty]
      · rw [if_neg hempty, if_neg hempty]
        have htokp := hsame p hp (by omega)
        have htokq := hsame q (by omega) hq
        by_cases hone : p = q
        · rw [if_pos hone, if_pos hone, htokp]
        · rw [if_neg hone, if_neg hone]
          have hcheck : checkParentheses t p q = checkParentheses t' p q := by
            rw [checkParentheses, checkParentheses, htokp, htokq,
              parensLoop_same hsame _ p 0 0 hp (by omega)]
          have hdomi : domiPosition t p q = domiPosition t' p q := by
            rw [domiPosition, domiPosition, domiLoop_same hsame _ p 0 0 (-1) hp (by omega)]
          have hle : domiPosition t p q ≤ q :=
            domiLoop_le t _ p 0 0 (-1) q (by omega) (by omega) (by omega)
          dsimp only
          rw [hcheck, ← hdomi, htokp, htokq, ih (p + 1) (q - 1) (by omega) (by omega),
            ih (p + 1) q (by omega) hq, ih p (domiPosition t p q - 1) hp (by omega)]
          generalize domiPosition t p q = op at hle ⊢
          -- the right operand is reached only if there is a left one
          have hright : (do
                let val1 ← eval env t' fuel p (op - 1)
                let val2 ← eval env t fuel (op + 1) q
                applyOp (t.tokens op).type val1 val2)
              = (do
                let val1 ← eval env t' fuel p (op - 1)
                let val2 ← eval env t' fuel (op + 1) q
                applyOp (t'.tokens op).type val1 val2) := by
            cases hleft : eval env t' fuel p (op - 1) with
            | error err => rfl
            | ok v =>
                have hop := eval_ok_le hleft
                rw [ih (op + 1) q (by omega) hq, hsame op (by omega) (by omega)]
          rw [hright]
          cases htype : (t'.tokens p).type with
          | POINT =>
              have hpoint : ∀ val, evalPoint env t p val = evalPoint env t' p val :=
                evalPoint_same hsame hlook hp (by omega) (by rw [htokp]; exact htype)
              simp only [hpoint]
          | _ => rfl

end EvalSame

/-! ## Strings of any kind -/

/-- The tokens of `s` leave an entry of the table free, and a `*` without an operand before it,
    or a symbol name, stands directly before the last of them. -/
def LooksAhead (s : List Char) : Prop :=
  ∃ t, makeToken s .zeroed = .ok (true, t) ∧ t.nr_token < NR_TOKEN ∧
    ((relabel t).tokens (t.nr_token - 2)).type = .POINT

/-- Without such a token nothing is read that an earlier call has left. -/
theorem result_same {s : List Char} (h : ¬ LooksAhead s) (env : ExprEnv) (success : Option Bool)
    (t : TokenTable) : result env s success t = result env s success .zeroed := by
  have hmake := makeToken_same s .zeroed t
  rw [result, result, expr, expr]
  cases hzero : makeToken s .zeroed with
  | error err =>
      rw [hzero] at hmake
      generalize makeToken s t = x at hmake
      cases hmake with
      | error e => rfl
  | ok p =>
      rw [hzero] at hmake
      generalize makeToken s t = x at hmake
      cases hmake with
      | @ok _ p' hR =>
          obtain ⟨b, u⟩ := p
          obtain ⟨b', u'⟩ := p'
          obtain ⟨rfl, hu⟩ : b = b' ∧ SameTokens u u' := hR
          cases b with
          | false => cases success <;> rfl
          | true =>
              have hrel := relabel_same hu
              have hnr : (relabel u).nr_token = u.nr_token := relabelFrom_nr_token u _ 0
              have hlook : (NR_TOKEN : Int) ≤ (relabel u).nr_token ∨
                  ((relabel u).tokens ((relabel u).nr_token - 2)).type ≠ .POINT := by
                rw [hnr]
                by_cases hroom : u.nr_token < NR_TOKEN
                · exact .inr fun htype => h ⟨u, hzero, hroom, htype⟩
                · exact .inl (by omega)
              have heval := eval_same env hrel.2 hlook ((relabel u).nr_token + 1) 0
                ((relabel u).nr_token - 1) (le_refl 0) (by omega)
              simp only [ok_bind, if_true]
              rw [heval, hrel.1]
              cases eval env (relabel u') _ 0 _ with
              | error err => rfl
              | ok v => rfl

/-! ## Expressions -/

section Expressions

variable {env : ExprEnv} {e : Ast} {s : List Char} {success : Option Bool}

/-- A call on an expression that returns leaves `*success` alone. -/
theorem result_eq_some (he : e.WellFormed) (hs : Spaced e.lexemes s) {t : TokenTable}
    {p : BitVec 32 × Option Bool} :
    result env s success t = some p ↔ p.2 = success ∧ Returns env s success t p.1 := by
  obtain ⟨v, r⟩ := p
  apply Iff.intro
  · intro h
    obtain ⟨⟨w, r', t'⟩, hok, hp⟩ := Option.map_eq_some_iff.mp h
    obtain ⟨rfl, rfl⟩ := Prod.mk.inj hp
    have hexpr : expr env s success t = .ok (w, r', t') := by
      cases hx : expr env s success t with
      | error err => rw [hx] at hok; exact nomatch hok
      | ok y => rw [hx] at hok; exact congrArg Except.ok (Option.some.inj hok)
    obtain ⟨-, -, rfl, -⟩ := expr_spaced_ok he.1 he.2 hs hexpr
    exact ⟨rfl, t', hexpr⟩
  · rintro ⟨rfl, t', hexpr⟩
    rw [result, hexpr]
    rfl

/-- The results of two calls on an expression, value by value. -/
theorem result_eq_iff (he : e.WellFormed) (hs : Spaced e.lexemes s) (t₁ t₂ : TokenTable) :
    result env s success t₁ = result env s success t₂ ↔
      ∀ v, Returns env s success t₁ v ↔ Returns env s success t₂ v := by
  apply Iff.intro
  · intro h v
    have hsome : ∀ t, result env s success t = some (v, success) ↔
        success = success ∧ Returns env s success t v := fun t => result_eq_some he hs
    have h₁ := hsome t₁
    have h₂ := hsome t₂
    rw [h] at h₁
    exact ⟨fun hr => (h₂.mp (h₁.mpr ⟨rfl, hr⟩)).2, fun hr => (h₁.mp (h₂.mpr ⟨rfl, hr⟩)).2⟩
  · intro h
    apply Option.ext
    intro p
    rw [result_eq_some he hs, result_eq_some he hs, h p.1]

/-! ## What a history can leave -/

-- a chain of `!` in front of a register
def bangs (name : List Char) : Nat → Ast
  | 0 => .operand .reg name
  | n + 1 => .un .not (bangs name n)

theorem spells_regNames : ∀ name ∈ regNames, OperandKind.reg.spells name = true ∧ name.length = 4 := by
  decide

section Bangs

variable {name : List Char}

theorem wellFormed_bangs (hname : name ∈ regNames) (n : Nat) : (bangs name n).WellFormed := by
  have hspells := (spells_regNames name hname).1
  have h : ∀ n level, (bangs name n).cExpr level = true := by
    intro n
    induction n with
    | zero => exact fun _ => rfl
    | succ n ih => exact fun level => ih 4
  refine ⟨h n 9, ?_⟩
  induction n with
  | zero => exact hspells
  | succ n ih => exact ih

theorem regroup_bangs (n : Nat) : (bangs name n).regroup = bangs name n := by
  induction n with
  | zero => rfl
  | succ n ih => exact congrArg (Ast.un .not) ih

theorem last_bangs (n : Nat) : (bangs name n).last = ⟨.REG, name⟩ := by
  induction n with
  | zero => rfl
  | succ n ih => exact ih

theorem length_bangs (n : Nat) : (bangs name n).lexemes.length = n + 1 := by
  induction n with
  | zero => rfl
  | succ n ih => exact congrArg (· + 1) ih

theorem read_bangs (env : ExprEnv) (hname : name ∈ regNames) (next : Except Abort (List Char)) (n : Nat) :
    ∃ v, (bangs name n).read env next = .ok v := by
  have hlength := (spells_regNames name hname).2
  induction n with
  | zero => exact ⟨_, rfl⟩
  | succ n ih =>
      obtain ⟨x, hx⟩ := ih
      have hcstr : (bangs name n).last.cstr = .ok name := by
        rw [last_bangs]
        exact if_pos (by rw [hlength]; decide)
      refine ⟨boolInt (scanInt name = 0), ?_⟩
      show (bangs name n).read env next >>= _ = _
      rw [hx, ok_bind]
      rw [Head.read, scanLast, hcstr]
      rfl

theorem length_text_bangs (hname : name ∈ regNames) (n : Nat) :
    ∀ a ∈ (bangs name n).lexemes, a.text.length ≤ STR_SIZE := by
  have hlength := (spells_regNames name hname).2
  induction n with
  | zero =>
      intro a ha
      obtain rfl := List.mem_singleton.mp ha
      show name.length ≤ 32
      omega
  | succ n ih =>
      intro a ha
      rcases List.mem_cons.mp ha with rfl | ha
      · exact Nat.le_of_ble_eq_true rfl
      · exact ih a ha

/-- Every register name can be left in every entry. -/
theorem reached_name (hname : name ∈ regNames) {n : Nat} (hn : n < NR_TOKEN) :
    ∃ t, Reached t ∧ (t.tokens n).str = name := by
  obtain ⟨hc, hspelled⟩ := wellFormed_bangs hname n
  have hvalid := Ast.valid_lexemes hc hspelled
  have hs := spaced_texts (bangs name n).lexemes
  have hblank : ((bangs name n).lexemes.flatMap Lexeme.text).getLast? ≠ some ' ' := by
    intro hlast
    obtain ⟨a, ha, hmem⟩ := List.mem_flatMap.mp (List.mem_of_getLast? hlast)
    exact Lexeme.text_ne_blank (hvalid a ha) ' ' hmem rfl
  have hroom : Room .zeroed (bangs name n).lexemes
      ((bangs name n).lexemes.flatMap Lexeme.text) := by
    rw [Room, length_bangs]
    show 0 + (n + 1) < 32 ∨ (0 + (n + 1) = 32 ∧ _)
    have hn' : n < 32 := hn
    by_cases hlast : n + 1 < 32
    · exact .inl (by omega)
    · exact .inr ⟨by omega, hblank⟩
  obtain ⟨t, -, hholds, hexpr⟩ :=
    expr_spaced .zeroed hc hspelled hs (length_text_bangs hname n) hroom none
  obtain ⟨v, hv⟩ := read_bangs .zeroed hname (entryStr .zeroed _ _) n
  rw [regroup_bangs, hv] at hexpr
  refine ⟨t, .expr .zeroed hexpr, ?_⟩
  rw [regroup_bangs] at hholds
  have htokens : (bangs name n).tokens.length = n + 1 := by
    rw [← Ast.length_lexemes, length_bangs]
  rw [holds_last _ hholds (q := (n : Int)) (by rw [htokens]; push_cast; omega), last_bangs]

end Bangs

/-! ## Strings that name no register -/

section NoName

variable {str str' : List Char}

theorem nil_not_regName : ([] : List Char) ∉ regNames := by decide

-- the string two tokens behind a head is the same one, or names no register either time
theorem secondStr_cases (str str' : List Char) (toks : List Token) :
    (∃ x, secondStr (.ok str) toks = .ok x ∧ secondStr (.ok str') toks = .ok x) ∨
      (secondStr (.ok str) toks = .ok str ∧ secondStr (.ok str') toks = .ok str') := by
  match toks with
  | [] => exact .inr ⟨rfl, rfl⟩
  | [_] => exact .inr ⟨rfl, rfl⟩
  | _ :: tok :: _ => exact .inl ⟨tok.str, rfl, rfl⟩

theorem secondStr_ok (str : List Char) (toks : List Token) :
    ∃ x, secondStr (.ok str) toks = .ok x := by
  rcases secondStr_cases str str toks with ⟨x, hx, -⟩ | ⟨hx, -⟩
  · exact ⟨x, hx⟩
  · exact ⟨str, hx⟩

theorem strict_deref_congr {a b : Ast} (h : a.strict env = b.strict env) :
    (Ast.un .deref a).strict env = (Ast.un .deref b).strict env := by
  rw [Ast.strict, Ast.strict, h]

-- a dereference of a single token that no register is named behind
theorem understood_deref (h : str ∉ regNames) (h' : str' ∉ regNames)
    (ih : (e.understood (.ok str)).strict env = (e.understood (.ok str')).strict env) :
    ((Ast.un .deref e).understood (.ok str)).strict env
      = ((Ast.un .deref e).understood (.ok str')).strict env := by
  rw [Ast.understood, Ast.understood]
  rcases secondStr_cases str str' e.tokens with ⟨x, hx, hx'⟩ | ⟨hx, hx'⟩
  · rw [hx, hx']
    apply strict_deref_congr
    by_cases hname : x ∈ regNames
    · rw [if_pos hname, if_pos hname]
    · rw [if_neg hname, if_neg hname]
      exact ih
  · rw [hx, hx']
    apply strict_deref_congr
    rw [if_neg h, if_neg h']
    exact ih

theorem understood_noName (h : str ∉ regNames) (h' : str' ∉ regNames) (e : Ast) :
    (e.understood (.ok str)).strict env = (e.understood (.ok str')).strict env := by
  induction e with
  | operand kind name => rfl
  | paren e => rfl
  | un head e ih =>
      cases head with
      | neg => rfl
      | not => rfl
      | deref => exact understood_deref h h' ih
      | name kind name =>
          cases kind with
          | var => exact understood_deref h h' ih
          | _ =>
              show (Ast.un _ _).strict env = (Ast.un _ _).strict env
              rw [Ast.strict, Ast.strict, ih]
  | bin op a b iha ihb =>
      rw [Ast.understood, Ast.understood]
      by_cases hbang : a.first.type = .bang
      · rw [if_pos hbang, if_pos hbang]
      · rw [if_neg hbang, if_neg hbang, Ast.strict, Ast.strict, ihb]

theorem evaluates_noName (h : str ∉ regNames) (h' : str' ∉ regNames) (e : Ast) :
    e.Evaluates env (.ok str) ↔ e.Evaluates env (.ok str') := by
  induction e with
  | operand kind name => exact Iff.rfl
  | paren e => exact Iff.rfl
  | un head e ih =>
      rw [Ast.Evaluates, Ast.Evaluates, ih, understood_noName h h' e]
      exact and_congr_right fun _ => and_congr_right fun _ =>
        ⟨fun _ _ => secondStr_ok str' _, fun _ _ => secondStr_ok str _⟩
  | bin op a b iha ihb => rw [Ast.Evaluates, Ast.Evaluates, ihb]

/-- Strings that name no register are read alike. -/
theorem understands_noName (h : str ∉ regNames) (h' : str' ∉ regNames) (v : BitVec 32) :
    e.Understands env (.ok str) v ↔ e.Understands env (.ok str') v := by
  rw [Ast.Understands, Ast.Understands, evaluates_noName h h', understood_noName h h']

end NoName

/-! ## The history of an expression -/

/-- The results on an expression do not depend on the history exactly if the entry behind its
    tokens is cleared or does not exist, or none of the register names makes a difference in
    it. -/
theorem historyFree_iff (he : e.WellFormed) (hs : Spaced e.lexemes s) :
    HistoryFree env s success ↔
      (Fits e s → s.getLast? ≠ some ' ' → e.lexemes.length < NR_TOKEN → ∀ name ∈ regNames, ∀ v,
        e.regroup.Understands env (.ok name) v ↔ e.regroup.Understands env (.ok []) v) := by
  have hentry : s.getLast? ≠ some ' ' → e.lexemes.length < NR_TOKEN → ∀ t : TokenTable,
      entryStr t s e.lexemes.length = .ok (t.tokens e.lexemes.length).str := by
    intro hlast hroom t
    rw [entryStr, if_pos hroom, if_neg hlast]
  apply Iff.intro
  · intro hfree hfits hlast hroom name hname v
    obtain ⟨t, hreached, hstr⟩ := reached_name hname hroom
    have hret := (result_eq_iff he hs t .zeroed).mp (hfree t .zeroed hreached .zeroed) v
    rw [returns_iff_understood he hs, returns_iff_understood he hs, hentry hlast hroom,
      hentry hlast hroom, hstr] at hret
    exact ⟨fun h => (hret.mp ⟨hfits, h⟩).2, fun h => (hret.mpr ⟨hfits, h⟩).2⟩
  · intro hcond
    have hzero : ∀ t v, Returns env s success t v ↔ Returns env s success .zeroed v := by
      intro t v
      rw [returns_iff_understood he hs, returns_iff_understood he hs]
      refine and_congr_right fun hfits => ?_
      by_cases hread : s.getLast? ≠ some ' ' ∧ e.lexemes.length < NR_TOKEN
      · rw [hentry hread.1 hread.2, hentry hread.1 hread.2]
        by_cases hname : (t.tokens e.lexemes.length).str ∈ regNames
        · exact hcond hfits hread.1 hread.2 _ hname v
        · exact understands_noName hname nil_not_regName v
      · have hsame : entryStr t s e.lexemes.length = entryStr .zeroed s e.lexemes.length := by
          rw [entryStr, entryStr]
          by_cases hroom : e.lexemes.length < NR_TOKEN
          · have hlast : s.getLast? = some ' ' := by
              by_contra hne
              exact hread ⟨hne, hroom⟩
            rw [if_pos hroom, if_pos hroom, if_pos hlast, if_pos hlast]
          · rw [if_neg hroom, if_neg hroom]
        rw [hsame]
    intro t₁ t₂ _ _
    rw [result_eq_iff he hs]
    exact fun v => (hzero t₁ v).trans (hzero t₂ v).symm

end Expressions

/-! ## `expr` -/

/-- A string whose tokens leave no `*` directly before the last of them has one result over
    every history; and an expression has exactly if it fills the table, or ends in a blank, or
    has the same values with any register named behind its last token as with none. -/
theorem expr_historyFree_iff (env : ExprEnv) (e : Ast) (he : e.WellFormed) (s s' : List Char)
    (hs : Spaced e.lexemes s) (success : Option Bool) :
    (¬ LooksAhead s' → HistoryFree env s' success) ∧
      (HistoryFree env s success ↔
        (Fits e s → s.getLast? ≠ some ' ' → e.lexemes.length < NR_TOKEN → ∀ name ∈ regNames, ∀ v,
          e.regroup.Understands env (.ok name) v ↔ e.regroup.Understands env (.ok []) v)) := by
  refine ⟨fun hlook t₁ t₂ _ _ => ?_, historyFree_iff he hs⟩
  rw [result_same hlook env success t₁, result_same hlook env success t₂]

/-- `*5`, and `1` of which the history never shows. -/
theorem expr_historyFree_deref :
    (¬ LooksAhead ['1'] → HistoryFree .zeroed ['1'] none) ∧
      (HistoryFree .zeroed ['*', '5'] none ↔
        (Fits (.un .deref (.operand .num ['5'])) ['*', '5'] → some '5' ≠ some ' ' → 2 < NR_TOKEN →
          ∀ name ∈ regNames, ∀ v,
            (Ast.un .deref (.operand .num ['5'])).regroup.Understands .zeroed (.ok name) v ↔
              (Ast.un .deref (.operand .num ['5'])).regroup.Understands .zeroed (.ok []) v)) :=
  expr_historyFree_iff .zeroed (.un .deref (.operand .num ['5'])) ⟨rfl, rfl⟩ ['*', '5'] ['1']
    (spaced_texts _) none

-- EAX is 0 and EBX is 4, where memory holds a 1
def envEaxEbx : ExprEnv where
  emu := { Emu.zeroed (fun addr => if addr = 4 then 1 else 0) with
    cpu := { (Emu.zeroed fun _ => 0).cpu with gpr := fun r => if r = R_EBX then 4 else 0 } }
  symtab := []

/-- `*$eax` is the word at EBX once `1+$ebx` was evaluated, and the word at EAX before. -/
theorem expr_reads_leftover :
    ∃ (env : ExprEnv) (e : Ast) (s : List Char), e.WellFormed ∧ Spaced e.lexemes s ∧
      e.lexemes.length ≤ NR_TOKEN ∧ ¬ HistoryFree env s none := by
  refine ⟨envEaxEbx, .un .deref (.operand .reg ['$', 'e', 'a', 'x']), ['*', '$', 'e', 'a', 'x'],
    ⟨rfl, rfl⟩, spaced_texts _, by decide, ?_⟩
  intro hfree
  have hbefore : result envEaxEbx ['*', '$', 'e', 'a', 'x'] none .zeroed = some (0, none) := rfl
  obtain ⟨t, hexpr, hafter⟩ : ∃ t,
      expr envEaxEbx ['1', '+', '$', 'e', 'b', 'x'] none .zeroed = .ok (5, none, t) ∧
        result envEaxEbx ['*', '$', 'e', 'a', 'x'] none t = some (1, none) := ⟨_, rfl, rfl⟩
  have h := hfree .zeroed t .zeroed (.expr .zeroed hexpr)
  rw [hbefore, hafter] at h
  have hval : (0 : BitVec 32) = 1 := congrArg Prod.fst (Option.some.inj h)
  exact absurd hval (by decide)

end Nemu
