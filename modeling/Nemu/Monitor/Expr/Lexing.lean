/-
  Nemu.Monitor.Expr.Lexing

  What `make_token` does on the texts of a sequence of tokens with any blanks around
  them: it records the tokens in order, as long as the table has room.
-/

import Mathlib.Data.List.Chain
import Nemu.Lib.Outcome
import Nemu.Monitor.Expr.Token

namespace Nemu

open Outcome

/-! ## Lexemes -/

inductive Symbol where
  | plus
  | minus
  | star
  | slash
  | lparen
  | rparen
  | eq
  | ne
  | or
  | and
  | bang
deriving DecidableEq, Repr

inductive OperandKind where
  | num
  | hex
  | reg
  | var
deriving DecidableEq, Repr

/-- What stands between the blanks of an expression. -/
inductive Lexeme where
  | operand (kind : OperandKind) (str : List Char)
  | symbol (sym : Symbol)
deriving DecidableEq, Repr

def Symbol.text : Symbol → List Char
  | .plus => ['+']
  | .minus => ['-']
  | .star => ['*']
  | .slash => ['/']
  | .lparen => ['(']
  | .rparen => [')']
  | .eq => ['=', '=']
  | .ne => ['!', '=']
  | .or => ['|', '|']
  | .and => ['&', '&']
  | .bang => ['!']

-- the rule that recognises it, and the token it leaves
def Symbol.rule : Symbol → TokenType
  | .plus => .plus
  | .minus => .minus
  | .star => .star
  | .slash => .slash
  | .lparen => .lparen
  | .rparen => .rparen
  | .eq => .EQ
  | .ne => .NOTEQ
  | .or => .OR
  | .and => .AND
  | .bang => .bang

def Symbol.token : Symbol → Token
  | .plus => ⟨.plus, []⟩
  | .minus => ⟨.minus, []⟩
  | .star => ⟨.star, []⟩
  | .slash => ⟨.slash, []⟩
  | .lparen => ⟨.lparen, []⟩
  | .rparen => ⟨.rparen, []⟩
  | .eq => ⟨.EQ, ['=', '=']⟩
  | .ne => ⟨.NOTEQ, ['!', '=']⟩
  | .or => ⟨.OR, ['|', '|']⟩
  | .and => ⟨.NOTEQ, ['&', '&']⟩
  | .bang => ⟨.bang, []⟩

def OperandKind.type : OperandKind → TokenType
  | .num => .NUM
  | .hex => .HEX
  | .reg => .REG
  | .var => .VAR

/-- The spelling of an operand. -/
def OperandKind.spells : OperandKind → List Char → Bool
  | .num, str => !str.isEmpty && str.all Char.isDigit
  | .hex, '0' :: x :: ds => (x == 'x' || x == 'X') && !ds.isEmpty && ds.all isHexChar
  | .reg, '$' :: name => !name.isEmpty && name.all Char.isLower
  | .var, c :: cs => isWordChar c && !c.isDigit && cs.all isWordChar
  | _, _ => false

namespace Lexeme

def text : Lexeme → List Char
  | operand _ str => str
  | symbol sym => sym.text

def rule : Lexeme → TokenType
  | operand kind _ => kind.type
  | symbol sym => sym.rule

def token : Lexeme → Token
  | operand kind str => ⟨kind.type, str⟩
  | symbol sym => sym.token

def valid : Lexeme → Bool
  | operand kind str => kind.spells str
  | symbol _ => true

/-- The text that follows does not lengthen the match. -/
def stops : Lexeme → List Char → Bool
  | _, [] => true
  | operand _ _, c :: _ => !isWordChar c
  | symbol .bang, c :: _ => c != '='
  | symbol _, _ :: _ => true

/-- The one may follow the other without a blank. -/
def joins (a b : Lexeme) : Bool := a.stops b.text

end Lexeme

/-- `s` is the lexemes in order, with blanks before, between and after them. -/
inductive Spaced : List Lexeme → List Char → Prop
  | nil {blanks : List Char} (hblanks : ∀ c ∈ blanks, c = ' ') : Spaced [] blanks
  | cons {a : Lexeme} {lexs : List Lexeme} {blanks s : List Char}
      (hblanks : ∀ c ∈ blanks, c = ' ') (hrest : Spaced lexs s) :
      Spaced (a :: lexs) (blanks ++ (a.text ++ s))

-- without blanks
theorem spaced_texts (lexs : List Lexeme) : Spaced lexs (lexs.flatMap Lexeme.text) := by
  induction lexs with
  | nil => exact .nil (fun _ h => nomatch h)
  | cons a lexs ih =>
      have hnone : ∀ c ∈ ([] : List Char), c = ' ' := fun _ h => nomatch h
      exact .cons hnone ih

/-! ## The rules on the text of a lexeme -/

section Matching

variable {p : Char → Bool} {xs rest : List Char} {c : Char}

-- the rest does not begin with a character of the class
def Ends (p : Char → Bool) : List Char → Prop
  | [] => True
  | c :: _ => p c = false

theorem matchMany_append (hne : xs ≠ []) (hall : ∀ c ∈ xs, p c = true) (hrest : Ends p rest) :
    matchMany p (xs ++ rest) = some xs.length := by
  have htake : (xs ++ rest).takeWhile p = xs := by
    rw [List.takeWhile_append_of_pos hall]
    cases rest with
    | nil => simp
    | cons c cs =>
        have hc : p c = false := hrest
        simp [hc]
  rw [matchMany, htake]
  cases xs with
  | nil => exact absurd rfl hne
  | cons x xs => rfl

theorem matchMany_none (hc : p c = false) : matchMany p (c :: rest) = none := by
  simp [matchMany, hc]

/-- A word character is the start of a number or a name. -/
theorem firstRule_word (hc : isWordChar c = true) :
    firstRule (c :: rest) =
      match matchHex (c :: rest) with
      | some n => some (.HEX, n)
      | none =>
          match matchMany Char.isDigit (c :: rest) with
          | some n => some (.NUM, n)
          | none => (matchMany isWordChar (c :: rest)).map fun n => (.VAR, n) := by
  -- none of the characters that start the other rules is a word character
  have hne : ∀ d, isWordChar d = false → c ≠ d := by
    rintro d hd rfl
    rw [hc] at hd
    exact absurd hd (by decide)
  have hother := fun d hd => beq_eq_false_iff_ne.mpr (hne d hd).symm
  have hspace : isSpaceChar c = false := beq_eq_false_iff_ne.mpr (hne ' ' (by decide))
  have hreg : matchReg (c :: rest) = none := by
    unfold matchReg
    split
    · next heq => exact absurd (List.cons.inj heq).1 (hne '$' (by decide))
    · rfl
  simp only [firstRule, rules, List.findSome?_cons, List.findSome?_nil, matchMany_none hspace,
    hreg, matchText, List.isPrefixOf, hother '-' (by decide), hother '+' (by decide),
    hother '/' (by decide), hother '*' (by decide), hother '=' (by decide),
    hother '!' (by decide), hother ')' (by decide), hother '(' (by decide),
    hother '|' (by decide), hother '&' (by decide), Bool.false_and, Bool.false_eq_true, if_false,
    Option.map_none]
  cases matchHex (c :: rest) with
  | some n => rfl
  | none =>
      cases matchMany Char.isDigit (c :: rest) with
      | some n => rfl
      | none => cases matchMany isWordChar (c :: rest) <;> rfl

-- a class of word characters ends where the word does
theorem ends_mono {q : Char → Bool} (hpq : ∀ c, q c = true → p c = true) (h : Ends p rest) :
    Ends q rest := by
  cases rest with
  | nil => trivial
  | cons c cs =>
      have hp : p c = false := h
      by_contra hq
      have hqc : q c = true := by simpa [Ends] using hq
      rw [hpq c hqc] at hp
      exact absurd hp (by decide)

theorem isWordChar_of_isDigit {c : Char} (h : c.isDigit = true) : isWordChar c = true := by
  simp [isWordChar, Char.isAlphanum, h]

theorem isWordChar_of_isAlpha {c : Char} (h : c.isAlpha = true) : isWordChar c = true := by
  simp [isWordChar, Char.isAlphanum, h]

theorem isWordChar_of_isLower {c : Char} (h : c.isLower = true) : isWordChar c = true := by
  have halpha : (c.isUpper || c.isLower) = true := by rw [h, Bool.or_true]
  exact isWordChar_of_isAlpha halpha

theorem isWordChar_of_isHexChar {c : Char} (h : isHexChar c = true) : isWordChar c = true := by
  simp only [isHexChar, Bool.or_eq_true, Bool.and_eq_true, decide_eq_true_eq] at h
  rcases h with (h | h) | h
  · exact isWordChar_of_isDigit h
  · have hlower : c.isLower = true := by
      show (decide ('a' ≤ c) && decide (c ≤ 'z')) = true
      have hz : c ≤ 'z' := UInt32.le_trans h.2 (by decide : 'f' ≤ 'z')
      rw [decide_eq_true h.1, decide_eq_true hz]
      rfl
    exact isWordChar_of_isLower hlower
  · have hupper : c.isUpper = true := by
      show decide ('A' ≤ c ∧ c ≤ 'Z') = true
      exact decide_eq_true ⟨h.1, UInt32.le_trans h.2 (by decide : 'F' ≤ 'Z')⟩
    have halpha : (c.isUpper || c.isLower) = true := by rw [hupper, Bool.true_or]
    exact isWordChar_of_isAlpha halpha

/-- A number is not the start of a `HEX` token. -/
theorem matchHex_digits (hall : ∀ d ∈ xs, d.isDigit = true) (hrest : Ends isWordChar rest) :
    matchHex (c :: (xs ++ rest)) = none := by
  have hx : ∀ x e, isWordChar x = true → x.isDigit = false → xs ++ rest ≠ x :: e := by
    intro x e hword hdigit heq
    rcases xs with _ | ⟨d, ds⟩
    · rw [List.nil_append] at heq
      subst heq
      exact absurd (hword.symm.trans hrest) (by decide)
    · obtain rfl := (List.cons.inj heq).1
      exact absurd ((hall d (List.mem_cons_self ..)).symm.trans hdigit) (by decide)
  unfold matchHex
  split
  · next heq => exact absurd (List.cons.inj heq).2 (hx 'x' _ (by decide) (by decide))
  · next heq => exact absurd (List.cons.inj heq).2 (hx 'X' _ (by decide) (by decide))
  · rfl

theorem matchHex_var (hc : c.isDigit = false) : matchHex (c :: rest) = none := by
  unfold matchHex
  split
  · next heq => exact absurd ((List.cons.inj heq).1 ▸ hc) (by decide)
  · next heq => exact absurd ((List.cons.inj heq).1 ▸ hc) (by decide)
  · rfl

end Matching

namespace Lexeme

variable {a : Lexeme} {rest : List Char}

theorem stops_operand {kind : OperandKind} {str : List Char} :
    (operand kind str).stops rest = true ↔ Ends isWordChar rest := by
  cases rest <;> simp [stops, Ends]

theorem spells_hex {str : List Char} (h : OperandKind.hex.spells str = true) :
    ∃ x ds, str = '0' :: x :: ds ∧ (x = 'x' ∨ x = 'X') ∧ ds ≠ [] ∧ ∀ d ∈ ds, isHexChar d = true := by
  unfold OperandKind.spells at h
  split at h
  · next hk => exact nomatch hk
  · next x ds _ =>
      simp only [Bool.and_eq_true, Bool.or_eq_true, beq_iff_eq, Bool.not_eq_true',
        List.isEmpty_eq_false_iff, List.all_eq_true] at h
      exact ⟨x, ds, rfl, h.1.1, h.1.2, h.2⟩
  · next hk => exact nomatch hk
  · next hk => exact nomatch hk
  · exact nomatch h

theorem spells_reg {str : List Char} (h : OperandKind.reg.spells str = true) :
    ∃ name, str = '$' :: name ∧ name ≠ [] ∧ ∀ c ∈ name, c.isLower = true := by
  unfold OperandKind.spells at h
  split at h
  · next hk => exact nomatch hk
  · next hk => exact nomatch hk
  · next name _ =>
      simp only [Bool.and_eq_true, Bool.not_eq_true', List.isEmpty_eq_false_iff,
        List.all_eq_true] at h
      exact ⟨name, rfl, h.1, h.2⟩
  · next hk => exact nomatch hk
  · exact nomatch h

theorem firstRule_operand {kind : OperandKind} {str : List Char}
    (hvalid : kind.spells str = true) (hstops : Ends isWordChar rest) :
    firstRule (str ++ rest) = some (kind.type, str.length) := by
  cases kind with
  | num =>
      simp only [OperandKind.spells, Bool.and_eq_true, List.all_eq_true] at hvalid
      obtain ⟨hne, hall⟩ := hvalid
      obtain ⟨d, ds, rfl⟩ : ∃ d ds, str = d :: ds := by
        cases str with
        | nil => exact nomatch hne
        | cons d ds => exact ⟨d, ds, rfl⟩
      have hends : Ends Char.isDigit rest := ends_mono (fun _ => isWordChar_of_isDigit) hstops
      have hmany : matchMany Char.isDigit (d :: ds ++ rest) = some (d :: ds).length :=
        matchMany_append (List.cons_ne_nil d ds) hall hends
      rw [List.cons_append] at hmany ⊢
      rw [firstRule_word (isWordChar_of_isDigit (hall d (List.mem_cons_self ..))),
        matchHex_digits (fun x hx => hall x (List.mem_cons_of_mem d hx)) hstops, hmany]
      rfl
  | hex =>
      obtain ⟨x, ds, rfl, hx, hne, hall⟩ := spells_hex hvalid
      have hmany : matchMany isHexChar (ds ++ rest) = some ds.length :=
        matchMany_append hne hall (ends_mono (fun _ => isWordChar_of_isHexChar) hstops)
      have hmatch : matchHex ('0' :: x :: (ds ++ rest)) = some (2 + ds.length) := by
        rcases hx with rfl | rfl
        · rw [matchHex, hmany]
          rfl
        · rw [matchHex, hmany]
          rfl
      rw [List.cons_append, List.cons_append, firstRule_word (by decide), hmatch]
      simp only [OperandKind.type, List.length_cons, Nat.add_comm, Nat.add_left_comm]
  | reg =>
      obtain ⟨name, rfl, hne, hall⟩ := spells_reg hvalid
      have hmany : matchMany Char.isLower (name ++ rest) = some name.length :=
        matchMany_append hne hall (ends_mono (fun _ => isWordChar_of_isLower) hstops)
      have hspace : matchMany isSpaceChar ('$' :: (name ++ rest)) = none :=
        matchMany_none (by decide)
      simp only [firstRule, rules, List.cons_append, List.findSome?_cons, hspace, matchText,
        List.isPrefixOf, matchReg, hmany]
      simp [OperandKind.type, Nat.add_comm]
  | var =>
      obtain ⟨c, cs, rfl⟩ : ∃ c cs, str = c :: cs := by
        cases str with
        | nil => exact nomatch hvalid
        | cons c cs => exact ⟨c, cs, rfl⟩
      simp only [OperandKind.spells, Bool.and_eq_true, List.all_eq_true, Bool.not_eq_true'] at hvalid
      obtain ⟨⟨hword, hdigit⟩, hall⟩ := hvalid
      have hmany : matchMany isWordChar (c :: cs ++ rest) = some (c :: cs).length :=
        matchMany_append (List.cons_ne_nil c cs) (by simpa using ⟨hword, hall⟩) hstops
      rw [List.cons_append] at hmany ⊢
      rw [firstRule_word hword, matchHex_var hdigit, matchMany_none hdigit, hmany]
      rfl

theorem firstRule_symbol {sym : Symbol} (hstops : (symbol sym).stops rest = true) :
    firstRule (sym.text ++ rest) = some (sym.rule, sym.text.length) := by
  cases sym with
  | bang =>
      cases rest with
      | nil => rfl
      | cons c cs =>
          have hc : ('=' == c) = false := by
            simp only [stops, bne_iff_ne, ne_eq] at hstops
            simpa using fun h => hstops h.symm
          have hspace : matchMany isSpaceChar ('!' :: c :: cs) = none := matchMany_none rfl
          have hdigit : matchMany Char.isDigit ('!' :: c :: cs) = none := matchMany_none rfl
          simp [firstRule, rules, Symbol.text, Symbol.rule, hspace, hdigit,
            matchText, matchReg, matchHex, List.isPrefixOf, hc]
  | _ => rfl

/-- The rules recognise a lexeme where it ends. -/
theorem firstRule_text (hvalid : a.valid = true) (hstops : a.stops rest = true) :
    firstRule (a.text ++ rest) = some (a.rule, a.text.length) := by
  cases a with
  | operand kind str => exact firstRule_operand hvalid (stops_operand.mp hstops)
  | symbol sym => exact firstRule_symbol hstops

/-- The characters of an operand. -/
theorem spells_chars {kind : OperandKind} {str : List Char} (h : kind.spells str = true) :
    ∀ c ∈ str, isWordChar c = true ∨ c = '$' := by
  intro c hc
  cases kind with
  | num =>
      simp only [OperandKind.spells, Bool.and_eq_true, List.all_eq_true] at h
      exact .inl (isWordChar_of_isDigit (h.2 c hc))
  | hex =>
      obtain ⟨x, ds, rfl, hx, -, hall⟩ := spells_hex h
      rcases List.mem_cons.mp hc with rfl | hc
      · exact .inl (by decide)
      · rcases List.mem_cons.mp hc with rfl | hc
        · rcases hx with rfl | rfl <;> exact .inl (by decide)
        · exact .inl (isWordChar_of_isHexChar (hall c hc))
  | reg =>
      obtain ⟨name, rfl, -, hall⟩ := spells_reg h
      rcases List.mem_cons.mp hc with rfl | hc
      · exact .inr rfl
      · exact .inl (isWordChar_of_isLower (hall c hc))
  | var =>
      cases str with
      | nil => exact nomatch hc
      | cons d ds =>
          simp only [OperandKind.spells, Bool.and_eq_true, List.all_eq_true] at h
          rcases List.mem_cons.mp hc with rfl | hc
          · exact .inl h.1.1
          · exact .inl (h.2 c hc)

theorem text_ne_blank (hvalid : a.valid = true) : ∀ c ∈ a.text, c ≠ ' ' := by
  rintro c hc rfl
  cases a with
  | symbol sym => cases sym <;> simp [text, Symbol.text] at hc
  | operand kind str => exact absurd (spells_chars hvalid ' ' hc) (by decide)

theorem text_ne_nil (hvalid : a.valid = true) : a.text ≠ [] := by
  cases a with
  | symbol sym => cases sym <;> simp [text, Symbol.text]
  | operand kind str =>
      rintro hnil
      obtain rfl : str = [] := hnil
      cases kind <;> exact nomatch hvalid

theorem ends_text (rest : List Char) (hvalid : a.valid = true) :
    Ends isSpaceChar (a.text ++ rest) := by
  obtain ⟨c, cs, hc⟩ := List.exists_cons_of_ne_nil (text_ne_nil hvalid)
  rw [hc]
  exact beq_eq_false_iff_ne.mpr (text_ne_blank hvalid c (by simp [hc]))

theorem stops_append {xs : List Char} (hne : xs ≠ []) (h : a.stops xs = true) :
    a.stops (xs ++ rest) = true := by
  cases xs with
  | nil => exact absurd rfl hne
  | cons c cs => cases a with
    | operand kind str => exact h
    | symbol sym => cases sym <;> exact h

theorem stops_blank (a : Lexeme) : a.stops (' ' :: rest) = true := by
  cases a with
  | operand kind str => rfl
  | symbol sym => cases sym <;> rfl

end Lexeme

/-! ## The loop of `make_token` -/

section MakeToken

variable {t : TokenTable} {a : Lexeme} {lexs : List Lexeme} {s rest blanks : List Char}

/-- Entries `i`, `i + 1`, ... are the given tokens. -/
def TokenTable.Holds (t : TokenTable) : Int → List Token → Prop
  | _, [] => True
  | i, tok :: toks => t.tokens i = tok ∧ Holds t (i + 1) toks

@[simp] theorem push_nr_token (type : TokenType) (str : List Char) :
    (t.push type str).nr_token = t.nr_token + 1 := rfl

@[simp] theorem push_tokens (type : TokenType) (str : List Char) :
    (t.push type str).tokens = Function.update t.tokens t.nr_token ⟨type, str⟩ := rfl

@[simp] theorem push_set (tok : Token) (type : TokenType) (str : List Char) :
    (t.set t.nr_token tok).push type str = t.push type str := by
  simp [TokenTable.push, TokenTable.set]

theorem record_lexeme_eq (a : Lexeme) (t : TokenTable) :
    record a.rule a.text t =
      if t.nr_token < NR_TOKEN ∧ a.text.length ≤ STR_SIZE then
        .ok (t.push a.token.type a.token.str)
      else .error .outOfBounds := by
  by_cases hroom : t.nr_token < NR_TOKEN
  · rw [record, if_pos hroom]
    cases a with
    | symbol sym =>
        have hlen : sym.text.length ≤ STR_SIZE := by cases sym <;> decide
        rw [if_pos ⟨hroom, hlen⟩]
        cases sym <;> exact congrArg Except.ok (push_set ..)
    | operand kind str =>
        have hcopy : ∀ type, (t.set t.nr_token { t.tokens t.nr_token with str := [] }).pushCopy
            type str = if t.nr_token < NR_TOKEN ∧ str.length ≤ STR_SIZE then
              .ok (t.push type str) else .error .outOfBounds := by
          intro type
          rw [TokenTable.pushCopy, push_set]
          by_cases hlen : str.length ≤ STR_SIZE
          · rw [if_pos hlen, if_pos ⟨hroom, hlen⟩]
          · rw [if_neg hlen, if_neg (fun h => hlen h.2)]
        cases kind <;> exact hcopy _
  · rw [record, if_neg hroom, if_neg (fun h => hroom h.1)]

theorem record_lexeme (hroom : t.nr_token < NR_TOKEN) (hlen : a.text.length ≤ STR_SIZE) :
    record a.rule a.text t = .ok (t.push a.token.type a.token.str) := by
  rw [record_lexeme_eq, if_pos ⟨hroom, hlen⟩]

/-- One round of the loop. -/
theorem makeTokenFrom_match {xs : List Char} {type : TokenType} (fuel : Nat) (t : TokenTable)
    (hne : xs ≠ []) (hfirst : firstRule (xs ++ rest) = some (type, xs.length)) :
    makeTokenFrom (fuel + 1) (xs ++ rest) t =
      (do
        let t ← record type xs t
        makeTokenFrom fuel rest t) := by
  cases xs with
  | nil => exact absurd rfl hne
  | cons c cs =>
      rw [List.cons_append] at hfirst ⊢
      simp only [makeTokenFrom, hfirst, List.length_cons, List.take_succ_cons, List.take_left',
        List.drop_succ_cons, List.drop_left']

theorem firstRule_blanks (hne : blanks ≠ []) (hblanks : ∀ c ∈ blanks, c = ' ')
    (hrest : Ends isSpaceChar rest) :
    firstRule (blanks ++ rest) = some (.NOTYPE, blanks.length) := by
  have hmany : matchMany isSpaceChar (blanks ++ rest) = some blanks.length :=
    matchMany_append hne (fun c hc => by rw [hblanks c hc]; rfl) hrest
  simp only [firstRule, rules, List.findSome?_cons, hmany, Option.map_some]

/-- The rest behind a lexeme does not belong to it. -/
theorem stops_spaced (hs : Spaced lexs s) (hjoins : (a :: lexs).IsChain (Lexeme.joins · · = true))
    (hvalid : ∀ b ∈ lexs, b.valid = true) : a.stops s = true := by
  cases hs with
  | nil hblanks =>
      cases s with
      | nil => cases a <;> rfl
      | cons c cs =>
          obtain rfl := hblanks c (List.mem_cons_self ..)
          exact a.stops_blank
  | @cons b lexs blanks s hblanks hrest =>
      cases blanks with
      | cons c cs =>
          obtain rfl := hblanks c (List.mem_cons_self ..)
          exact a.stops_blank
      | nil =>
          have hb := Lexeme.text_ne_nil (hvalid b (List.mem_cons_self ..))
          rw [List.nil_append]
          exact Lexeme.stops_append hb (List.isChain_cons_cons.mp hjoins).1

/-- `t'` is `t` with the lexemes recorded behind its tokens.  The entry after them has
    lost its string if blanks come last. -/
structure Lexed (t : TokenTable) (lexs : List Lexeme) (s : List Char) (t' : TokenTable) : Prop where
  nr_token : t'.nr_token = t.nr_token + lexs.length
  before : ∀ i : Int, i < t.nr_token → t'.tokens i = t.tokens i
  holds : t'.Holds t.nr_token (lexs.map Lexeme.token)
  next : (t'.tokens t'.nr_token).str =
    if s.getLast? = some ' ' then [] else (t.tokens t'.nr_token).str

/-- The table has room for the lexemes, and for the blanks after them. -/
def Room (t : TokenTable) (lexs : List Lexeme) (s : List Char) : Prop :=
  t.nr_token + lexs.length < NR_TOKEN ∨
    (t.nr_token + lexs.length = NR_TOKEN ∧ s.getLast? ≠ some ' ')

/-- A run of blanks only clears the string of the next entry. -/
theorem makeTokenFrom_blanks (hblanks : ∀ c ∈ blanks, c = ' ') (hrest : Ends isSpaceChar rest)
    (hroom : blanks ≠ [] → t.nr_token < NR_TOKEN) {fuel : Nat}
    (hfuel : (blanks ++ rest).length ≤ fuel) :
    ∃ fuel' t', makeTokenFrom fuel (blanks ++ rest) t = makeTokenFrom fuel' rest t' ∧
      rest.length ≤ fuel' ∧ t'.nr_token = t.nr_token ∧
      (∀ i : Int, i ≠ t.nr_token → t'.tokens i = t.tokens i) ∧
      (t'.tokens t.nr_token).str = if blanks = [] then (t.tokens t.nr_token).str else [] := by
  by_cases hne : blanks = []
  · subst hne
    exact ⟨fuel, t, rfl, hfuel, rfl, fun _ _ => rfl, rfl⟩
  · obtain ⟨fuel, rfl⟩ : ∃ n, fuel = n + 1 := by
      have hpos := List.length_pos_iff.mpr hne
      rw [List.length_append] at hfuel
      exact ⟨fuel - 1, by omega⟩
    have hrecord : record .NOTYPE blanks t =
        .ok (t.set t.nr_token { t.tokens t.nr_token with str := [] }) := by
      rw [record, if_pos (hroom hne)]
    have hrun := makeTokenFrom_match fuel t hne (firstRule_blanks hne hblanks hrest)
    rw [hrecord, ok_bind] at hrun
    refine ⟨fuel, _, hrun, ?_, rfl, fun i hi => Function.update_of_ne hi .., ?_⟩
    · have hpos := List.length_pos_iff.mpr hne
      rw [List.length_append] at hfuel
      omega
    · rw [if_neg hne]
      simp [TokenTable.set]

theorem getLast?_blanks (hblanks : ∀ c ∈ blanks, c = ' ') (hne : blanks ≠ []) :
    blanks.getLast? = some ' ' := by
  rw [List.getLast?_eq_some_getLast hne, hblanks _ (List.getLast_mem hne)]

theorem getLast?_lexeme (blanks s : List Char) (hvalid : a.valid = true) :
    (blanks ++ (a.text ++ s)).getLast? = some ' ' ↔ s.getLast? = some ' ' := by
  have hne := Lexeme.text_ne_nil hvalid
  rw [List.getLast?_append_of_ne_nil _ (by simp [hne])]
  cases s with
  | nil =>
      rw [List.append_nil, List.getLast?_eq_some_getLast hne]
      have hlast := Lexeme.text_ne_blank hvalid _ (List.getLast_mem hne)
      simp [hlast]
  | cons c cs => rw [List.getLast?_append_of_ne_nil _ (List.cons_ne_nil c cs)]

/-- The loop passes the blanks before a lexeme and comes to record it. -/
theorem makeTokenFrom_record (hblanks : ∀ c ∈ blanks, c = ' ') (ha : a.valid = true)
    (hstops : a.stops rest = true) (hroom : blanks ≠ [] → t.nr_token < NR_TOKEN) {fuel : Nat}
    (hfuel : (blanks ++ (a.text ++ rest)).length ≤ fuel) :
    ∃ fuel' t', makeTokenFrom fuel (blanks ++ (a.text ++ rest)) t =
        (do
          let t ← record a.rule a.text t'
          makeTokenFrom fuel' rest t) ∧
      rest.length ≤ fuel' ∧ t'.nr_token = t.nr_token ∧
      ∀ i : Int, i ≠ t.nr_token → t'.tokens i = t.tokens i := by
  have hne := Lexeme.text_ne_nil ha
  have hpos := List.length_pos_iff.mpr hne
  obtain ⟨fuel₁, t₁, hrun₁, hfuel₁, hnr₁, hothers₁, -⟩ :=
    makeTokenFrom_blanks hblanks (Lexeme.ends_text rest ha) hroom hfuel
  rw [List.length_append] at hfuel₁
  obtain ⟨fuel₂, rfl⟩ : ∃ n, fuel₁ = n + 1 := ⟨fuel₁ - 1, by omega⟩
  have hrun₂ := makeTokenFrom_match fuel₂ t₁ hne (Lexeme.firstRule_text ha hstops)
  exact ⟨fuel₂, t₁, hrun₁.trans hrun₂, by omega, hnr₁, hothers₁⟩

/-- A lexeme with the blanks before it is one more token. -/
theorem makeTokenFrom_lexeme (hblanks : ∀ c ∈ blanks, c = ' ') (ha : a.valid = true)
    (hstops : a.stops rest = true) (hlen : a.text.length ≤ STR_SIZE)
    (hroom : t.nr_token < NR_TOKEN) {fuel : Nat}
    (hfuel : (blanks ++ (a.text ++ rest)).length ≤ fuel) :
    ∃ fuel' t', makeTokenFrom fuel (blanks ++ (a.text ++ rest)) t = makeTokenFrom fuel' rest t' ∧
      rest.length ≤ fuel' ∧ t'.nr_token = t.nr_token + 1 ∧
      (∀ i : Int, i ≠ t.nr_token → t'.tokens i = t.tokens i) ∧ t'.tokens t.nr_token = a.token := by
  obtain ⟨fuel₁, t₁, hrun, hfuel₁, hnr₁, hothers₁⟩ :=
    makeTokenFrom_record hblanks ha hstops (fun _ => hroom) hfuel
  rw [record_lexeme (hnr₁ ▸ hroom) hlen, ok_bind] at hrun
  refine ⟨fuel₁, _, hrun, hfuel₁, ?_, fun i hi => ?_, ?_⟩
  · rw [push_nr_token, hnr₁]
  · rw [push_tokens, hnr₁, Function.update_of_ne hi, hothers₁ i hi]
  · rw [push_tokens, hnr₁, Function.update_self]

/-- `make_token` records the lexemes of a string. -/
theorem makeTokenFrom_spaced (hs : Spaced lexs s) (hjoins : lexs.IsChain (Lexeme.joins · · = true))
    (hvalid : ∀ a ∈ lexs, a.valid = true) (hlen : ∀ a ∈ lexs, a.text.length ≤ STR_SIZE)
    (fuel : Nat) (hfuel : s.length ≤ fuel) (t : TokenTable) (hroom : Room t lexs s) :
    ∃ t', makeTokenFrom fuel s t = .ok (true, t') ∧ Lexed t lexs s t' := by
  induction hs generalizing fuel t with
  | @nil blanks hblanks =>
      have hroom' : blanks ≠ [] → t.nr_token < NR_TOKEN := by
        intro hne
        rcases hroom with h | h
        · exact h
        · exact absurd (getLast?_blanks hblanks hne) h.2
      have hends : Ends isSpaceChar [] := trivial
      obtain ⟨fuel', t', hrun, -, hnr, hothers, hstr⟩ :=
        makeTokenFrom_blanks hblanks hends hroom' (by simpa using hfuel)
      rw [List.append_nil] at hrun
      refine ⟨t', ?_, hnr, fun i hi => hothers i (by omega), trivial, ?_⟩
      · rw [hrun]
        cases fuel' <;> rfl
      · rw [hnr, hstr]
        by_cases hne : blanks = []
        · subst hne
          rfl
        · rw [if_neg hne, if_pos (getLast?_blanks hblanks hne)]
  | @cons a lexs blanks s hblanks hrest ih =>
      have ha := hvalid a (List.mem_cons_self ..)
      have hvalid' : ∀ b ∈ lexs, b.valid = true := fun b hb => hvalid b (List.mem_cons_of_mem a hb)
      have hlast := getLast?_lexeme blanks s ha
      have hroom' : t.nr_token < NR_TOKEN := by
        rcases hroom with h | h <;> simp only [List.length_cons] at h <;> omega
      obtain ⟨fuel₁, t₁, hrun, hfuel₁, hnr₁, hothers₁, htoken₁⟩ :=
        makeTokenFrom_lexeme hblanks ha (stops_spaced hrest hjoins hvalid')
          (hlen a (List.mem_cons_self ..)) hroom' hfuel
      have hroom₁ : Room t₁ lexs s := by
        rw [Room, hnr₁]
        rw [Room, Ne, hlast, List.length_cons] at hroom
        rcases hroom with h | h
        · exact .inl (by omega)
        · exact .inr ⟨by omega, h.2⟩
      -- the rest
      obtain ⟨t', hrun', hlexed⟩ := ih hjoins.tail hvalid'
        (fun b hb => hlen b (List.mem_cons_of_mem a hb)) fuel₁ hfuel₁ t₁ hroom₁
      refine ⟨t', hrun.trans hrun', ?_, ?_, ⟨?_, ?_⟩, ?_⟩
      · rw [hlexed.nr_token, hnr₁, List.length_cons]
        omega
      · intro i hi
        rw [hlexed.before i (by omega), hothers₁ i (by omega)]
      · rw [hlexed.before _ (by omega), htoken₁]
      · have hholds := hlexed.holds
        rw [hnr₁] at hholds
        exact_mod_cast hholds
      · have hnr' := hlexed.nr_token
        simp only [hlast]
        rw [hlexed.next, hothers₁ _ (by omega)]

/-- A run of blanks needs an entry whose string it can clear. -/
theorem room_of_blanks (hblanks : ∀ c ∈ blanks, c = ' ') (hrest : Ends isSpaceChar rest)
    {fuel : Nat} {r : Bool × TokenTable} (h : makeTokenFrom fuel (blanks ++ rest) t = .ok r)
    (hne : blanks ≠ []) : t.nr_token < NR_TOKEN := by
  cases fuel with
  | zero =>
      obtain ⟨c, cs, rfl⟩ := List.exists_cons_of_ne_nil hne
      exact nomatch h
  | succ fuel =>
      rw [makeTokenFrom_match fuel t hne (firstRule_blanks hne hblanks hrest)] at h
      obtain ⟨t', hrecord, -⟩ := bind_eq_ok.mp h
      by_contra hfull
      rw [record, if_neg hfull] at hrecord
      exact nomatch hrecord

/-- If `make_token` returns, the table had room. -/
theorem room_of_makeTokenFrom (hs : Spaced lexs s)
    (hjoins : lexs.IsChain (Lexeme.joins · · = true)) (hvalid : ∀ a ∈ lexs, a.valid = true)
    (fuel : Nat) (hfuel : s.length ≤ fuel) (t : TokenTable) (hnr : t.nr_token ≤ NR_TOKEN)
    {r : Bool × TokenTable} (h : makeTokenFrom fuel s t = .ok r) :
    Room t lexs s ∧ ∀ a ∈ lexs, a.text.length ≤ STR_SIZE := by
  induction hs generalizing fuel t with
  | @nil blanks hblanks =>
      refine ⟨?_, fun a ha => nomatch ha⟩
      by_cases hne : blanks = []
      · subst hne
        rcases Nat.lt_or_eq_of_le hnr with hlt | heq
        · exact .inl hlt
        · exact .inr ⟨heq, by simp⟩
      · have hends : Ends isSpaceChar [] := trivial
        rw [← List.append_nil blanks] at h
        exact .inl (room_of_blanks hblanks hends h hne)
  | @cons a lexs blanks s hblanks hrest ih =>
      have ha := hvalid a (List.mem_cons_self ..)
      have hvalid' : ∀ b ∈ lexs, b.valid = true := fun b hb => hvalid b (List.mem_cons_of_mem a hb)
      have hlast := getLast?_lexeme blanks s ha
      have hroom := room_of_blanks hblanks (Lexeme.ends_text s ha) h
      obtain ⟨fuel₁, t₁, hrun₁, hfuel₁, hnr₁, -⟩ :=
        makeTokenFrom_record hblanks ha (stops_spaced hrest hjoins hvalid') hroom hfuel
      rw [hrun₁] at h
      obtain ⟨t₂, hrecord, h⟩ := bind_eq_ok.mp h
      rw [record_lexeme_eq] at hrecord
      split at hrecord
      · next hfits =>
          obtain rfl := Except.ok.inj hrecord
          obtain ⟨hroom, hlens⟩ :=
            ih hjoins.tail hvalid' fuel₁ hfuel₁ _ (by rw [push_nr_token]; omega) h
          refine ⟨?_, ?_⟩
          · rw [Room, push_nr_token, hnr₁] at hroom
            rw [Room, Ne, hlast, List.length_cons]
            rcases hroom with h | h
            · exact .inl (by omega)
            · exact .inr ⟨by omega, h.2⟩
          · intro b hb
            rcases List.mem_cons.mp hb with rfl | hb
            · exact hfits.2
            · exact hlens b hb
      · exact nomatch hrecord

end MakeToken

end Nemu
