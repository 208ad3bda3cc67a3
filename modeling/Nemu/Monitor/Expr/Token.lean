/-
  Nemu.Monitor.Expr.Token

  The tokenizer of `monitor/debug/expr.c`: the rules with their regular expressions,
  the token table and `make_token`.  A C string is the list of its characters before
  the terminator.
-/

import Mathlib.Logic.Function.Basic
import Nemu.Common

namespace Nemu

/-! ## Token types -/

/-- The values of the `enum` and the character codes that serve as token types. -/
inductive TokenType where
  | NOTYPE
  | EQ
  | NUM
  | HEX
  | REG
  | NOTEQ
  | OR
  | AND
  | POINT
  | NEG
  | plus
  | minus
  | star
  | slash
  | lparen
  | rparen
  | bang
deriving DecidableEq, Repr

-- `VAR=8`, which is also the value of `POINT`
@[match_pattern] abbrev TokenType.VAR : TokenType := .POINT

/-! ## Rules -/

def isSpaceChar (c : Char) : Bool := c == ' '

-- `[0-9a-fA-F]`
def isHexChar (c : Char) : Bool :=
  c.isDigit || ('a' ≤ c && c ≤ 'f') || ('A' ≤ c && c ≤ 'F')

-- `[a-zA-Z0-9_]`
def isWordChar (c : Char) : Bool := c.isAlphanum || c == '_'

-- A regular expression is the length of its match at the start of a string.

-- a fixed text
def matchText (text : List Char) (e : List Char) : Option Nat :=
  if text.isPrefixOf e then some text.length else none

-- `[...]+`
def matchMany (p : Char → Bool) (e : List Char) : Option Nat :=
  if (e.takeWhile p).isEmpty then none else some (e.takeWhile p).length

-- `\$[a-z]+`
def matchReg : List Char → Option Nat
  | '$' :: e => (matchMany Char.isLower e).map (1 + ·)
  | _ => none

-- `0[xX][0-9a-fA-F]+`
def matchHex : List Char → Option Nat
  | '0' :: 'x' :: e => (matchMany isHexChar e).map (2 + ·)
  | '0' :: 'X' :: e => (matchMany isHexChar e).map (2 + ·)
  | _ => none

structure Rule where
  regex : List Char → Option Nat
  token_type : TokenType

/-- `rules`.  The boundaries `\b` of the last one hold at the start of the string that
    `regexec` is given and at the end of a longest run of word characters. -/
def rules : List Rule :=
  [⟨matchMany isSpaceChar, .NOTYPE⟩,
   ⟨matchText ['-'], .minus⟩,
   ⟨matchText ['+'], .plus⟩,
   ⟨matchText ['/'], .slash⟩,
   ⟨matchText ['*'], .star⟩,
   ⟨matchReg, .REG⟩,
   ⟨matchHex, .HEX⟩,
   ⟨matchMany Char.isDigit, .NUM⟩,
   ⟨matchText ['=', '='], .EQ⟩,
   ⟨matchText ['!', '='], .NOTEQ⟩,
   ⟨matchText [')'], .rparen⟩,
   ⟨matchText ['('], .lparen⟩,
   ⟨matchText ['|', '|'], .OR⟩,
   ⟨matchText ['&', '&'], .AND⟩,
   ⟨matchText ['!'], .bang⟩,
   ⟨matchMany isWordChar, .VAR⟩]

/-- The first rule that matches at the start of `e`, and the length of its match. -/
def firstRule (e : List Char) : Option (TokenType × Nat) :=
  rules.findSome? fun r => (r.regex e).map fun substr_len => (r.token_type, substr_len)

/-! ## The token table -/

/-- `Token`.  The characters of `str` are those before the first `'\0'`. -/
structure Token where
  type : TokenType
  str : List Char
deriving DecidableEq, Repr

-- the length of `tokens` and of the array `str` of a token
def NR_TOKEN : Nat := 32

def STR_SIZE : Nat := 32

/-- `tokens` and `nr_token`. -/
structure TokenTable where
  tokens : Int → Token
  nr_token : Nat

/-- The zero-initialised table; the type of an entry is not read before it is written. -/
def TokenTable.zeroed : TokenTable := { tokens := fun _ => ⟨.NOTYPE, []⟩, nr_token := 0 }

/-- The string in `str`, which is unterminated when it fills the array. -/
def Token.cstr (tok : Token) : Except Abort (List Char) :=
  if tok.str.length < STR_SIZE then .ok tok.str else .error .outOfBounds

namespace TokenTable

def set (t : TokenTable) (i : Int) (tok : Token) : TokenTable :=
  { t with tokens := Function.update t.tokens i tok }

-- `tokens[nr_token]` is filled and `nr_token` counted up
def push (t : TokenTable) (type : TokenType) (str : List Char) : TokenTable :=
  { t.set t.nr_token ⟨type, str⟩ with nr_token := t.nr_token + 1 }

-- the same after `strncpy` of the matched text, which may not leave the array
def pushCopy (t : TokenTable) (type : TokenType) (substr : List Char) :
    Except Abort TokenTable :=
  if substr.length ≤ STR_SIZE then .ok (t.push type substr) else .error .outOfBounds

end TokenTable

/-! ## `make_token` -/

/-- What is recorded for a match of a rule. -/
def record (token_type : TokenType) (substr : List Char) (t : TokenTable) :
    Except Abort TokenTable :=
  -- `tokens[nr_token].str` is cleared first, whatever the rule
  if t.nr_token < NR_TOKEN then
    let t := t.set t.nr_token { t.tokens t.nr_token with str := [] }
    match token_type with
    | .NOTYPE => .ok t
    | .EQ => .ok (t.push .EQ ['=', '='])
    | .NUM => t.pushCopy .NUM substr
    | .HEX => t.pushCopy .HEX substr
    | .REG => t.pushCopy .REG substr
    | .NOTEQ => .ok (t.push .NOTEQ ['!', '='])
    | .OR => .ok (t.push .OR ['|', '|'])
    -- `case 7` stores type 5
    | .AND => .ok (t.push .NOTEQ ['&', '&'])
    | .plus => .ok (t.push .plus [])
    | .minus => .ok (t.push .minus [])
    | .star => .ok (t.push .star [])
    | .slash => .ok (t.push .slash [])
    | .lparen => .ok (t.push .lparen [])
    | .rparen => .ok (t.push .rparen [])
    | .bang => .ok (t.push .bang [])
    | .VAR => t.pushCopy .VAR substr
    | .NEG => .error .assertion
  else .error .outOfBounds

/-- The loop of `make_token` over the rest of the string; a match is at least one
    character long, so the length of the string bounds it. -/
def makeTokenFrom : Nat → List Char → TokenTable → Except Abort (Bool × TokenTable)
  | _, [], t => .ok (true, t)
  | 0, _ :: _, _ => .error .outOfFuel
  | fuel + 1, e, t =>
      match firstRule e with
      | none => .ok (false, t)
      | some (token_type, substr_len) => do
          let t ← record token_type (e.take substr_len) t
          makeTokenFrom fuel (e.drop substr_len) t

/-- `make_token`. -/
def makeToken (e : List Char) (t : TokenTable) : Except Abort (Bool × TokenTable) :=
  makeTokenFrom e.length e { t with nr_token := 0 }

end Nemu
