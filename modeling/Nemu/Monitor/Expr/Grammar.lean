/-
  Nemu.Monitor.Expr.Grammar

  The expressions of the debugger as syntax trees: which trees are C expressions, the
  value C gives them, and the tree that the evaluator's search for an operator finds
  instead.
-/

import Nemu.Monitor.Expr.Eval
import Nemu.Monitor.Expr.Lexing

namespace Nemu

/-! ## Syntax trees -/

inductive BinOp where
  | or
  | and
  | eq
  | ne
  | add
  | sub
  | mul
  | div
deriving DecidableEq, Repr

/-- What stands in front of an operand.  `name` is a register or a variable directly
    before an operand, which no C expression has. -/
inductive Head where
  | neg
  | deref
  | not
  | name (kind : OperandKind) (str : List Char)
deriving DecidableEq, Repr

inductive Ast where
  | operand (kind : OperandKind) (str : List Char)
  | paren (e : Ast)
  | un (h : Head) (e : Ast)
  | bin (op : BinOp) (a b : Ast)
deriving DecidableEq, Repr

def BinOp.symbol : BinOp → Symbol
  | .or => .or
  | .and => .and
  | .eq => .eq
  | .ne => .ne
  | .add => .plus
  | .sub => .minus
  | .mul => .star
  | .div => .slash

def Head.lexeme : Head → Lexeme
  | .neg => .symbol .minus
  | .deref => .symbol .star
  | .not => .symbol .bang
  | .name kind str => .operand kind str

-- the token once `expr` has told the unary operators from the binary ones
def Head.token : Head → Token
  | .neg => ⟨.NEG, []⟩
  | .deref => ⟨.POINT, []⟩
  | .not => ⟨.bang, []⟩
  | .name kind str => ⟨kind.type, str⟩

namespace Ast

def lexemes : Ast → List Lexeme
  | operand kind str => [.operand kind str]
  | paren e => .symbol .lparen :: (e.lexemes ++ [.symbol .rparen])
  | un h e => h.lexeme :: e.lexemes
  | bin op a b => a.lexemes ++ .symbol op.symbol :: b.lexemes

def tokens : Ast → List Token
  | operand kind str => [⟨kind.type, str⟩]
  | paren e => Symbol.lparen.token :: (e.tokens ++ [Symbol.rparen.token])
  | un h e => h.token :: e.tokens
  | bin op a b => a.tokens ++ op.symbol.token :: b.tokens

end Ast

/-! ## C expressions -/

-- how loosely an operator binds in C; 4 and less is left to the unary operators
def BinOp.level : BinOp → Nat
  | .or => 9
  | .and => 8
  | .eq => 7
  | .ne => 7
  | .add => 6
  | .sub => 6
  | .mul => 5
  | .div => 5

-- an operator of C
def Head.isOperator : Head → Bool
  | .name _ _ => false
  | _ => true

namespace Ast

/-- The tree is a C expression of operators no looser than `level`: the left operand
    of an operator may be of its own level, the right one is tighter. -/
def cExpr : Nat → Ast → Bool
  | _, operand _ _ => true
  | _, paren e => e.cExpr 9
  | _, un h e => h.isOperator && e.cExpr 4
  | level, bin op a b => op.level ≤ level && a.cExpr op.level && b.cExpr (op.level - 1)

-- every operand is spelled as its kind asks
def spelled : Ast → Bool
  | operand kind str => kind.spells str
  | paren e => e.spelled
  | un _ e => e.spelled
  | bin _ a b => a.spelled && b.spelled

/-- A well-formed expression of the debugger. -/
def WellFormed (e : Ast) : Prop := e.cExpr 9 = true ∧ e.spelled = true

end Ast

/-! ## Values -/

def hexDigit (c : Char) : Nat :=
  if c.isDigit then c.toNat - '0'.toNat
  else if c.isLower then c.toNat - 'a'.toNat + 10
  else c.toNat - 'A'.toNat + 10

def hexadecimal (ds : List Char) : Nat := ds.foldl (fun n c => 16 * n + hexDigit c) 0

/-- The value of an operand: literals modulo 2^32, registers, variables of the program. -/
def OperandKind.value (env : ExprEnv) : OperandKind → List Char → Option (BitVec 32)
  | .num, str => some (BitVec.ofNat 32 (decimal str))
  | .hex, str => some (BitVec.ofNat 32 (hexadecimal (str.drop 2)))
  | .reg, str => namedReg env.emu.cpu str
  | .var, str => (env.symtab.find? (·.isObject str)).map Sym.st_value

/-- The operators on 32-bit words; a division must be one that C defines. -/
def BinOp.apply (x y : BitVec 32) : BinOp → Option (BitVec 32)
  | .or => some (boolInt (x ≠ 0 || y ≠ 0))
  | .and => some (boolInt (x ≠ 0 && y ≠ 0))
  | .eq => some (boolInt (x = y))
  | .ne => some (boolInt (x ≠ y))
  | .add => some (x + y)
  | .sub => some (x - y)
  | .mul => some (x * y)
  | .div => if y = 0 ∨ (x = BitVec.intMin 32 ∧ y = -1) then none else some (x.sdiv y)

def Head.apply (env : ExprEnv) (x : BitVec 32) : Head → Option (BitVec 32)
  | .neg => some (-x)
  | .deref => (readWord env x).toOption
  | .not => some (boolInt (x = 0))
  | .name _ _ => none

/-- The value of an expression, if it has one: `||` and `&&` need their right operand
    only where the left one does not decide. -/
def Ast.value (env : ExprEnv) : Ast → Option (BitVec 32)
  | operand kind str => kind.value env str
  | paren e => e.value env
  | un h e => do
      let x ← e.value env
      h.apply env x
  | bin op a b => do
      let x ← a.value env
      if op = .or ∧ x ≠ 0 then return 1
      else if op = .and ∧ x = 0 then return 0
      else
        let y ← b.value env
        op.apply x y

/-! ## The grouping of the evaluator -/

-- the priorities of `domi_position`; `&&` has the token type of `!=`
def BinOp.pri : BinOp → Nat
  | .or => 9
  | .and => 7
  | .eq => 7
  | .ne => 7
  | .add => 6
  | .sub => 6
  | .mul => 5
  | .div => 5

namespace Ast

/-- The trees whose root is the first operator of the highest priority: here the left
    operand is the tighter one. -/
def firstLoosest : Nat → Ast → Bool
  | _, operand _ _ => true
  | _, paren e => e.firstLoosest 9
  | _, un _ e => e.firstLoosest 4
  | pri, bin op a b => op.pri ≤ pri && a.firstLoosest (op.pri - 1) && b.firstLoosest op.pri

/-- `a op b` for trees of that kind: a chain of one priority is extended at its end. -/
def attach : Ast → BinOp → Ast → Ast
  | bin op' x y, op, b =>
      if op'.pri = op.pri then bin op' x (attach y op b) else bin op (bin op' x y) b
  | a, op, b => bin op a b

-- a head in front of the first operand
def pushHead (h : Head) : Ast → Ast
  | bin op a b => bin op (pushHead h a) b
  | e => un h e

/-- `a` ends in a register or a variable: the `-` or `*` behind it is taken as unary, and
    the name stands in front of what follows. -/
def splice : Ast → Head → Ast → Option Ast
  | operand .reg str, h, b => some (pushHead (.name .reg str) (pushHead h b))
  | operand .var str, h, b => some (pushHead (.name .var str) (pushHead h b))
  | operand _ _, _, _ => none
  | paren _, _, _ => none
  | un u e, h, b => (splice e h b).map (pushHead u)
  | bin op x y, h, b => (splice y h b).map (bin op x)

end Ast

-- what `expr` makes of an operator with no number or parenthesis before it
def BinOp.asHead : BinOp → Option Head
  | .sub => some .neg
  | .mul => some .deref
  | _ => none

namespace Ast

/-- The tree that the evaluator finds in the tokens of a tree. -/
def regroup : Ast → Ast
  | operand kind str => operand kind str
  | paren e => paren e.regroup
  | un h e => un h e.regroup
  | bin op a b =>
      match op.asHead.bind fun h => splice a.regroup h b.regroup with
      | some e => e
      | none => attach a.regroup op b.regroup

end Ast

end Nemu
