/-
  Nemu.Monitor.Expr.Eval

  The evaluator of `monitor/debug/expr.c` over the token table: `check_parentheses`,
  `domi_position`, `eval` and `expr`, with `getValue` of `elf.c`.
-/

import Nemu.Cpu.State
import Nemu.Monitor.Expr.Token

namespace Nemu

/-! ## The symbol table -/

/-- The fields of an `Elf32_Sym` that are used, with its name. -/
structure Sym where
  st_info : BitVec 8
  name : List Char
  st_value : BitVec 32
deriving DecidableEq, Repr

def STT_OBJECT : BitVec 8 := 1

def Sym.isObject (sym : Sym) (str : List Char) : Bool :=
  sym.st_info &&& 0xf == STT_OBJECT && sym.name == str

/-- `getValue`: the value and what it leaves in `*success`. -/
def getValue (symtab : List Sym) (str : List Char) (success : Bool) : BitVec 32 × Bool :=
  match symtab.find? (·.isObject str) with
  | some sym => (sym.st_value, success)
  | none => (0, false)

/-- What an expression is evaluated over. -/
structure ExprEnv where
  emu : Emu
  symtab : List Sym

def ExprEnv.zeroed : ExprEnv := { emu := .zeroed fun _ => 0, symtab := [] }

/-! ## Values of tokens -/

def digitValue (c : Char) : Nat := c.toNat - '0'.toNat

def decimal (ds : List Char) : Nat := ds.foldl (fun n c => 10 * n + digitValue c) 0

/-- `sscanf(str, "%d", &result)` on a 64-bit host: the digits at the start as a `long`,
    cut to 32 bits; 0, to which `result` was set, when there are none.  No token has
    blanks or signs in it. -/
def scanInt (str : List Char) : BitVec 32 :=
  BitVec.ofNat 32 (min (decimal (str.takeWhile Char.isDigit)) (2 ^ 63 - 1))

/-- The loop over the digits of a `HEX` token. -/
def hexInt (str : List Char) : BitVec 32 :=
  (str.drop 2).foldl
    (fun result c =>
      result * 16 + BitVec.ofInt 32
        (if c.toNat < 58 then (c.toNat : Int) - '0'.toNat else (c.toNat : Int) - 'a'.toNat + 10))
    0

/-- The register of a name, as both chains of `strcmp` have it. -/
def namedReg (c : CpuState) (str : List Char) : Option (BitVec 32) :=
  if str = ['$', 'e', 'a', 'x'] then some (c.gpr R_EAX)
  else if str = ['$', 'e', 'c', 'x'] then some (c.gpr R_ECX)
  else if str = ['$', 'e', 'd', 'x'] then some (c.gpr R_EDX)
  else if str = ['$', 'e', 'b', 'x'] then some (c.gpr R_EBX)
  else if str = ['$', 'e', 's', 'p'] then some (c.gpr R_ESP)
  else if str = ['$', 'e', 'b', 'p'] then some (c.gpr R_EBP)
  else if str = ['$', 'e', 's', 'i'] then some (c.gpr R_ESI)
  else if str = ['$', 'e', 'd', 'i'] then some (c.gpr R_EDI)
  else if str = ['$', 'e', 'i', 'p'] then some c.eip
  else none

-- `swaddr_read(addr, 4)`
def readWord (env : ExprEnv) (addr : BitVec 32) : Except Abort (BitVec 32) := do
  let (v, _) ← Emu.swaddrRead addr 4 env.emu
  return v

/-- `eval` on a single token. -/
def evalToken (env : ExprEnv) (tok : Token) : Except Abort (BitVec 32) :=
  match tok.type with
  | .NUM => do
      let str ← tok.cstr
      return scanInt str
  | .HEX => do
      let str ← tok.cstr
      return hexInt str
  -- `strcmp` with a name of four characters ends inside the array
  | .REG => .ok ((namedReg env.emu.cpu tok.str).getD 0)
  | .VAR => do
      let str ← tok.cstr
      let (result, success) := getValue env.symtab str false
      if success then .error .assertion else return result
  | _ => .error .assertion

/-! ## Searches in the table -/

/-- The loop of `check_parentheses` with the counters `j` and `k`, `n` tokens before
    the end. -/
def parensLoop (t : TokenTable) : Nat → Int → Nat → Nat → Bool
  | 0, _, j, k => j == k
  | n + 1, a, j, k =>
      let j := if (t.tokens a).type = .lparen then j + 1 else j
      let k := if (t.tokens a).type = .rparen then k + 1 else k
      if n ≠ 0 ∧ j = k then false else parensLoop t n (a + 1) j k

/-- `check_parentheses`. -/
def checkParentheses (t : TokenTable) (p q : Int) : Bool :=
  if (t.tokens p).type = .lparen ∨ (t.tokens q).type = .rparen then
    parensLoop t (q + 1 - p).toNat p 0 0
  else false

/-- The priorities of `domi_position`; 0 for a token that is no binary operator. -/
def tokenPri : TokenType → Nat
  | .OR => 9
  | .AND => 8
  | .EQ => 7
  | .NOTEQ => 7
  | .plus => 6
  | .minus => 6
  | .star => 5
  | .slash => 5
  | _ => 0

/-- The loop of `domi_position` with `step`, `pri` and `op`, `n` tokens before the end. -/
def domiLoop (t : TokenTable) : Nat → Int → Int → Nat → Int → Int
  | 0, _, _, _, op => op
  | n + 1, j, step, pri, op =>
      let type := (t.tokens j).type
      let step := if type = .lparen then step + 1 else step
      let step := if type = .rparen then step - 1 else step
      if step = 0 then
        if tokenPri type = 0 then
          if step < 0 then -2 else domiLoop t n (j + 1) step pri op
        else if pri < tokenPri type then domiLoop t n (j + 1) step (tokenPri type) j
        else domiLoop t n (j + 1) step pri op
      else domiLoop t n (j + 1) step pri op

/-- `domi_position`. -/
def domiPosition (t : TokenTable) (p q : Int) : Int :=
  domiLoop t (q + 1 - p).toNat p 0 0 (-1)

/-! ## `eval` -/

def boolInt (b : Bool) : BitVec 32 := if b then 1 else 0

/-- The `switch` over the dominant operator, on `int` operands; the host divide
    instruction faults on a zero divisor and on `INT_MIN / -1`. -/
def applyOp (type : TokenType) (val1 val2 : BitVec 32) : Except Abort (BitVec 32) :=
  match type with
  | .plus => .ok (val1 + val2)
  | .minus => .ok (val1 - val2)
  | .slash =>
      if val2 = 0 ∨ (val1 = BitVec.intMin 32 ∧ val2 = -1) then .error .divideError
      else .ok (val1.sdiv val2)
  | .star => .ok (val1 * val2)
  | .OR => .ok (boolInt (val1 ≠ 0 || val2 ≠ 0))
  | .AND => .ok (boolInt (val1 ≠ 0 && val2 ≠ 0))
  | .EQ => .ok (boolInt (val1 = val2))
  | .NOTEQ => .ok (boolInt (val1 ≠ val2))
  | _ => .error .assertion

-- `tokens[i].str`, where `i` may be behind the last entry
def strAt (t : TokenTable) (i : Int) : Except Abort (List Char) :=
  if i < NR_TOKEN then .ok (t.tokens i).str else .error .outOfBounds

/-- The `POINT` branch: the register named two tokens on, else the value of the rest,
    is the address. -/
def evalPoint (env : ExprEnv) (t : TokenTable) (p : Int) (val : BitVec 32) :
    Except Abort (BitVec 32) := do
  let str ← strAt t (p + 2)
  readWord env ((namedReg env.emu.cpu str).getD val)

/-- `eval`.  Every call is on fewer tokens, so their number bounds the depth. -/
def eval (env : ExprEnv) (t : TokenTable) : Nat → Int → Int → Except Abort (BitVec 32)
  | 0, _, _ => .error .outOfFuel
  | fuel + 1, p, q =>
      if q < p then .error .assertion
      else if p = q then evalToken env (t.tokens p)
      else if checkParentheses t p q then eval env t fuel (p + 1) (q - 1)
      else
        let op := domiPosition t p q
        -- from `if(tokens[p].type=='!')` on
        let rest : Except Abort (BitVec 32) :=
          if (t.tokens p).type = .bang then do
            let str ← (t.tokens q).cstr
            return boolInt (scanInt str = 0)
          else do
            let val1 ← eval env t fuel p (op - 1)
            let val2 ← eval env t fuel (op + 1) q
            applyOp (t.tokens op).type val1 val2
        if op = -1 then do
          let val ← eval env t fuel (p + 1) q
          match (t.tokens p).type with
          | .POINT => evalPoint env t p val
          | .NEG => do
              let str ← (t.tokens q).cstr
              return -scanInt str
          | _ => rest
        else rest

/-! ## `expr` -/

/-- Is `-` or `*` at `i` an operator between two operands? -/
def afterOperand (t : TokenTable) (i : Nat) : Bool :=
  i ≠ 0 && ((t.tokens (i - 1)).type = .NUM || (t.tokens (i - 1)).type = .HEX ||
    (t.tokens (i - 1)).type = .rparen)

-- the body of the loop in `expr`
def relabelAt (t : TokenTable) (i : Nat) : TokenTable :=
  let t := if (t.tokens i).type = .star ∧ ¬ afterOperand t i then
    t.set i { t.tokens i with type := .POINT } else t
  if (t.tokens i).type = .minus ∧ ¬ afterOperand t i then
    t.set i { t.tokens i with type := .NEG } else t

def relabelFrom (t : TokenTable) : Nat → Nat → TokenTable
  | 0, _ => t
  | n + 1, i => relabelFrom (relabelAt t i) n (i + 1)

-- `*` and `-` become `POINT` and `NEG` where no operand precedes them
def relabel (t : TokenTable) : TokenTable := relabelFrom t t.nr_token 0

/-- `expr`: the value, what `*success` holds afterwards (`none` for a null pointer), and
    the table. -/
def expr (env : ExprEnv) (e : List Char) (success : Option Bool) (t : TokenTable) :
    Except Abort (BitVec 32 × Option Bool × TokenTable) := do
  let (ok, t) ← makeToken e t
  if ok then
    let t := relabel t
    let v ← eval env t (t.nr_token + 1) 0 ((t.nr_token : Int) - 1)
    return (v, success, t)
  else
    match success with
    | none => .error .nullPointer
    | some _ => return (0, some false, t)

end Nemu
