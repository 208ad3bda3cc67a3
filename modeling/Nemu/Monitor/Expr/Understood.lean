/-
  Nemu.Monitor.Expr.Understood

  The expression that the evaluator computes where it was given another one.  It groups
  operators in its own way (`regroup`), has `&&` for `!=`, takes the operand of `-` and
  `!` from the string of the last token, and the address of `*` from the register named
  two tokens on.  `understood` makes these changes to the tree, and `read_iff` says that
  the evaluator returns a value exactly if the changed tree has it as its value.
-/

import Nemu.Monitor.Expr.Strings

namespace Nemu

open Outcome

/-! ## Strict values -/

/-- The value of an operand as `eval` reads its token. -/
def OperandKind.asRead (env : ExprEnv) (kind : OperandKind) (str : List Char) :
    Option (BitVec 32) :=
  (evalToken env ⟨kind.type, str⟩).toOption

/-- The value of a tree, its operands read token by token, every one of them needed. -/
def Ast.strict (env : ExprEnv) : Ast → Option (BitVec 32)
  | operand kind str => kind.asRead env str
  | paren e => e.strict env
  | un h e => do
      let x ← e.strict env
      h.apply env x
  | bin op a b => do
      let x ← a.strict env
      let y ← b.strict env
      op.apply x y

/-! ## What the evaluator takes an expression for -/

/-- The registers that are known by name. -/
def regNames : List (List Char) :=
  [['$', 'e', 'a', 'x'], ['$', 'e', 'c', 'x'], ['$', 'e', 'd', 'x'], ['$', 'e', 'b', 'x'],
    ['$', 'e', 's', 'p'], ['$', 'e', 'b', 'p'], ['$', 'e', 's', 'i'], ['$', 'e', 'd', 'i'],
    ['$', 'e', 'i', 'p']]

-- the operator whose token type `make_token` stores
def BinOp.stored : BinOp → BinOp
  | .and => .ne
  | op => op

namespace Ast

-- the literal that `sscanf` finds in the last token
def lastLiteral (e : Ast) : Ast := operand .num e.last.str

/-- The expression computed for a tree; `next` is the string of the token behind it. -/
def understood (next : Except Abort (List Char)) : Ast → Ast
  | operand kind str => operand kind str
  | paren e => paren (e.understood (.ok []))
  | un .neg e => un .neg e.lastLiteral
  | un .not e => un .not e.lastLiteral
  | un .deref e | un (.name .var _) e =>
      match secondStr next e.tokens with
      | .ok str => un .deref (if str ∈ regNames then operand .reg str else e.understood next)
      | .error _ => un .deref (e.understood next)
  | un h e => un h (e.understood next)
  | bin op a b =>
      if a.first.type = .bang then un .not b.lastLiteral
      else bin op.stored (a.understood (.ok op.symbol.token.str)) (b.understood next)

/-- Every part that is evaluated has a value, those included whose value is not used. -/
def Evaluates (env : ExprEnv) (next : Except Abort (List Char)) : Ast → Prop
  | operand _ _ => True
  | paren e => e.Evaluates env (.ok [])
  | un h e =>
      e.Evaluates env next ∧ ((e.understood next).strict env).isSome ∧
        (h.token.type = .POINT → ∃ str, secondStr next e.tokens = .ok str)
  | bin op a b =>
      a.first.type = .bang ∨
        a.Evaluates env (.ok op.symbol.token.str) ∧ b.Evaluates env next

/-- `v` is understood for the tree, with the string `next` behind its last token. -/
def Understands (env : ExprEnv) (next : Except Abort (List Char)) (e : Ast)
    (v : BitVec 32) : Prop :=
  e.Evaluates env next ∧ (e.understood next).strict env = some v

/-! ## Reading is evaluating what was understood -/

section Read

variable {env : ExprEnv} {e : Ast} {v : BitVec 32}

theorem toOption_eq_some {x : Except Abort (BitVec 32)} : x.toOption = some v ↔ x = .ok v := by
  cases x with
  | error err => simp [Except.toOption]
  | ok y => simp [Except.toOption]

theorem isSome_ite_some {p : Prop} [Decidable p] {x : BitVec 32} {o : Option (BitVec 32)} :
    (if p then some x else o).isSome = true ↔ p ∨ o.isSome = true := by
  by_cases h : p
  · rw [if_pos h]
    exact iff_of_true rfl (.inl h)
  · rw [if_neg h]
    exact (or_iff_right h).symm

theorem namedReg_isSome_iff (c : CpuState) (str : List Char) :
    (namedReg c str).isSome = true ↔ str ∈ regNames := by
  simp only [namedReg, isSome_ite_some, regNames, List.mem_cons, List.not_mem_nil,
    Option.isSome_none, Bool.false_eq_true]

theorem namedReg_none {c : CpuState} {str : List Char} (h : str ∉ regNames) :
    namedReg c str = none := by
  rw [← Option.not_isSome_iff_eq_none, namedReg_isSome_iff]
  exact h

theorem strict_reg (env : ExprEnv) (str : List Char) :
    (operand .reg str).strict env = some ((namedReg env.emu.cpu str).getD 0) := rfl

theorem strict_bin {op : BinOp} {a b : Ast} :
    (bin op a b).strict env = some v ↔
      ∃ x y, a.strict env = some x ∧ b.strict env = some y ∧ op.apply x y = some v := by
  apply Iff.intro
  · intro h
    obtain ⟨x, hx, h⟩ := Option.bind_eq_some_iff.mp h
    obtain ⟨y, hy, hop⟩ := Option.bind_eq_some_iff.mp h
    exact ⟨x, y, hx, hy, hop⟩
  · rintro ⟨x, y, hx, hy, hop⟩
    rw [strict, hx, hy]
    exact hop

-- the literal of a leading `-` or `!`
theorem scanLast_iff (f : BitVec 32 → BitVec 32) (e : Ast) :
    scanLast f e = .ok v ↔ ∃ x, e.lastLiteral.strict env = some x ∧ f x = v := by
  have hliteral : e.lastLiteral.strict env = (do
      let str ← e.last.cstr
      return scanInt str : Except Abort (BitVec 32)).toOption := rfl
  rw [hliteral, scanLast, bind_eq_ok]
  simp only [toOption_eq_some, bind_eq_ok, pure_eq_ok]
  apply Iff.intro
  · rintro ⟨str, hstr, hf⟩
    exact ⟨_, ⟨str, hstr, rfl⟩, hf⟩
  · rintro ⟨x, ⟨str, hstr, rfl⟩, hf⟩
    exact ⟨str, hstr, hf⟩

-- `*`, and a variable in front of an operand
theorem point_iff {next : Except Abort (List Char)}
    (ih : ∀ x, e.read env next = .ok x ↔
      e.Evaluates env next ∧ (e.understood next).strict env = some x) :
    (∃ x, e.read env next = .ok x ∧ Head.read env next e x .deref = .ok v) ↔
      (un .deref e).Evaluates env next ∧
        ((un .deref e).understood next).strict env = some v := by
  have hdef : (un .deref e).Evaluates env next ↔ e.Evaluates env next ∧
      ((e.understood next).strict env).isSome ∧ ∃ str, secondStr next e.tokens = .ok str := by
    rw [Evaluates]
    exact and_congr_right fun _ => and_congr_right fun _ => ⟨fun h => h rfl, fun h _ => h⟩
  rw [hdef]
  cases hsecond : secondStr next e.tokens with
  | error err =>
      apply Iff.intro
      · rintro ⟨x, -, hread⟩
        rw [Head.read, hsecond] at hread
        cases hread
      · rintro ⟨⟨-, -, str, hstr⟩, -⟩
        cases hstr
  | ok str =>
      have hread : ∀ x, Head.read env next e x .deref
          = readWord env ((namedReg env.emu.cpu str).getD x) := by
        intro x
        rw [Head.read, hsecond]
        rfl
      simp only [hread, ih]
      rw [understood, hsecond]
      by_cases hreg : str ∈ regNames
      · -- the register stands for the operand, whose value is computed all the same
        obtain ⟨y, hy⟩ := Option.isSome_iff_exists.mp
          ((namedReg_isSome_iff env.emu.cpu str).mpr hreg)
        simp only [if_pos hreg, strict, strict_reg, hy]
        apply Iff.intro
        · rintro ⟨x, ⟨hev, hx⟩, hword⟩
          refine ⟨⟨hev, by rw [hx]; rfl, str, rfl⟩, ?_⟩
          exact toOption_eq_some.mpr hword
        · rintro ⟨⟨hev, hsome, -⟩, hword⟩
          obtain ⟨x, hx⟩ := Option.isSome_iff_exists.mp hsome
          exact ⟨x, ⟨hev, hx⟩, toOption_eq_some.mp hword⟩
      · simp only [if_neg hreg, strict, namedReg_none hreg]
        apply Iff.intro
        · rintro ⟨x, ⟨hev, hx⟩, hword⟩
          refine ⟨⟨hev, by rw [hx]; rfl, str, rfl⟩, ?_⟩
          rw [hx]
          exact toOption_eq_some.mpr hword
        · rintro ⟨⟨hev, hsome, -⟩, hword⟩
          obtain ⟨x, hx⟩ := Option.isSome_iff_exists.mp hsome
          rw [hx] at hword
          exact ⟨x, ⟨hev, hx⟩, toOption_eq_some.mp hword⟩

-- the value of an operator that is always defined
theorem strict_un {h : Head} {f : BitVec 32 → BitVec 32} (hf : ∀ x, h.apply env x = some (f x))
    (e : Ast) : (un h e).strict env = (e.strict env).map f := by
  rw [strict]
  cases e.strict env with
  | none => rfl
  | some x => exact hf x

-- `-` and `!`
theorem scan_iff {next : Except Abort (List Char)} {h : Head} (f : BitVec 32 → BitVec 32)
    (ih : ∀ x, e.read env next = .ok x ↔
      e.Evaluates env next ∧ (e.understood next).strict env = some x)
    (htype : h.token.type ≠ .POINT) (hread : ∀ x, Head.read env next e x h = scanLast f e)
    (hstrict : ((un h e).understood next).strict env = (e.lastLiteral.strict env).map f) :
    (∃ x, e.read env next = .ok x ∧ Head.read env next e x h = .ok v) ↔
      (un h e).Evaluates env next ∧ ((un h e).understood next).strict env = some v := by
  simp only [hread, ih]
  rw [hstrict, Option.map_eq_some_iff, Evaluates, ← scanLast_iff f e]
  apply Iff.intro
  · rintro ⟨x, ⟨hev, hx⟩, hlast⟩
    exact ⟨⟨hev, by rw [hx]; rfl, fun hp => absurd hp htype⟩, hlast⟩
  · rintro ⟨⟨hev, hsome, -⟩, hlast⟩
    obtain ⟨x, hx⟩ := Option.isSome_iff_exists.mp hsome
    exact ⟨x, ⟨hev, hx⟩, hlast⟩

theorem applyOp_iff (op : BinOp) (x y : BitVec 32) :
    applyOp op.symbol.token.type x y = .ok v ↔ op.stored.apply x y = some v := by
  cases op with
  | div =>
      simp only [applyOp, BinOp.symbol, Symbol.token, BinOp.stored, BinOp.apply]
      split
      · apply Iff.intro
        · intro h
          cases h
        · intro h
          cases h
      · rw [Except.ok.injEq, Option.some.injEq]
  | _ => exact ⟨fun h => congrArg some (Except.ok.inj h), fun h => congrArg Except.ok (Option.some.inj h)⟩

/-- The evaluator returns the value of the expression it understands. -/
theorem read_iff {next : Except Abort (List Char)} :
    e.read env next = .ok v ↔
      e.Evaluates env next ∧ (e.understood next).strict env = some v := by
  induction e generalizing next v with
  | operand kind str => exact toOption_eq_some.symm.trans (iff_and_self.mpr fun _ => trivial)
  | paren e ih => exact ih
  | un h e ih =>
      rw [read, bind_eq_ok]
      cases h with
      | neg =>
          exact scan_iff (- ·) (fun x => ih) TokenType.noConfusion (fun _ => rfl)
            (strict_un (h := .neg) (fun _ => rfl) _)
      | not =>
          exact scan_iff (fun x => boolInt (x = 0)) (fun x => ih) TokenType.noConfusion
            (fun _ => rfl) (strict_un (h := .not) (fun _ => rfl) _)
      | deref => exact point_iff fun x => ih
      | name kind str =>
          cases kind with
          | var => exact point_iff fun x => ih
          | _ =>
              apply Iff.intro
              · rintro ⟨x, -, hread⟩
                cases hread
              · rintro ⟨-, hstrict⟩
                simp only [understood, strict, Head.apply] at hstrict
                obtain ⟨x, -, hx⟩ := Option.bind_eq_some_iff.mp hstrict
                cases hx
  | bin op a b iha ihb =>
      rw [read, understood, Evaluates]
      by_cases hbang : a.first.type = .bang
      · have hnot : (un .not b.lastLiteral).strict env
            = (b.lastLiteral.strict env).map fun x => boolInt (x = 0) :=
          strict_un (fun _ => rfl) b.lastLiteral
        rw [if_pos hbang, if_pos hbang, hnot, Option.map_eq_some_iff, scanLast_iff]
        exact ⟨fun h => ⟨.inl hbang, h⟩, fun h => h.2⟩
      · rw [if_neg hbang, if_neg hbang, bind_eq_ok, strict_bin]
        apply Iff.intro
        · rintro ⟨x, hx, h⟩
          obtain ⟨y, hy, hop⟩ := bind_eq_ok.mp h
          obtain ⟨hax, hx'⟩ := iha.mp hx
          obtain ⟨hby, hy'⟩ := ihb.mp hy
          exact ⟨.inr ⟨hax, hby⟩, x, y, hx', hy', (applyOp_iff op x y).mp hop⟩
        · rintro ⟨hev, x, y, hx, hy, hop⟩
          obtain ⟨hax, hby⟩ := hev.resolve_left hbang
          refine ⟨x, iha.mpr ⟨hax, hx⟩, ?_⟩
          exact bind_eq_ok.mpr ⟨y, ihb.mpr ⟨hby, hy⟩, (applyOp_iff op x y).mpr hop⟩

end Read

end Ast

/-! ## `expr` -/

/-- The tokens fit the table, and their texts the strings. -/
def Fits (e : Ast) (s : List Char) : Prop :=
  Room .zeroed e.lexemes s ∧ ∀ a ∈ e.lexemes, a.text.length ≤ STR_SIZE

/-- `expr` returns `v` and leaves `*success` alone. -/
def Returns (env : ExprEnv) (s : List Char) (success : Option Bool) (t : TokenTable)
    (v : BitVec 32) : Prop :=
  ∃ t', expr env s success t = .ok (v, success, t')

/-- What `expr` returns for a string that spells a C expression. -/
theorem returns_iff_read {env : ExprEnv} {e : Ast} {s : List Char} (he : e.WellFormed)
    (hs : Spaced e.lexemes s) {success : Option Bool} {t : TokenTable} {v : BitVec 32} :
    Returns env s success t v ↔
      Fits e s ∧ e.regroup.read env (entryStr t s e.lexemes.length) = .ok v := by
  obtain ⟨hc, hspelled⟩ := he
  apply Iff.intro
  · rintro ⟨t', hexpr⟩
    obtain ⟨hfits, hread, -⟩ := expr_spaced_ok hc hspelled hs hexpr
    exact ⟨hfits, hread⟩
  · rintro ⟨⟨hroom, hlen⟩, hread⟩
    obtain ⟨t', -, -, hexpr⟩ := expr_spaced env hc hspelled hs hlen hroom success
    rw [hread, ok_bind] at hexpr
    exact ⟨t', hexpr⟩

/-- `expr` returns the value of the expression it understands. -/
theorem returns_iff_understood {env : ExprEnv} {e : Ast} {s : List Char} (he : e.WellFormed)
    (hs : Spaced e.lexemes s) {success : Option Bool} {t : TokenTable} {v : BitVec 32} :
    Returns env s success t v ↔
      Fits e s ∧ e.regroup.Evaluates env (entryStr t s e.lexemes.length) ∧
        (e.regroup.understood (entryStr t s e.lexemes.length)).strict env = some v := by
  rw [returns_iff_read he hs, Ast.read_iff]

end Nemu
