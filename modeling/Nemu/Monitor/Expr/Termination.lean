/-
  Nemu.Monitor.Expr.Termination

  The recursion of `eval`.

  Its four calls are on ranges that the two searches of the table compute, for any table.
  `domi_position` may also answer -1 or -2.  Then the left operand is the range up to -2
  or -3, which is empty and asserts at once, so that the right operand, which would be as
  long as before, is never asked for.
-/

import Nemu.Lib.Recursion
import Nemu.Monitor.Expr.Reading

namespace Nemu

open Outcome

/-! ## One call -/

/-- The results of `eval`, as a function of the two indices. -/
abbrev EvalFn := Int × Int → Except Abort (BitVec 32)

/-- A call of `eval`, whose own calls answer as `f` does. -/
def evalBody (env : ExprEnv) (t : TokenTable) (f : EvalFn) (r : Int × Int) :
    Except Abort (BitVec 32) :=
  let (p, q) := r
  if q < p then .error .assertion
  else if p = q then evalToken env (t.tokens p)
  else if checkParentheses t p q then f (p + 1, q - 1)
  else
    let op := domiPosition t p q
    let rest : Except Abort (BitVec 32) :=
      if (t.tokens p).type = .bang then do
        let str ← (t.tokens q).cstr
        return boolInt (scanInt str = 0)
      else do
        let val1 ← f (p, op - 1)
        let val2 ← f (op + 1, q)
        applyOp (t.tokens op).type val1 val2
    if op = -1 then do
      let val ← f (p + 1, q)
      match (t.tokens p).type with
      | .POINT => evalPoint env t p val
      | .NEG => do
          let str ← (t.tokens q).cstr
          return -scanInt str
      | _ => rest
    else rest

/-- `eval` with a given depth is that call unrolled. -/
theorem eval_eq_run (env : ExprEnv) (t : TokenTable) (fuel : Nat) :
    (fun r : Int × Int => eval env t fuel r.1 r.2) =
      Recursion.run (evalBody env t) (.error .outOfFuel) fuel := by
  induction fuel with
  | zero => rfl
  | succ fuel ih =>
      funext r
      show eval env t (fuel + 1) r.1 r.2 = evalBody env t (Recursion.run _ _ fuel) r
      rw [← ih, eval]
      rfl

/-- `eval` gets to the operands of the dominant operator at `op`: what it does before
    for `op = -1` has returned and did not settle the result. -/
def FallsThrough (t : TokenTable) (f : EvalFn) (p q op : Int) : Prop :=
  (t.tokens p).type ≠ .bang ∧
    (op = -1 → (∃ v, f (p + 1, q) = .ok v) ∧ (t.tokens p).type ≠ .POINT ∧
      (t.tokens p).type ≠ .NEG)

/-- The calls that `eval` makes on `p`, `q`, each with what the code has tested or computed
    before it. -/
inductive Calls (t : TokenTable) (f : EvalFn) (p q : Int) : Int × Int → Prop
  | parens (hpq : p < q) (hcheck : checkParentheses t p q = true) : Calls t f p q (p + 1, q - 1)
  | unary (hpq : p < q) (hcheck : checkParentheses t p q = false)
      (hop : domiPosition t p q = -1) : Calls t f p q (p + 1, q)
  | left (hpq : p < q) (hcheck : checkParentheses t p q = false)
      (hrest : FallsThrough t f p q (domiPosition t p q)) :
      Calls t f p q (p, domiPosition t p q - 1)
  | right (hpq : p < q) (hcheck : checkParentheses t p q = false)
      (hrest : FallsThrough t f p q (domiPosition t p q)) {val1 : BitVec 32}
      (hval1 : f (p, domiPosition t p q - 1) = .ok val1) :
      Calls t f p q (domiPosition t p q + 1, q)

/-- The two operands of the operator at `op`. -/
def operands (t : TokenTable) (f : EvalFn) (p q op : Int) : Except Abort (BitVec 32) := do
  let val1 ← f (p, op - 1)
  let val2 ← f (op + 1, q)
  applyOp (t.tokens op).type val1 val2

theorem operands_congr {t : TokenTable} {f g : EvalFn} {p q op : Int}
    (hleft : f (p, op - 1) = g (p, op - 1))
    (hright : ∀ val1, f (p, op - 1) = .ok val1 → f (op + 1, q) = g (op + 1, q)) :
    operands t f p q op = operands t g p q op := by
  rw [operands, operands, ← hleft]
  cases hval1 : f (p, op - 1) with
  | error e => rfl
  | ok val1 => rw [ok_bind, ok_bind, hright val1 hval1]

/-- These are all the calls: nothing else about `f` matters. -/
theorem evalBody_congr (env : ExprEnv) (t : TokenTable) (f g : EvalFn) (r : Int × Int)
    (hfg : ∀ r', Calls t f r.1 r.2 r' → f r' = g r') : evalBody env t f r = evalBody env t g r := by
  obtain ⟨p, q⟩ := r
  dsimp only at hfg
  rw [evalBody, evalBody]
  dsimp only
  by_cases hempty : q < p
  · rw [if_pos hempty, if_pos hempty]
  by_cases hone : p = q
  · rw [if_neg hempty, if_neg hempty, if_pos hone, if_pos hone]
  have hpq : p < q := by omega
  rw [if_neg hempty, if_neg hempty, if_neg hone, if_neg hone]
  by_cases hcheck : checkParentheses t p q = true
  · rw [if_pos hcheck, if_pos hcheck]
    exact hfg _ (.parens hpq hcheck)
  rw [if_neg hcheck, if_neg hcheck]
  have hcheck' : checkParentheses t p q = false := Bool.eq_false_iff.mpr hcheck
  have hrest : FallsThrough t f p q (domiPosition t p q) →
      operands t f p q (domiPosition t p q) = operands t g p q (domiPosition t p q) :=
    fun hfall => operands_congr (hfg _ (.left hpq hcheck' hfall))
      (fun _ hval1 => hfg _ (.right hpq hcheck' hfall hval1))
  by_cases hop : domiPosition t p q = -1
  · rw [if_pos hop, if_pos hop, ← hfg _ (.unary hpq hcheck' hop)]
    cases hval : f (p + 1, q) with
    | error e => rfl
    | ok val =>
        rw [ok_bind, ok_bind]
        cases htype : (t.tokens p).type with
        | POINT => rfl
        | NEG => rfl
        | bang => rfl
        | _ =>
            simp only [reduceCtorEq, if_false]
            refine hrest ⟨?_, fun _ => ⟨⟨val, hval⟩, ?_, ?_⟩⟩ <;> rw [htype] <;>
              exact TokenType.noConfusion
  · rw [if_neg hop, if_neg hop]
    by_cases hbang : (t.tokens p).type = .bang
    · rw [if_pos hbang, if_pos hbang]
    · rw [if_neg hbang, if_neg hbang]
      exact hrest ⟨hbang, fun h => absurd h hop⟩

/-! ## The calls are shorter -/

/-- An operator of the range, or one of the two sentinels. -/
theorem domiPosition_range (t : TokenTable) {p q : Int} (hpq : p ≤ q) :
    domiPosition t p q = -2 ∨ domiPosition t p q = -1 ∨
      (p ≤ domiPosition t p q ∧ domiPosition t p q ≤ q) := by
  rw [domiPosition]
  apply domiLoop_rule (P := fun op => op = -2 ∨ op = -1 ∨ (p ≤ op ∧ op ≤ q))
  · exact .inl rfl
  · exact .inr (.inl rfl)
  · intro i hpi hi
    exact .inr (.inr ⟨hpi, by omega⟩)

/-- Inside `p`, `q` and shorter. -/
def Shorter (p q : Int) (r : Int × Int) : Prop := p ≤ r.1 ∧ r.2 ≤ q ∧ r.2 - r.1 < q - p

section Shorter

variable {t : TokenTable} {f : EvalFn} {p q : Int} {r : Int × Int}

/-- A call is shorter or on an empty range, if calls on empty ranges do not return. -/
theorem Calls.shorter (hempty : ∀ r v, r.2 < r.1 → f r ≠ .ok v) (hp : 0 ≤ p)
    (h : Calls t f p q r) : Shorter p q r ∨ r.2 < r.1 := by
  cases h with
  | parens hpq _ => exact .inl ⟨by dsimp only; omega, by dsimp only; omega, by dsimp only; omega⟩
  | unary hpq _ _ => exact .inl ⟨by dsimp only; omega, le_refl q, by dsimp only; omega⟩
  | left hpq _ _ =>
      rcases domiPosition_range t (le_of_lt hpq) with hop | hop | hop
      · exact .inr (by dsimp only; omega)
      · exact .inr (by dsimp only; omega)
      · exact .inl ⟨le_refl p, by dsimp only; omega, by dsimp only; omega⟩
  | @right hpq _ _ val1 hval1 =>
      -- with a sentinel the left operand has not returned
      have hleft : ¬ domiPosition t p q - 1 < p := fun h => hempty _ val1 h hval1
      rcases domiPosition_range t (le_of_lt hpq) with hop | hop | hop
      · omega
      · omega
      · exact .inl ⟨by dsimp only; omega, le_refl q, by dsimp only; omega⟩

theorem Calls.nonempty (h : Calls t f p q r) : p < q := by
  cases h <;> assumption

end Shorter

section Eval

variable (env : ExprEnv) (t : TokenTable)

/-- The calls of `eval` descend, from any range whose first index is no sentinel. -/
theorem eval_descends : Recursion.Descends (evalBody env t) (.error .outOfFuel)
    (fun r => 0 ≤ r.1 ∨ r.2 < r.1) (fun f r => Calls t f r.1 r.2)
    (fun r => (r.2 + 1 - r.1).toNat) := by
  have hempty : ∀ n r v, r.2 < r.1 →
      Recursion.run (evalBody env t) (.error .outOfFuel) n r ≠ .ok v := by
    intro n r v hr h
    rw [← eval_eq_run] at h
    have hle : r.1 ≤ r.2 := eval_ok_le h
    omega
  have hshort : ∀ (n : Nat) (a b : Int × Int), 0 ≤ a.1 ∨ a.2 < a.1 →
      Calls t (Recursion.run (evalBody env t) (.error .outOfFuel) n) a.1 a.2 b →
      0 ≤ a.1 ∧ a.1 < a.2 ∧ (Shorter a.1 a.2 b ∨ b.2 < b.1) := by
    intro n a b hdom hcall
    have hpq := hcall.nonempty
    have hp : 0 ≤ a.1 := hdom.resolve_right (by omega)
    exact ⟨hp, hpq, hcall.shorter (hempty n) hp⟩
  refine ⟨evalBody_congr env t, ?_, ?_⟩
  · intro n a b hdom hcall
    obtain ⟨hp, -, hshorter | hb⟩ := hshort n a b hdom hcall
    · exact .inl (le_trans hp hshorter.1)
    · exact .inr hb
  · intro n a b hdom hcall
    obtain ⟨-, hpq, hshorter | hb⟩ := hshort n a b hdom hcall
    · have hlen := hshorter.2.2
      omega
    · omega

end Eval

/-! ## How a call ends -/

/-- What stops a call on `p`, `q`: a failed assertion, the divide instruction at a `/` of the
    range, or a string that is read past its array or behind the table. -/
def StopsBy (t : TokenTable) (p q : Int) : Abort → Prop
  | .assertion => True
  | .divideError => ∃ i, p ≤ i ∧ i ≤ q ∧ (t.tokens i).type = .slash
  | .outOfBounds => ∃ i, p ≤ i ∧ i ≤ q ∧
      (STR_SIZE ≤ (t.tokens i).str.length ∨ (t.tokens i).type = .POINT ∧ (NR_TOKEN : Int) ≤ i + 2)
  | .nullPointer => False
  | .outOfFuel => False

/-- The outcome of a call on `p`, `q`. -/
def EvalEnds (t : TokenTable) (r : Int × Int) (x : Except Abort (BitVec 32)) : Prop :=
  ∀ e, x = .error e → StopsBy t r.1 r.2 e

section Ends

variable {env : ExprEnv} {t : TokenTable} {p q : Int}

theorem StopsBy.mono {p' q' : Int} {e : Abort} (h : StopsBy t p' q' e) (hp : p ≤ p')
    (hq : q' ≤ q) : StopsBy t p q e := by
  cases e with
  | assertion => exact trivial
  | divideError =>
      obtain ⟨i, hpi, hiq, htype⟩ := h
      exact ⟨i, by omega, by omega, htype⟩
  | outOfBounds =>
      obtain ⟨i, hpi, hiq, hread⟩ := h
      exact ⟨i, by omega, by omega, hread⟩
  | nullPointer => exact h
  | outOfFuel => exact h

theorem EvalEnds.ok {r : Int × Int} (v : BitVec 32) : EvalEnds t r (.ok v) := fun _ h => nomatch h

theorem EvalEnds.assertion {r : Int × Int} : EvalEnds t r (.error .assertion) := by
  intro e he
  obtain rfl := Except.error.inj he
  exact trivial

/-- A program that stops in its first part, or goes on. -/
theorem EvalEnds.bind {γ : Type} {r : Int × Int} {x : Except Abort γ} {k : γ → Except Abort (BitVec 32)}
    (hx : ∀ e, x = .error e → StopsBy t r.1 r.2 e) (hk : ∀ v, x = .ok v → EvalEnds t r (k v)) :
    EvalEnds t r (x >>= k) := by
  cases x with
  | error e =>
      intro e' he
      obtain rfl := Except.error.inj he
      exact hx e rfl
  | ok v => exact hk v rfl

/-- Reading the string of a token of the range. -/
theorem cstr_stops {i : Int} (hpi : p ≤ i) (hiq : i ≤ q) {e : Abort}
    (he : (t.tokens i).cstr = .error e) : StopsBy t p q e := by
  rw [Token.cstr] at he
  split at he
  · exact nomatch he
  · obtain rfl := Except.error.inj he
    exact ⟨i, hpi, hiq, .inl (by omega)⟩

theorem evalToken_ends (p : Int) : EvalEnds t (p, p) (evalToken env (t.tokens p)) := by
  have hcstr : ∀ e, (t.tokens p).cstr = .error e → StopsBy t p p e :=
    fun e => cstr_stops (le_refl p) (le_refl p)
  rw [evalToken]
  split
  · exact .bind hcstr (fun _ _ => .ok _)
  · exact .bind hcstr (fun _ _ => .ok _)
  · exact .ok _
  · refine .bind hcstr (fun str _ => ?_)
    dsimp only
    split
    · exact .assertion
    · exact .ok _
  · exact .assertion

-- memory fails by assertion only
theorem readWord_ends {r : Int × Int} (addr : BitVec 32) : EvalEnds t r (readWord env addr) := by
  have hread : ∀ e, Emu.swaddrRead addr 4 env.emu = .error e → e = .assertion := by
    intro e he
    by_cases hin : FlatMem.InRange addr 4
    · rw [Emu.swaddrRead_run rfl (FlatMem.read_eq_ok.mpr ⟨hin, rfl⟩)] at he
      exact nomatch he
    · have hfail : Emu.swaddrRead addr 4 env.emu = .error .assertion := by
        simp [Emu.swaddrRead, FlatMem.read, hin]
      rw [hfail] at he
      exact (Except.error.inj he).symm
  rw [readWord]
  refine .bind (fun e he => ?_) (fun _ _ => .ok _)
  rw [hread e he]
  exact trivial

theorem evalPoint_ends (hpq : p ≤ q) (htype : (t.tokens p).type = .POINT) (val : BitVec 32) :
    EvalEnds t (p, q) (evalPoint env t p val) := by
  rw [evalPoint]
  refine .bind (fun e he => ?_) (fun _ _ => readWord_ends _)
  rw [strAt] at he
  split at he
  · cases he
  · obtain rfl := Except.error.inj he
    exact ⟨p, le_refl p, hpq, .inr ⟨htype, by omega⟩⟩

/-- The switch over the dominant operator faults at a division only. -/
theorem applyOp_ends {i : Int} (hpi : p ≤ i) (hiq : i ≤ q) (val1 val2 : BitVec 32) :
    EvalEnds t (p, q) (applyOp (t.tokens i).type val1 val2) := by
  cases htype : (t.tokens i).type with
  | slash =>
      rw [applyOp]
      split
      · intro e he
        obtain rfl := Except.error.inj he
        exact ⟨i, hpi, hiq, htype⟩
      · exact .ok _
  | plus | minus | star | OR | AND | EQ | NOTEQ => exact .ok _
  | _ => exact .assertion

end Ends

/-! ## The whole recursion -/

section Whole

variable {env : ExprEnv} {t : TokenTable}

/-- What a call keeps: an empty range fails the assertion, any other range ends within it. -/
def CallEnds (t : TokenTable) (r : Int × Int) (x : Except Abort (BitVec 32)) : Prop :=
  (r.2 < r.1 → x = .error .assertion) ∧ EvalEnds t r x

theorem operands_ends {f : EvalFn} {p q op : Int} (hop : op = -2 ∨ op = -1 ∨ (p ≤ op ∧ op ≤ q))
    (hp : 0 ≤ p) (hpq : p ≤ q) (hleft : CallEnds t (p, op - 1) (f (p, op - 1)))
    (hright : ∀ val1, f (p, op - 1) = .ok val1 → CallEnds t (op + 1, q) (f (op + 1, q))) :
    EvalEnds t (p, q) (operands t f p q op) := by
  refine .bind (fun e he => (hleft.2 e he).mono (le_refl p) (by dsimp only; omega)) ?_
  intro val1 hval1
  -- the left operand has returned, so that there is an operator
  have hnonempty : ¬ op - 1 < p := by
    intro hlt
    rw [hleft.1 hlt] at hval1
    exact nomatch hval1
  refine .bind (fun e he => ?_) (fun val2 _ => applyOp_ends (by omega) (by omega) val1 val2)
  exact ((hright val1 hval1).2 e he).mono (by dsimp only; omega) (le_refl q)

theorem evalBody_ends (f : EvalFn) (r : Int × Int) (hdom : 0 ≤ r.1 ∨ r.2 < r.1)
    (hcalls : ∀ r', Calls t f r.1 r.2 r' → CallEnds t r' (f r')) :
    CallEnds t r (evalBody env t f r) := by
  obtain ⟨p, q⟩ := r
  dsimp only at hdom hcalls
  rw [evalBody]
  dsimp only
  by_cases hempty : q < p
  · rw [if_pos hempty]
    exact ⟨fun _ => rfl, .assertion⟩
  rw [if_neg hempty]
  refine ⟨fun h => absurd h hempty, ?_⟩
  have hp : 0 ≤ p := hdom.resolve_right hempty
  by_cases hone : p = q
  · subst hone
    rw [if_pos rfl]
    exact evalToken_ends p
  have hpq : p < q := by omega
  rw [if_neg hone]
  by_cases hcheck : checkParentheses t p q = true
  · rw [if_pos hcheck]
    intro e he
    exact ((hcalls _ (.parens hpq hcheck)).2 e he).mono (by dsimp only; omega) (by dsimp only; omega)
  rw [if_neg hcheck]
  have hcheck' : checkParentheses t p q = false := Bool.eq_false_iff.mpr hcheck
  have hop := domiPosition_range t hpq.le
  have hoperands : FallsThrough t f p q (domiPosition t p q) →
      EvalEnds t (p, q) (operands t f p q (domiPosition t p q)) :=
    fun hfall => operands_ends hop hp hpq.le (hcalls _ (.left hpq hcheck' hfall))
      (fun val1 hval1 => hcalls _ (.right hpq hcheck' hfall hval1))
  have hstr : ∀ (k : List Char → BitVec 32),
      EvalEnds t (p, q) (do let str ← (t.tokens q).cstr; return k str) :=
    fun k => .bind (fun e => cstr_stops hpq.le (le_refl q)) (fun str _ => .ok (k str))
  by_cases hone : domiPosition t p q = -1
  · rw [if_pos hone]
    have hval := hcalls _ (.unary hpq hcheck' hone)
    refine .bind (fun e he => (hval.2 e he).mono (by dsimp only; omega) (le_refl q)) ?_
    intro val hval
    cases htype : (t.tokens p).type with
    | POINT => exact evalPoint_ends hpq.le htype val
    | NEG => exact hstr (fun str => -scanInt str)
    | bang =>
        rw [if_pos rfl]
        exact hstr (fun str => boolInt (scanInt str = 0))
    | _ =>
        simp only [reduceCtorEq, if_false]
        refine hoperands ⟨?_, fun _ => ⟨⟨val, hval⟩, ?_, ?_⟩⟩ <;> rw [htype] <;>
          exact TokenType.noConfusion
  · rw [if_neg hone]
    by_cases hbang : (t.tokens p).type = .bang
    · rw [if_pos hbang]
      exact hstr (fun str => boolInt (scanInt str = 0))
    · rw [if_neg hbang]
      exact hoperands ⟨hbang, fun h => absurd h hone⟩

end Whole

/-- **Termination.** For every table and every range, each call of `eval` is on a shorter range
    inside it or on an empty one, which asserts at once; `eval` ends with a value, a failed
    assertion, a divide fault at a `/` or a read past a string. -/
theorem eval_terminates (env : ExprEnv) (t : TokenTable) {p : Int} (q : Int) (hp : 0 ≤ p) :
    (∀ (depth : Nat) (r : Int × Int),
      Calls t (fun r => eval env t depth r.1 r.2) p q r →
        Shorter p q r ∨
          (r.2 < r.1 ∧ ∀ fuel, fuel ≠ 0 → eval env t fuel r.1 r.2 = .error .assertion)) ∧
    ∃ x, (∀ fuel, (q + 1 - p).toNat < fuel → eval env t fuel p q = x) ∧ EvalEnds t (p, q) x := by
  have hdom : 0 ≤ ((p, q) : Int × Int).1 ∨ q < p := .inl hp
  have hrun : ∀ fuel, eval env t fuel p q =
      Recursion.run (evalBody env t) (.error .outOfFuel) fuel (p, q) :=
    fun fuel => congrFun (eval_eq_run env t fuel) (p, q)
  refine ⟨?_, Recursion.run (evalBody env t) (.error .outOfFuel) ((q + 1 - p).toNat + 1) (p, q),
    ?_, ?_⟩
  · intro depth r hcall
    have hempty : ∀ (r : Int × Int) v, r.2 < r.1 → eval env t depth r.1 r.2 ≠ .ok v :=
      fun r v hr h => absurd (eval_ok_le h) (by omega)
    rcases hcall.shorter hempty hp with hshorter | hr
    · exact .inl hshorter
    · exact .inr ⟨hr, fun fuel hfuel => eval_empty hfuel hr⟩
  · intro fuel hfuel
    rw [hrun]
    exact (eval_descends env t).run_stable hdom hfuel (Nat.lt_succ_self _)
  · have hends := (eval_descends env t).run_rule (P := CallEnds t) (n := (q + 1 - p).toNat + 1)
      evalBody_ends hdom (Nat.lt_succ_self _)
    exact hends.2

-- `!1`, whose last call is on the empty range up to -2
theorem eval_terminates_bang :
    let t : TokenTable := (TokenTable.zeroed.push .bang []).push .NUM ['1']
    (∀ (depth : Nat) (r : Int × Int),
      Calls t (fun r => eval .zeroed t depth r.1 r.2) 0 1 r →
        Shorter 0 1 r ∨
          (r.2 < r.1 ∧ ∀ fuel, fuel ≠ 0 → eval .zeroed t fuel r.1 r.2 = .error .assertion)) ∧
    ∃ x, (∀ fuel, 2 < fuel → eval .zeroed t fuel 0 1 = x) ∧ EvalEnds t (0, 1) x := by
  intro t
  exact eval_terminates .zeroed t 1 (by decide)

/-- `1/0` neither returns nor fails an assertion. -/
theorem eval_not_asserts :
    ¬ ∀ (env : ExprEnv) (t : TokenTable) (p q : Int), 0 ≤ p → p ≤ q → q < t.nr_token →
      ∃ x, (∀ fuel, (q + 1 - p).toNat < fuel → eval env t fuel p q = x) ∧
        ((∃ v, x = .ok v) ∨ x = .error .assertion) := by
  intro h
  let t : TokenTable := ((TokenTable.zeroed.push .NUM ['1']).push .slash []).push .NUM ['0']
  obtain ⟨x, hx, hend⟩ := h .zeroed t 0 2 (by decide) (by decide) (by decide)
  have hdiv : eval .zeroed t 4 0 2 = .error .divideError := by decide
  rw [hx 4 (by decide)] at hdiv
  subst hdiv
  rcases hend with ⟨v, hv⟩ | hassert
  · exact nomatch hv
  · exact nomatch hassert

end Nemu
