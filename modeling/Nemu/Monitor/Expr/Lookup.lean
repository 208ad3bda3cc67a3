/-
  Nemu.Monitor.Expr.Lookup

  A name as the whole expression: the value of a symbol or of a register, and whether a
  name that denotes nothing is reported.

  `eval` starts with `success` false, `getValue` only ever makes it false, and `eval`
  asserts when it is true.  So the branch behind "NO such varible!" is never taken, and a
  name that is not found has the value 0.
-/

import Nemu.Monitor.Expr.Understood

namespace Nemu

open Outcome Ast

/-! ## One operand -/

section Operand

variable {env : ExprEnv} {kind : OperandKind} {str : List Char} {t : TokenTable}

-- an operand is neither `-` nor `*`, so the loop of `expr` leaves it
theorem relabel_operand (hnr : t.nr_token = 1) (htok : t.tokens 0 = ⟨kind.type, str⟩) :
    (relabel t).tokens 0 = ⟨kind.type, str⟩ ∧ (relabel t).nr_token = 1 := by
  have hstar : kind.type ≠ .star := by cases kind <;> exact TokenType.noConfusion
  have hminus : kind.type ≠ .minus := by cases kind <;> exact TokenType.noConfusion
  have hholds : t.Holds ((0 : Nat) : Int) [⟨kind.type, str⟩] := ⟨htok, trivial⟩
  have hafter := (relabelFrom_holds [⟨kind.type, str⟩] 0 t hholds).1
  rw [relabelTokens_inner _ [] hstar hminus] at hafter
  rw [relabel, relabelFrom_nr_token, hnr]
  exact ⟨hafter.1, rfl⟩

/-- `expr` on a string that is one operand: its value, if the table takes its text. -/
theorem expr_operand (env : ExprEnv) (hfirst : firstRule str = some (kind.type, str.length))
    (success : Option Bool) (t : TokenTable) :
    ∃ t', expr env str success t =
      if str.length ≤ STR_SIZE then (do
        let v ← evalToken env ⟨kind.type, str⟩
        return (v, success, t')) else .error .outOfBounds := by
  have hne : str ≠ [] := by
    rintro rfl
    cases hfirst
  have hpos := List.length_pos_of_ne_nil hne
  obtain ⟨n, hn⟩ : ∃ n, str.length = n + 1 := ⟨str.length - 1, by omega⟩
  -- one round of the loop of `make_token`
  let t₀ : TokenTable := { t with nr_token := 0 }
  have hlex : makeToken str t = (do
      let t ← record kind.type str t₀
      makeTokenFrom n [] t) := by
    have hfirst' : firstRule (str ++ []) = some (kind.type, str.length) := by
      rw [List.append_nil]
      exact hfirst
    have hmatch := makeTokenFrom_match n t₀ hne hfirst'
    rw [List.append_nil] at hmatch
    rw [makeToken, hn]
    exact hmatch
  have hrecord := record_lexeme_eq (.operand kind str) t₀
  refine ⟨relabel (t₀.push kind.type str), ?_⟩
  by_cases hlen : str.length ≤ STR_SIZE
  · have hok : record kind.type str t₀ = .ok (t₀.push kind.type str) :=
      hrecord.trans (if_pos ⟨(by decide : 0 < NR_TOKEN), hlen⟩)
    have hnil : makeTokenFrom n [] (t₀.push kind.type str)
        = .ok (true, t₀.push kind.type str) := by
      cases n <;> rfl
    have hpushed : (t₀.push kind.type str).tokens 0 = ⟨kind.type, str⟩ :=
      Function.update_self (0 : Int) _ t₀.tokens
    obtain ⟨htok, hnr⟩ := relabel_operand (t := t₀.push kind.type str) rfl hpushed
    rw [if_pos hlen, expr, hlex, hok, ok_bind, hnil, ok_bind]
    show (do
      let v ← eval env (relabel (t₀.push kind.type str))
        ((relabel (t₀.push kind.type str)).nr_token + 1) 0
        (((relabel (t₀.push kind.type str)).nr_token : Int) - 1)
      return (v, success, relabel (t₀.push kind.type str))) = _
    rw [hnr]
    show (eval env (relabel (t₀.push kind.type str)) (1 + 1) 0 0 >>= _) = _
    rw [eval, if_neg (Int.lt_irrefl 0), if_pos rfl, htok]
  · have herr : record kind.type str t₀ = .error .outOfBounds :=
      hrecord.trans (if_neg (fun h => hlen h.2))
    rw [if_neg hlen, expr, hlex, herr]
    rfl

/-- The string of an operand is terminated if it leaves room for a `'\0'`. -/
theorem cstr_operand (h : str.length < STR_SIZE) (type : TokenType) :
    Token.cstr ⟨type, str⟩ = .ok str := if_pos h

end Operand

/-! ## Names -/

-- the name denotes something: a data object of the program, or a register
def Known (env : ExprEnv) (name : List Char) : OperandKind → Prop
  | .var => ∃ sym ∈ env.symtab, sym.isObject name = true
  | .reg => name ∈ regNames
  | _ => False

/-- The failure is reported: `*success` is false, or the `assert(0)` behind "NO such
    varible!" ends the session. -/
def Reported (r : Except Abort (BitVec 32 × Option Bool × TokenTable)) : Prop :=
  (∃ v t', r = .ok (v, some false, t')) ∨ r = .error .assertion

/-- `expr` on a name is its value, and a failure is reported exactly if it has none. -/
structure LookupRight (env : ExprEnv) (kind : OperandKind) (name : List Char) (t : TokenTable) :
    Prop where
  found : ∀ v, kind.value env name = some v →
    ∃ t', expr env name (some true) t = .ok (v, some true, t')
  missing : Reported (expr env name (some true) t) ↔ kind.value env name = none

section Names

variable {env : ExprEnv} {kind : OperandKind} {name : List Char} {t : TokenTable}

theorem value_isSome_iff (hkind : kind = .var ∨ kind = .reg) :
    (kind.value env name).isSome = true ↔ Known env name kind := by
  rcases hkind with rfl | rfl
  · show ((env.symtab.find? (·.isObject name)).map Sym.st_value).isSome = true ↔ _
    rw [Option.isSome_map, List.find?_isSome]
    rfl
  · exact namedReg_isSome_iff env.emu.cpu name

/-- What `eval` makes of a name: the value, or 0 for an unknown one. -/
theorem evalToken_name (hkind : kind = .var ∨ kind = .reg) (hlen : name.length < STR_SIZE) :
    evalToken env ⟨kind.type, name⟩ = .ok ((kind.value env name).getD 0) := by
  rcases hkind with rfl | rfl
  · show (Token.cstr ⟨.VAR, name⟩ >>= _) = _
    rw [cstr_operand hlen, ok_bind, OperandKind.value, getValue]
    cases env.symtab.find? (·.isObject name) <;> rfl
  · rfl

-- a name of 32 characters is not terminated in its token
theorem evalToken_unterminated (hlen : ¬ name.length < STR_SIZE) :
    evalToken env ⟨.VAR, name⟩ = .error .outOfBounds := by
  show (Token.cstr ⟨.VAR, name⟩ >>= _) = _
  rw [Token.cstr, if_neg hlen]
  rfl

/-- No name is ever reported. -/
theorem not_reported (hkind : kind = .var ∨ kind = .reg)
    (hfirst : firstRule name = some (kind.type, name.length)) :
    ¬ Reported (expr env name (some true) t) := by
  have hcases : ∃ t', expr env name (some true) t = .error .outOfBounds ∨
      ∃ v, expr env name (some true) t = .ok (v, some true, t') := by
    obtain ⟨t', hexpr⟩ := expr_operand env hfirst (some true) t
    refine ⟨t', ?_⟩
    by_cases hsize : name.length ≤ STR_SIZE
    · rw [if_pos hsize] at hexpr
      by_cases hlen : name.length < STR_SIZE
      · rw [evalToken_name hkind hlen, ok_bind] at hexpr
        exact Or.inr ⟨_, hexpr⟩
      · rcases hkind with rfl | rfl
        · rw [OperandKind.type, evalToken_unterminated hlen, error_bind] at hexpr
          exact Or.inl hexpr
        · exact Or.inr ⟨_, hexpr⟩
    · rw [if_neg hsize] at hexpr
      exact Or.inl hexpr
  obtain ⟨t', herr | ⟨v, hok⟩⟩ := hcases
  · rintro (⟨v, t', h⟩ | h)
    · cases herr.symm.trans h
    · cases herr.symm.trans h
  · rintro (⟨v', t', h⟩ | h)
    · cases hok.symm.trans h
    · cases hok.symm.trans h

end Names

/-- A name is looked up as it should exactly if it denotes something and its text, with the
    terminator, fits a token. -/
theorem lookupRight_iff (env : ExprEnv) (kind : OperandKind) (name : List Char) (t : TokenTable)
    (hkind : kind = .var ∨ kind = .reg)
    (hfirst : firstRule name = some (kind.type, name.length)) :
    LookupRight env kind name t ↔ Known env name kind ∧ name.length < STR_SIZE := by
  apply Iff.intro
  · intro hright
    have hsome : kind.value env name ≠ none :=
      fun hnone => not_reported hkind hfirst (hright.missing.mpr hnone)
    refine ⟨(value_isSome_iff hkind).mp (Option.isSome_iff_ne_none.mpr hsome), ?_⟩
    by_contra hlen
    obtain ⟨v, hv⟩ := Option.ne_none_iff_exists'.mp hsome
    obtain ⟨t', hok⟩ := hright.found v hv
    obtain ⟨t₁, hexpr⟩ := expr_operand env hfirst (some true) t
    rw [hok] at hexpr
    rcases hkind with rfl | rfl
    · rw [OperandKind.type, evalToken_unterminated hlen, error_bind] at hexpr
      by_cases hsize : name.length ≤ STR_SIZE
      · rw [if_pos hsize] at hexpr
        cases hexpr
      · rw [if_neg hsize] at hexpr
        cases hexpr
    · -- the known names have four characters
      have hknown : name ∈ regNames := (namedReg_isSome_iff _ _).mp (Option.isSome_of_eq_some hv)
      have hshort : ∀ str ∈ regNames, str.length < STR_SIZE := by decide
      exact hlen (hshort name hknown)
  · rintro ⟨hknown, hlen⟩
    obtain ⟨v, hv⟩ := Option.isSome_iff_exists.mp ((value_isSome_iff hkind).mpr hknown)
    refine ⟨fun w hw => ?_, ?_⟩
    · obtain ⟨t', hexpr⟩ := expr_operand env hfirst (some true) t
      rw [if_pos (Nat.le_of_lt hlen), evalToken_name hkind hlen, hw] at hexpr
      exact ⟨t', hexpr⟩
    · refine iff_of_false (not_reported hkind hfirst) ?_
      rw [hv]
      exact Option.some_ne_none v

-- the program counter, in a cleared machine
theorem lookupRight_eip :
    LookupRight .zeroed .reg ['$', 'e', 'i', 'p'] .zeroed ↔
      Known .zeroed ['$', 'e', 'i', 'p'] .reg ∧ 4 < STR_SIZE :=
  lookupRight_iff .zeroed .reg ['$', 'e', 'i', 'p'] .zeroed (Or.inr rfl) (by decide)

/-- `foo` in a program without symbols is 0, and counts as success. -/
theorem unknown_symbol_not_reported : ¬ LookupRight .zeroed .var ['f', 'o', 'o'] .zeroed := by
  intro hright
  have hfirst : firstRule ['f', 'o', 'o'] = some (.VAR, 3) := by decide
  exact not_reported (Or.inl rfl) hfirst (hright.missing.mpr rfl)

end Nemu
