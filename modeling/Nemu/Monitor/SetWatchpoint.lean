/-
  Nemu.Monitor.SetWatchpoint

  `set_watchpoint` of `watchpoint.c` with the call of `expr` in it: on which arguments and
  in which states of the pool it is all or nothing.

  The pointer it returns is never null, so it has no way to report an error.  What should
  be one ends the session (`expr` writes through a null pointer or asserts, `new_wp`
  dereferences a null `free_`), or a watchpoint is set with a value that the expression
  does not have.
-/

import Nemu.Monitor.CpuExec
import Nemu.Monitor.Expr.Handled
import Nemu.Monitor.Expr.Understood
import Nemu.Monitor.WatchpointRefinement

namespace Nemu

open LinkedList Outcome WpPool

namespace Monitor

/-- `set_watchpoint`; `success` is a null pointer. -/
def setWatchpoint (args : List Char) (m : Monitor) : Except Abort (Option WpIdx × Monitor) := do
  let (val, _, t) ← expr m.env args none m.table
  let (tmp, s) ← Nemu.setWatchpoint args val m.wps
  return (some tmp, { m with table := t, wps := s })

/-- The value of the C expression that `args` spells. -/
def Denotes (m : Monitor) (args : List Char) (v : BitVec 32) : Prop :=
  ∃ e : Ast, e.WellFormed ∧ Spaced e.lexemes args ∧ e.value m.env = some v

/-- `set_watchpoint` appends the first free entry with a copy of `args` and the value of the
    expression, or returns a null pointer with the pool as it was. -/
def SetAtomic (m : Monitor) (active free : List WpIdx) (args : List Char) : Prop :=
  ∃ r m', m.setWatchpoint args = .ok (r, m') ∧
    ((∃ v i rest, m.Denotes args v ∧ r = some i ∧ free = i :: rest ∧
        Shape m'.wps (active ++ [i]) rest ∧
        (active ++ [i]).map m'.wps.entry = active.map m.wps.entry ++ [⟨i.val, args, v⟩]) ∨
      r = none ∧ m'.wps = m.wps)

/-- `args` spells an expression with a value, that fits the token table, and the expression
    that the evaluator takes it for has the same value. -/
def UnderstoodRight (m : Monitor) (args : List Char) : Prop :=
  ∃ (e : Ast) (v : BitVec 32), e.WellFormed ∧ Spaced e.lexemes args ∧ e.value m.env = some v ∧
    Fits e args ∧ e.regroup.Understands m.env (entryStr m.table args e.lexemes.length) v

section Set

variable {m : Monitor} {active free : List WpIdx} {args : List Char}

/-- A call that returns has evaluated the string and taken a free entry. -/
theorem setWatchpoint_eq_ok {r : Option WpIdx} {m' : Monitor}
    (h : m.setWatchpoint args = .ok (r, m')) :
    ∃ v tmp, Returns m.env args none m.table v ∧
      Nemu.setWatchpoint args v m.wps = .ok (tmp, m'.wps) ∧ r = some tmp := by
  obtain ⟨⟨v, success, t⟩, hexpr, h⟩ := bind_eq_ok.mp h
  obtain ⟨⟨tmp, s⟩, hset, h⟩ := bind_eq_ok.mp h
  obtain ⟨rfl, rfl⟩ := Prod.mk.inj (pure_eq_ok.mp h)
  obtain rfl := expr_success_none hexpr
  exact ⟨v, tmp, ⟨t, hexpr⟩, hset, rfl⟩

/-- `new_wp` on an empty free list dereferences a null pointer. -/
theorem setWatchpoint_full {s : WpPool} {v : BitVec 32} (h : Shape s active []) :
    Nemu.setWatchpoint args v s = .error .nullPointer := by
  have hnull : s.free_ = none := h.freeChain
  rw [Nemu.setWatchpoint, newWp, hnull]
  rfl

-- the value in the entry is the one that `expr` returned
theorem setWatchpoint_value {s s' : WpPool} {v w : BitVec 32} {tmp i : WpIdx} {rest : List WpIdx}
    (hshape : Shape s active (i :: rest)) (hset : Nemu.setWatchpoint args v s = .ok (tmp, s'))
    (hentries : (active ++ [i]).map s'.entry = active.map s.entry ++ [⟨i.val, args, w⟩]) :
    v = w := by
  obtain ⟨s₁, hrun, -, hentries₁⟩ := setWatchpoint_run hshape args v
  obtain ⟨-, rfl⟩ := Prod.mk.inj (Except.ok.inj (hrun.symm.trans hset))
  have hlast := List.append_cancel_left (hentries₁.symm.trans hentries)
  exact (WpEntry.mk.inj (List.cons.inj hlast).1).2.2

/-- `set_watchpoint` is all or nothing exactly if there is a free entry and the argument is
    an expression that is understood for one of the same value. -/
theorem setAtomic_iff (m : Monitor) (active free : List WpIdx) (args : List Char)
    (hshape : Shape m.wps active free) :
    SetAtomic m active free args ↔ free ≠ [] ∧ UnderstoodRight m args := by
  apply Iff.intro
  · rintro ⟨r, m', hrun, hcases⟩
    obtain ⟨w, tmp, hreturns, hset, rfl⟩ := setWatchpoint_eq_ok hrun
    rcases hcases with ⟨v, i, rest, ⟨e, he, hs, hv⟩, -, rfl, -, hentries⟩ | ⟨hnull, -⟩
    · obtain rfl := setWatchpoint_value hshape hset hentries
      obtain ⟨hfits, hread⟩ := (returns_iff_understood he hs).mp hreturns
      exact ⟨List.cons_ne_nil i rest, e, w, he, hs, hv, hfits, hread⟩
    · -- the pointer is never null
      cases hnull
  · rintro ⟨hfree, e, v, he, hs, hv, hfits, hread⟩
    obtain ⟨i, rest, rfl⟩ := List.exists_cons_of_ne_nil hfree
    have hreturns : Returns m.env args none m.table v :=
      (returns_iff_understood he hs).mpr ⟨hfits, hread⟩
    obtain ⟨t, hexpr⟩ := hreturns
    obtain ⟨s', hset, hshape', hentries⟩ := setWatchpoint_run hshape args v
    refine ⟨some i, { m with table := t, wps := s' }, ?_, Or.inl ⟨v, i, rest, ⟨e, he, hs, hv⟩, rfl,
      rfl, hshape', hentries⟩⟩
    rw [setWatchpoint, hexpr, ok_bind]
    show (Nemu.setWatchpoint args v m.wps >>= _) = _
    rw [hset]
    rfl

end Set

/-- The debugger before its first command, in a program without symbols. -/
def started : Monitor :=
  { emu := .zeroed fun _ => 0, symtab := [], table := .zeroed, wps := initWpPool }

theorem setAtomic_iff_started :
    SetAtomic started [] (List.finRange NR_WP) ['$', 'e', 'a', 'x'] ↔
      List.finRange NR_WP ≠ [] ∧ UnderstoodRight started ['$', 'e', 'a', 'x'] :=
  setAtomic_iff started [] _ _ shape_init

/-- `1+` ends the session in `assert(0)`. -/
theorem set_incomplete_not_atomic :
    ¬ SetAtomic started [] (List.finRange NR_WP) ['1', '+'] := by
  have hexpr : expr started.env ['1', '+'] none started.table = .error .assertion := rfl
  rintro ⟨r, m', hrun, -⟩
  rw [setWatchpoint, hexpr] at hrun
  cases hrun

end Monitor

end Nemu
