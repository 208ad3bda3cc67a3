/-
  Nemu.Monitor.WatchValues

  `check_` compares the values of the watched expressions with the stored ones and
  never changes a stored value: one that differs is passed over by `continue`, and
  one that does not is written back as it was.
-/

import Mathlib.Data.List.Chain
import Nemu.Monitor.CpuExec
import Nemu.Monitor.WatchpointRefinement

namespace Nemu

open LinkedList Outcome WpPool

namespace Monitor

/-- The values of the expressions, evaluated one after the other over the token table. -/
def evalAll (env : ExprEnv) : List (List Char) → TokenTable →
    Except Abort (List (BitVec 32) × TokenTable)
  | [], t => .ok ([], t)
  | e :: es, t => do
      let (v, _, t) ← expr env e none t
      let (vs, t) ← evalAll env es t
      return (v :: vs, t)

section Active

variable (m : Monitor) (active : List WpIdx)

/-- The current values of the active watchpoints. -/
def values : Except Abort (List (BitVec 32) × TokenTable) :=
  evalAll m.env (active.map fun i => (m.wps.entry i).expr) m.table

-- the same without the table, `none` if an expression cannot be evaluated
def current : Option (List (BitVec 32)) := (m.values active).toOption.map Prod.fst

/-- The values stored in the active watchpoints. -/
def stored : List (BitVec 32) := active.map fun i => (m.wps.wp_pool i).value_watching

end Active

/-- Some value differs from the stored one. -/
def Differs (vals old : List (BitVec 32)) : Prop := ∃ x ∈ vals.zip old, x.1 ≠ x.2

theorem differs_iff {vals old : List (BitVec 32)} (hlen : vals.length = old.length) :
    Differs vals old ↔ vals ≠ old := by
  induction vals generalizing old with
  | nil =>
      have hnil : old = [] := List.length_eq_zero_iff.mp hlen.symm
      simp [Differs, hnil]
  | cons v vals ih =>
      cases old with
      | nil => exact nomatch hlen
      | cons w old =>
          have hrest := ih (Nat.succ.inj hlen)
          simp only [Differs, List.zip_cons_cons, List.mem_cons, exists_eq_or_imp] at hrest ⊢
          rw [hrest]
          by_cases hvw : v = w
          · simp [hvw]
          · simp [hvw]

theorem evalAll_length {env : ExprEnv} {es : List (List Char)} {t t' : TokenTable}
    {vals : List (BitVec 32)} (h : evalAll env es t = .ok (vals, t')) :
    vals.length = es.length := by
  induction es generalizing t t' vals with
  | nil =>
      obtain ⟨rfl, -⟩ := Prod.mk.inj (Except.ok.inj h)
      rfl
  | cons e es ih =>
      obtain ⟨⟨v, u, t₁⟩, -, h₁⟩ := bind_eq_ok.mp h
      obtain ⟨⟨vs, t₂⟩, h₂, h₃⟩ := bind_eq_ok.mp h₁
      obtain ⟨rfl, -⟩ := Prod.mk.inj (pure_eq_ok.mp h₃)
      rw [List.length_cons, List.length_cons, ih h₂]

/-! ## One call of `check_` -/

section CheckOnce

variable {env : ExprEnv} {s : WpPool} {l : List WpIdx}

-- the assignment of a value that is there already
theorem modify_value_self {i : WpIdx} {v : BitVec 32} (hv : v = (s.wp_pool i).value_watching) :
    (s.modify i fun w => { w with value_watching := v }) = s := by
  subst hv
  simp [WpPool.modify]

/-- The loop of `check_` along the active list. -/
theorem checkLoop_chain (hstrings : ∀ i ∈ l, (s.wp_pool i).expr_watching.isSome) (fuel : Nat)
    (hfuel : l.length ≤ fuel) {p : Option WpIdx} (hchain : Chain s.next p l) (check : Bool)
    (t : TokenTable) :
    checkLoop env fuel p check t s = (do
      let (vals, t) ← evalAll env (l.map fun i => (s.entry i).expr) t
      return (check || vals ≠ l.map fun i => (s.wp_pool i).value_watching, t, s)) := by
  induction l generalizing fuel p check t with
  | nil =>
      obtain rfl : p = none := hchain
      cases fuel <;> simp [checkLoop, evalAll, pure, Except.pure]
  | cons i l ih =>
      obtain ⟨rfl, hrest⟩ := hchain
      obtain ⟨n, rfl⟩ := Nat.exists_eq_succ_of_ne_zero
        (Nat.ne_of_gt (Nat.lt_of_lt_of_le (Nat.succ_pos _) hfuel))
      obtain ⟨e, he⟩ := Option.isSome_iff_exists.mp (hstrings i (List.mem_cons_self ..))
      have hentry : (s.entry i).expr = e := by
        rw [entry, he]
        rfl
      have ih' := ih (fun j hj => hstrings j (List.mem_cons_of_mem i hj)) n
        (Nat.le_of_succ_le_succ hfuel) hrest
      simp only [checkLoop, he, List.map_cons, hentry, evalAll]
      cases hexpr : expr env e none t with
      | error a => rfl
      | ok r =>
          obtain ⟨v, u, t₁⟩ := r
          simp only [ok_bind]
          by_cases hv : v = (s.wp_pool i).value_watching
          · rw [if_neg (by simpa using hv), modify_value_self hv, ih']
            cases hrest : evalAll env (l.map fun i => (s.entry i).expr) t₁ with
            | error a => rfl
            | ok r => simp [hv, pure, Except.pure]
          · rw [if_pos hv, ih']
            cases hrest : evalAll env (l.map fun i => (s.entry i).expr) t₁ with
            | error a => rfl
            | ok r => simp [hv, pure, Except.pure]

variable {m m' : Monitor} {active free : List WpIdx} {vals : List (BitVec 32)} {t' : TokenTable}

theorem length_stored (h : m.values active = .ok (vals, t')) :
    vals.length = (m.stored active).length := by
  have hlen := evalAll_length h
  rw [List.length_map] at hlen
  rw [stored, List.length_map, hlen]

/-- `check_` finds the changes and leaves the pool as it is. -/
theorem check_eq (hshape : Shape m.wps active free) :
    m.check_ = (do
      let (vals, t) ← m.values active
      return (decide (vals ≠ m.stored active), { m with table := t })) := by
  rw [check_, checkLoop_chain hshape.strings NR_WP hshape.length_le hshape.activeChain, values]
  cases evalAll m.env (active.map fun i => (m.wps.entry i).expr) m.table with
  | error a => rfl
  | ok r =>
      simp only [ok_bind, Bool.false_or, stored]
      rfl

/-- The values are evaluated exactly when `check_` returns. -/
theorem checkWatchpoints_ok (hshape : Shape m.wps active free) {c : Bool}
    (h : m.checkWatchpoints = .ok (c, m')) :
    ∃ vals, m.current active = some vals ∧ (c = true ↔ vals ≠ m.stored active) ∧
      m'.wps = m.wps ∧
      m'.emu = if c then { m.emu with nemuState := .STOP } else m.emu := by
  rw [checkWatchpoints, check_eq hshape] at h
  obtain ⟨⟨b, m₁⟩, h₁, h₂⟩ := bind_eq_ok.mp h
  obtain ⟨⟨vals, t⟩, hvals, h₃⟩ := bind_eq_ok.mp h₁
  obtain ⟨rfl, rfl⟩ := Prod.mk.inj (pure_eq_ok.mp h₃)
  obtain ⟨rfl, rfl⟩ := Prod.mk.inj (pure_eq_ok.mp h₂)
  refine ⟨vals, by rw [current, hvals]; rfl, by simp, ?_, ?_⟩
  · split <;> rfl
  · split <;> rfl

/-- What `check_` is for: it reports a change of one of the values and stores them all. -/
def CheckPromise (m : Monitor) (active : List WpIdx) (vals : List (BitVec 32)) : Prop :=
  ∃ b m', m.check_ = .ok (b, m') ∧ (b = true ↔ Differs vals (m.stored active)) ∧
    m'.stored active = vals

/-- The promise is kept exactly when nothing has changed: a change is reported, but not
    stored. -/
theorem check_promise_iff (hshape : Shape m.wps active free) (h : m.values active = .ok (vals, t')) :
    CheckPromise m active vals ↔ ¬ Differs vals (m.stored active) := by
  have hcheck : m.check_ = .ok (decide (vals ≠ m.stored active), { m with table := t' }) := by
    rw [check_eq hshape, h]
    rfl
  rw [CheckPromise, differs_iff (length_stored h), hcheck]
  apply Iff.intro
  · rintro ⟨b, m', hm, -, hstored⟩
    obtain ⟨-, rfl⟩ := Prod.mk.inj (Except.ok.inj hm)
    have hsame : m.stored active = vals := hstored
    simp [hsame]
  · intro hsame
    refine ⟨_, _, rfl, by simp, ?_⟩
    exact (not_not.mp hsame).symm

end CheckOnce

/-! ## The checks of a run -/

section Runs

variable {depth : Nat} {active free : List WpIdx}

theorem execOne_wps {m m₁ : Monitor} (h : m.execOne depth = .ok m₁) : m₁.wps = m.wps := by
  obtain ⟨⟨u, emu⟩, -, h₁⟩ := bind_eq_ok.mp h
  obtain rfl := pure_eq_ok.mp h₁
  rfl

/-- A check of an iteration compares with the values stored when it began. -/
theorem iteration_check {m m₁ m₂ : Monitor} {c : Bool} (hshape : Shape m.wps active free)
    (hinstr : m.execOne depth = .ok m₁) (hcheck : m₁.checkWatchpoints = .ok (c, m₂)) :
    m₁.wps = m.wps ∧ m₂.wps = m.wps ∧
      ∃ vals, m₁.current active = some vals ∧ (c = true ↔ vals ≠ m.stored active) := by
  have hwps := execOne_wps hinstr
  have hshape₁ : Shape m₁.wps active free := by
    rw [hwps]
    exact hshape
  obtain ⟨vals, hvals, hc, hwps₂, -⟩ := checkWatchpoints_ok hshape₁ hcheck
  have hstored : m₁.stored active = m.stored active := by rw [stored, stored, hwps]
  exact ⟨hwps, hwps₂.trans hwps, vals, hvals, by rw [hc, hstored]⟩

/-- What a check of a run from `m` finds. -/
def Check.Against (m : Monitor) (active : List WpIdx) (c : Check) : Prop :=
  c.before.wps = m.wps ∧ ∃ vals, c.before.current active = some vals ∧
    (c.changed = true ↔ vals ≠ m.stored active)

theorem Check.Against.of_wps {m m₁ : Monitor} {c : Check} (hwps : m₁.wps = m.wps)
    (h : c.Against m₁ active) : c.Against m active := by
  have hstored : m₁.stored active = m.stored active := by rw [stored, stored, hwps]
  obtain ⟨hbefore, vals, hvals, hc⟩ := h
  exact ⟨hbefore.trans hwps, vals, hvals, by rw [hc, hstored]⟩

theorem Loop.against {n : Nat} {m m' : Monitor} {checks : List Check}
    (h : Loop depth n m checks m') (hshape : Shape m.wps active free) :
    m'.wps = m.wps ∧ ∀ c ∈ checks, c.Against m active := by
  induction h with
  | finish m =>
      refine ⟨?_, fun c hc => nomatch hc⟩
      split <;> rfl
  | stop hinstr hcheck _ =>
      obtain ⟨hwps₁, hwps₂, hfound⟩ := iteration_check hshape hinstr hcheck
      refine ⟨hwps₂, fun c hc => ?_⟩
      obtain rfl := List.mem_singleton.mp hc
      exact ⟨hwps₁, hfound⟩
  | next hinstr hcheck _ _ ih =>
      obtain ⟨hwps₁, hwps₂, hfound⟩ := iteration_check hshape hinstr hcheck
      rw [← hwps₂] at hshape
      obtain ⟨hwps', hchecks⟩ := ih hshape
      refine ⟨hwps'.trans hwps₂, fun c hc => ?_⟩
      rcases List.mem_cons.mp hc with rfl | hc
      · exact ⟨hwps₁, hfound⟩
      · exact (hchecks c hc).of_wps hwps₂

/-- Execution leaves the watchpoints alone, and every check of a run compares with the
    values stored when the run began. -/
theorem Calls.against {ns : List (BitVec 32)} {m m' : Monitor} {checks : List Check}
    (h : Calls depth ns m checks m') (hshape : Shape m.wps active free) :
    m'.wps = m.wps ∧ ∀ c ∈ checks, c.Against m active := by
  induction h with
  | nil m => exact ⟨rfl, fun c hc => nomatch hc⟩
  | ended _ _ ih => exact ih hshape
  | call _ hloop _ ih =>
      obtain ⟨hwps₁, hchecks₁⟩ := hloop.against hshape
      have hshape₁ : Shape _ active free := hwps₁.symm ▸ hshape
      obtain ⟨hwps', hchecks₂⟩ := ih hshape₁
      refine ⟨hwps'.trans hwps₁, fun c hc => ?_⟩
      rcases List.mem_append.mp hc with hc | hc
      · exact hchecks₁ c hc
      · exact (hchecks₂ c hc).of_wps hwps₁

/-- Between one check and the next that finds a change, the values have changed. -/
def StopsFollowChanges (active : List WpIdx) (checks : List Check) : Prop :=
  checks.IsChain fun c c' =>
    c'.changed = true → c'.before.current active ≠ c.before.current active

/-- Values that are the same at two successive checks are the ones that `m` stores. -/
def RepeatsStored (m : Monitor) (active : List WpIdx) (checks : List Check) : Prop :=
  checks.IsChain fun c c' =>
    c'.before.current active = c.before.current active →
      c.before.current active = some (m.stored active)

/-- The promise of `check_` is kept in a state exactly when no value differs from the stored
    one there.  In a run, every stop for a watchpoint follows a change since the check before
    exactly when the values that do not change are the stored ones. -/
theorem watchpoints_iff (depth : Nat) {m : Monitor} {active free : List WpIdx}
    (hshape : Shape m.wps active free) :
    (∀ vals t', m.values active = .ok (vals, t') →
      (CheckPromise m active vals ↔ ¬ Differs vals (m.stored active))) ∧
    ∀ ns checks m', Calls depth ns m checks m' →
      (StopsFollowChanges active checks ↔ RepeatsStored m active checks) := by
  refine ⟨fun vals t' hvals => check_promise_iff hshape hvals, fun ns checks m' hcalls => ?_⟩
  refine List.IsChain.iff_of_mem_imp fun c c' hc hc' => ?_
  obtain ⟨-, v, hv, -⟩ := (hcalls.against hshape).2 c hc
  obtain ⟨-, v', hv', hchanged⟩ := (hcalls.against hshape).2 c' hc'
  rw [hv, hv', hchanged]
  simp only [ne_eq, Option.some.injEq]
  apply Iff.intro
  · intro h heq
    rw [← heq]
    exact not_not.mp fun hne => h hne heq
  · rintro h hne rfl
    exact hne (h rfl)

/-! ## A watchpoint on EAX -/

/-- Watchpoint 0 is on `$eax`, with the value 0 stored. -/
def watchEax : WpPool :=
  match initWpPool.step (.set ['$', 'e', 'a', 'x'] 0) with
  | .ok (_, s) => s
  | .error _ => initWpPool

def watchEaxFree : List WpIdx := (List.finRange NR_WP).tail

theorem shape_watchEax : Shape watchEax [⟨0, by decide⟩] watchEaxFree where
  activeChain := by decide
  freeChain := by decide
  perm := List.Perm.refl _
  NO := by decide
  strings := by decide

-- a monitor with this watchpoint and a value in EAX
def monitorEax (eax : BitVec 32) : Monitor :=
  { emu := { Emu.zeroed (fun _ => 0) with
      cpu := { (Emu.zeroed fun _ => 0).cpu with gpr := fun _ => eax } }
    symtab := []
    table := .zeroed
    wps := watchEax }

theorem watchpoints_iff_eax :
    (∀ vals t', (monitorEax 0).values [⟨0, by decide⟩] = .ok (vals, t') →
      (CheckPromise (monitorEax 0) [⟨0, by decide⟩] vals ↔
        ¬ Differs vals ((monitorEax 0).stored [⟨0, by decide⟩]))) ∧
    ∀ ns checks m', Calls 1 ns (monitorEax 0) checks m' →
      (StopsFollowChanges [⟨0, by decide⟩] checks ↔
        RepeatsStored (monitorEax 0) [⟨0, by decide⟩] checks) :=
  watchpoints_iff 1 (m := monitorEax 0) shape_watchEax

/-- With 1 in EAX the change is reported, and 0 stays stored. -/
theorem check_keeps_old_value :
    ∃ m active free vals t', Shape m.wps active free ∧ m.values active = .ok (vals, t') ∧
      ¬ CheckPromise m active vals := by
  refine ⟨monitorEax 1, [⟨0, by decide⟩], watchEaxFree, [1], _, shape_watchEax, rfl, ?_⟩
  rintro ⟨b, m', hcheck, -, hstored⟩
  have hzero : (monitorEax 1).check_.map (fun r => r.2.stored [⟨0, by decide⟩]) = .ok [0] := rfl
  rw [hcheck] at hzero
  have heq : m'.stored [⟨0, by decide⟩] = [0] := Except.ok.inj hzero
  rw [heq] at hstored
  exact absurd hstored (by decide)

end Runs

end Monitor

end Nemu
