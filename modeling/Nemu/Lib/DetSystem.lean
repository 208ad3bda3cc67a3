/-
  Nemu.Lib.DetSystem

  Deterministic systems: a state, operations that answer and move the state or
  fail, and runs of operation lists.  Two rules carry a property of one step to
  a whole run: `run_history` for an invariant of one system, and `run_agree`
  for a simulation between two systems with the same operations and answers;
  `run_agree_last` adds what holds right after the last operation.  `run_settles` is for
  systems that come to rest, and `stays_iff_meets` for a property that only some operations
  keep: when it holds all along a run.
-/

import Nemu.Lib.Outcome

namespace DetSystem

open Outcome

variable {σ τ ι ο ε : Type _}

/-- Run the operations in order, collecting the answers; the first failure
    ends the run. -/
def run (step : σ → ι → Except ε (ο × σ)) : σ → List ι → Except ε (List ο × σ)
  | s, [] => .ok ([], s)
  | s, i :: is => do
      let (o, s₁) ← step s i
      let (os, s₂) ← run step s₁ is
      return (o :: os, s₂)

/-- Two outcomes agree up to `R`: the same failure, or the same answer and
    related states. -/
inductive Agree (R : σ → τ → Prop) : Except ε (ο × σ) → Except ε (ο × τ) → Prop
  | error (e : ε) : Agree R (.error e) (.error e)
  | ok {o : ο} {s : σ} {t : τ} (h : R s t) : Agree R (.ok (o, s)) (.ok (o, t))

section Runs

variable {step : σ → ι → Except ε (ο × σ)} {stepA : τ → ι → Except ε (ο × τ)}

@[simp] theorem run_nil (s : σ) : run step s [] = .ok ([], s) := rfl

/-- A successful run is a successful first step followed by a successful run. -/
theorem run_cons_ok {s s₂ : σ} {i : ι} {is : List ι} {os : List ο} :
    run step s (i :: is) = .ok (os, s₂) ↔
      ∃ o s₁ os', step s i = .ok (o, s₁) ∧ run step s₁ is = .ok (os', s₂) ∧ os = o :: os' := by
  simp only [run, bind_eq_ok, pure_eq_ok, Prod.exists, Prod.mk.injEq]
  apply Iff.intro
  · rintro ⟨o, s₁, hs, os', s', hr, rfl, rfl⟩
    exact ⟨o, s₁, os', hs, hr, rfl⟩
  · rintro ⟨o, s₁, os', hs, hr, rfl⟩
    exact ⟨o, s₁, hs, os', s₂, hr, rfl, rfl⟩

/-- A system whose operations never fail completes every run. -/
theorem run_total (htotal : ∀ s i, ∃ o s', step s i = .ok (o, s')) :
    ∀ (is : List ι) (s : σ), ∃ os s', run step s is = .ok (os, s') := by
  intro is
  induction is with
  | nil => exact fun s => ⟨[], s, rfl⟩
  | cons i is ih =>
      intro s
      obtain ⟨o, s₁, hs⟩ := htotal s i
      obtain ⟨os, s₂, hr⟩ := ih s₁
      exact ⟨o :: os, s₂, run_cons_ok.mpr ⟨o, s₁, os, hs, hr, rfl⟩⟩

/-- An invariant of the state and of the operations that led there: if every operation keeps it
    or fails in an expected way, so does every run. -/
theorem run_history {expected : ε → Prop} {inv : List ι → σ → Prop}
    (hstep : ∀ before s i, inv before s → (∃ e, step s i = .error e ∧ expected e) ∨
      ∃ o s', step s i = .ok (o, s') ∧ inv (before ++ [i]) s') :
    ∀ (is before : List ι) (s : σ), inv before s → (∃ e, run step s is = .error e ∧ expected e) ∨
      ∃ os s', run step s is = .ok (os, s') ∧ inv (before ++ is) s' := by
  intro is
  induction is with
  | nil =>
      intro before s hinv
      rw [List.append_nil]
      exact .inr ⟨[], s, rfl, hinv⟩
  | cons i is ih =>
      intro before s hinv
      rcases hstep before s i hinv with ⟨e, hs, he⟩ | ⟨o, s₁, hs, hinv₁⟩
      · exact .inl ⟨e, by rw [run, hs, error_bind], he⟩
      · rcases ih (before ++ [i]) s₁ hinv₁ with ⟨e, hr, he⟩ | ⟨os, s₂, hr, hinv₂⟩
        · exact .inl ⟨e, by simp only [run, hs, ok_bind, hr, error_bind], he⟩
        · rw [List.append_assoc, List.singleton_append] at hinv₂
          exact .inr ⟨o :: os, s₂, run_cons_ok.mpr ⟨o, s₁, os, hs, hr, rfl⟩, hinv₂⟩

/-- A simulation step by step is a simulation of whole runs: both systems give
    the same answers, fail together, and end in related states. -/
theorem run_agree {R : σ → τ → Prop} {ok : ι → Prop}
    (hstep : ∀ s t i, R s t → ok i → Agree R (step s i) (stepA t i)) :
    ∀ (is : List ι) (s : σ) (t : τ), R s t → (∀ i ∈ is, ok i) →
      Agree R (run step s is) (run stepA t is) := by
  intro is
  induction is with
  | nil => exact fun s t hR _ => .ok hR
  | cons i is ih =>
      intro s t hR hok
      have hhead := hstep s t i hR (hok i (List.mem_cons_self ..))
      simp only [run]
      generalize step s i = x, stepA t i = y at hhead
      cases hhead with
      | error e => exact .error e
      | @ok o s₁ t₁ h₁ =>
          have hrest := ih s₁ t₁ h₁ (fun j hj => hok j (List.mem_cons_of_mem _ hj))
          simp only [ok_bind]
          generalize run step s₁ is = x', run stepA t₁ is = y' at hrest
          cases hrest with
          | error e => exact .error e
          | ok h₂ => exact .ok h₂

/-- The same with what the last step establishes besides: it holds at the end. -/
theorem run_agree_last {R : σ → τ → Prop} {S : ι → σ → τ → Prop}
    (hstep : ∀ s t i, R s t → Agree (fun s t => R s t ∧ S i s t) (step s i) (stepA t i)) :
    ∀ (is : List ι) (s : σ) (t : τ), R s t →
      Agree (fun s t => R s t ∧ ∀ i, is.getLast? = some i → S i s t)
        (run step s is) (run stepA t is) := by
  intro is
  induction is with
  | nil => exact fun s t hR => .ok ⟨hR, nofun⟩
  | cons i is ih =>
      intro s t hR
      have hhead := hstep s t i hR
      simp only [run]
      generalize step s i = x, stepA t i = y at hhead
      cases hhead with
      | error e => exact .error e
      | @ok o s₁ t₁ h₁ =>
          have hrest := ih s₁ t₁ h₁.1
          simp only [ok_bind]
          cases is with
          | nil =>
              refine .ok ⟨h₁.1, fun j hj => ?_⟩
              obtain rfl : i = j := Option.some.inj hj
              exact h₁.2
          | cons j is =>
              rw [List.getLast?_cons_cons]
              generalize run step s₁ (j :: is) = x', run stepA t₁ (j :: is) = y' at hrest
              cases hrest with
              | error e => exact .error e
              | ok h₂ => exact .ok h₂

/-- A system in which every operation brings a measure down, until it rests, comes to rest
    whatever the operations are. -/
theorem run_settles {rest : σ → Prop} {inv : Nat → σ → Prop} {ok : ι → Prop}
    (hstep : ∀ n s i, inv n s → ¬rest s → ok i →
      ∃ o s' m, step s i = .ok (o, s') ∧ m < n ∧ inv m s') :
    ∀ (n : Nat) (s : σ) (is : Nat → ι), inv n s → (∀ j, ok (is j)) →
      ∃ k os s', run step s ((List.range k).map is) = .ok (os, s') ∧ rest s' ∧ ∃ m, inv m s' := by
  intro n
  induction n using Nat.strongRecOn with
  | ind n ih =>
      intro s is hinv hok
      by_cases hrest : rest s
      · exact ⟨0, [], s, rfl, hrest, n, hinv⟩
      · obtain ⟨o, s₁, m, hs, hm, hinv₁⟩ := hstep n s (is 0) hinv hrest (hok 0)
        obtain ⟨k, os, s', hrun, hrest', hinv'⟩ :=
          ih m hm s₁ (fun j => is (j + 1)) hinv₁ (fun j => hok (j + 1))
        refine ⟨k + 1, o :: os, s', ?_, hrest', hinv'⟩
        rw [List.range_succ_eq_map, List.map_cons, List.map_map]
        exact run_cons_ok.mpr ⟨o, s₁, os, hs, hrun, rfl⟩

/-- No operation of the run fails, and every state of it is good. -/
def Stays (step : σ → ι → Except ε (ο × σ)) (good : σ → Prop) : σ → List ι → Prop
  | s, [] => good s
  | s, i :: is => good s ∧ ∃ o s', step s i = .ok (o, s') ∧ Stays step good s' is

/-- Every operation of the run meets a condition in the state that it is called in. -/
def Meets (step : σ → ι → Except ε (ο × σ)) (cond : σ → ι → Prop) : σ → List ι → Prop
  | _, [] => True
  | s, i :: is => cond s i ∧ ∀ o s', step s i = .ok (o, s') → Meets step cond s' is

theorem Stays.good {good : σ → Prop} {s : σ} {is : List ι} (h : Stays step good s is) : good s := by
  cases is with
  | nil => exact h
  | cons => exact h.1

/-- If an operation leads from a good state to a good state exactly under a condition, then a
    run stays good exactly if its operations meet the condition. -/
theorem stays_iff_meets {inv good : σ → Prop} {cond : σ → ι → Prop}
    (hstep : ∀ s i, inv s → good s →
      ∃ o s', step s i = .ok (o, s') ∧ inv s' ∧ (good s' ↔ cond s i)) :
    ∀ (is : List ι) (s : σ), inv s → good s → (Stays step good s is ↔ Meets step cond s is) := by
  intro is
  induction is with
  | nil => exact fun s _ hgood => iff_of_true hgood trivial
  | cons i is ih =>
      intro s hinv hgood
      obtain ⟨o, s', hs, hinv', hiff⟩ := hstep s i hinv hgood
      apply Iff.intro
      · rintro ⟨-, o₁, s₁, hs₁, hstays⟩
        obtain ⟨rfl, rfl⟩ := Prod.mk.inj (Except.ok.inj (hs.symm.trans hs₁))
        refine ⟨hiff.mp hstays.good, fun o₂ s₂ hs₂ => ?_⟩
        obtain ⟨rfl, rfl⟩ := Prod.mk.inj (Except.ok.inj (hs.symm.trans hs₂))
        exact (ih s' hinv' hstays.good).mp hstays
      · rintro ⟨hcond, hmeets⟩
        exact ⟨hgood, o, s', hs, (ih s' hinv' (hiff.mpr hcond)).mpr (hmeets o s' hs)⟩

end Runs

end DetSystem
