/-
  Nemu.Lib.DoWhile

  `do body while (cond);` over an explicit state, with a body that may fault.

  `doWhile` runs at most as many turns as it is given.  `returns_of_variant` is the rule
  for total correctness: an invariant at the head of the loop and a number that drops while
  it goes on.  `Visited` are the states at its head, and `trace` computes them for a loop
  on a fixed input.
-/

import Mathlib.Algebra.Group.Nat.Defs

namespace DoWhile

variable {ε σ : Type _}

/-- `body` answers whether to go on, and with which state; `none` is a loop that has not
    ended after `n` turns. -/
def doWhile (body : σ → Except ε (Bool × σ)) : Nat → σ → Option (Except ε σ)
  | 0, _ => none
  | n + 1, s =>
      match body s with
      | .error e => some (.error e)
      | .ok (true, s') => doWhile body n s'
      | .ok (false, s') => some (.ok s')

/-- The states at the head of the loop that starts in `s`. -/
inductive Visited (body : σ → Except ε (Bool × σ)) (s : σ) : σ → Prop
  | start : Visited body s s
  | next {s₁ s₂ : σ} (h : Visited body s s₁) (hbody : body s₁ = .ok (true, s₂)) :
      Visited body s s₂

/-- The loop ends in `s'`, from some number of turns on. -/
def Returns (body : σ → Except ε (Bool × σ)) (s s' : σ) : Prop :=
  ∃ n, ∀ fuel, n ≤ fuel → doWhile body fuel s = some (.ok s')

section Rules

variable {body : σ → Except ε (Bool × σ)} {s s' : σ} {n : Nat}

theorem doWhile_stop (h : body s = .ok (false, s')) : doWhile body (n + 1) s = some (.ok s') := by
  rw [doWhile, h]

theorem doWhile_go (h : body s = .ok (true, s')) :
    doWhile body (n + 1) s = doWhile body n s' := by
  rw [doWhile, h]

/-- More turns do not change how the loop ends. -/
theorem doWhile_mono {r : Except ε σ} (h : doWhile body n s = some r) {m : Nat} (hnm : n ≤ m) :
    doWhile body m s = some r := by
  induction n generalizing s m with
  | zero => exact nomatch h
  | succ n ih =>
      obtain ⟨m, rfl⟩ : ∃ k, m = k + 1 := ⟨m - 1, by omega⟩
      rw [doWhile] at h ⊢
      split at h
      · exact h
      · exact ih h (by omega)
      · exact h

theorem Returns.of_doWhile (h : doWhile body n s = some (.ok s')) : Returns body s s' :=
  ⟨n, fun _ hfuel => doWhile_mono h hfuel⟩

/-- A loop ends in one way only. -/
theorem Returns.unique {r : Except ε σ} (h : Returns body s s') (hr : doWhile body n s = some r) :
    r = .ok s' := by
  obtain ⟨m, hm⟩ := h
  have hmax := hm (max n m) (Nat.le_max_right n m)
  rw [doWhile_mono hr (Nat.le_max_left n m)] at hmax
  exact Option.some.inj hmax

theorem Returns.go {s₁ : σ} (hbody : body s = .ok (true, s₁)) (h : Returns body s₁ s') :
    Returns body s s' := by
  obtain ⟨n, hn⟩ := h
  refine ⟨n + 1, fun fuel hfuel => ?_⟩
  obtain ⟨m, rfl⟩ : ∃ k, fuel = k + 1 := ⟨fuel - 1, by omega⟩
  rw [doWhile_go hbody]
  exact hn m (by omega)

theorem Returns.stop (hbody : body s = .ok (false, s')) : Returns body s s' :=
  .of_doWhile (n := 1) (doWhile_stop hbody)

/-- Total correctness: `inv` holds at the head of the loop, every turn keeps it and lowers
    `variant`, or leaves the loop with `post`. -/
theorem returns_of_variant {inv post : σ → Prop} (variant : σ → Nat)
    (hturn : ∀ s, inv s → ∃ again s', body s = .ok (again, s') ∧
      (again = true → inv s' ∧ variant s' < variant s) ∧ (again = false → post s')) :
    inv s → ∃ s', Returns body s s' ∧ post s' := by
  induction hv : variant s using Nat.strongRecOn generalizing s with
  | _ v ih =>
      intro hinv
      obtain ⟨again, s₁, hbody, hgo, hstop⟩ := hturn s hinv
      cases again with
      | false => exact ⟨s₁, .stop hbody, hstop rfl⟩
      | true =>
          obtain ⟨hinv₁, hlt⟩ := hgo rfl
          obtain ⟨s', hreturns, hpost⟩ := ih (variant s₁) (hv ▸ hlt) rfl hinv₁
          exact ⟨s', hreturns.go hbody, hpost⟩

/-- What holds at the start and is kept by every turn that goes on holds at the head. -/
theorem Visited.rule {inv : σ → Prop} (hstart : inv s)
    (hnext : ∀ s₁ s₂, inv s₁ → body s₁ = .ok (true, s₂) → inv s₂) (h : Visited body s s') :
    inv s' := by
  induction h with
  | start => exact hstart
  | next _ hbody ih => exact hnext _ _ ih hbody

/-- After its first turn the loop is the loop from the second state. -/
theorem Visited.cases_start (h : Visited body s s') :
    s' = s ∨ ∃ s₁, body s = .ok (true, s₁) ∧ Visited body s₁ s' := by
  induction h with
  | start => exact .inl rfl
  | @next s₂ s₃ _ hbody ih =>
      rcases ih with rfl | ⟨s₁, hfirst, hvisited⟩
      · exact .inr ⟨s₃, hbody, .start⟩
      · exact .inr ⟨s₁, hfirst, hvisited.next hbody⟩

end Rules

/-! ## Loops on a fixed input -/

/-- The states at the head of the loop and how it ends. -/
def trace (body : σ → Except ε (Bool × σ)) : Nat → σ → Option (List σ × Except ε σ)
  | 0, _ => none
  | n + 1, s =>
      match body s with
      | .error e => some ([s], .error e)
      | .ok (true, s') => (trace body n s').map fun p => (s :: p.1, p.2)
      | .ok (false, s') => some ([s], .ok s')

section Trace

variable {body : σ → Except ε (Bool × σ)} {s s' : σ} {n : Nat} {states : List σ} {r : Except ε σ}

theorem doWhile_of_trace (h : trace body n s = some (states, r)) :
    doWhile body n s = some r := by
  induction n generalizing s states with
  | zero => exact nomatch h
  | succ n ih =>
      rw [trace] at h
      rw [doWhile]
      split at h
      · exact congrArg some (Prod.mk.inj (Option.some.inj h)).2
      · obtain ⟨⟨states', r'⟩, hrest, hp⟩ := Option.map_eq_some_iff.mp h
        obtain ⟨-, rfl⟩ := Prod.mk.inj hp
        exact ih hrest
      · exact congrArg some (Prod.mk.inj (Option.some.inj h)).2

theorem mem_of_trace (h : trace body n s = some (states, r)) (hvisited : Visited body s s') :
    s' ∈ states := by
  induction n generalizing s states with
  | zero => exact nomatch h
  | succ n ih =>
      rw [trace] at h
      rcases hvisited.cases_start with rfl | ⟨s₁, hfirst, hrest⟩
      · split at h
        · rw [← (Prod.mk.inj (Option.some.inj h)).1]
          exact List.mem_singleton_self _
        · obtain ⟨p, -, hp⟩ := Option.map_eq_some_iff.mp h
          rw [← (Prod.mk.inj hp).1]
          exact List.mem_cons_self
        · rw [← (Prod.mk.inj (Option.some.inj h)).1]
          exact List.mem_singleton_self _
      · rw [hfirst] at h
        obtain ⟨⟨states', r'⟩, htrace, hp⟩ := Option.map_eq_some_iff.mp h
        obtain ⟨rfl, rfl⟩ := Prod.mk.inj hp
        exact List.mem_cons_of_mem _ (ih htrace hrest)

end Trace

end DoWhile
