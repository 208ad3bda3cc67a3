/-
  Nemu.Lib.Outcome

  Rules for programs that may fail: peeling a successful `Except` bind apart,
  running two related programs side by side, and the same for programs over a
  state (`StateT σ (Except ε)`).  Programs are
  written with `do`; proofs take them apart with these equivalences and never
  unfold the monad.
-/

import Mathlib.Logic.Basic

namespace Outcome

variable {σ ε α β : Type _}

/-! ## `Except` -/

/-- A bind succeeds exactly when its parts do. -/
theorem bind_eq_ok {x : Except ε α} {f : α → Except ε β} {b : β} :
    (x >>= f) = .ok b ↔ ∃ a, x = .ok a ∧ f a = .ok b := by
  cases x with
  | error e => simp [bind, Except.bind]
  | ok a => simp [bind, Except.bind]

@[simp] theorem ok_bind (a : α) (f : α → Except ε β) : (Except.ok a >>= f) = f a := rfl

@[simp] theorem error_bind (e : ε) (f : α → Except ε β) :
    ((.error e : Except ε α) >>= f) = .error e := rfl

@[simp] theorem pure_eq_ok {a b : α} : (pure a : Except ε α) = .ok b ↔ a = b := by
  simp [pure, Except.pure]

/-- Two outcomes are the same failure, or results related by `R`. -/
inductive Both {τ : Type _} (R : α → τ → Prop) : Except ε α → Except ε τ → Prop
  | error (e : ε) : Both R (.error e) (.error e)
  | ok {a : α} {b : τ} (h : R a b) : Both R (.ok a) (.ok b)

/-- Programs whose parts have related outcomes have related outcomes. -/
theorem Both.bind {τ υ : Type _} {R : α → τ → Prop} {S : β → υ → Prop} {x : Except ε α}
    {y : Except ε τ} {f : α → Except ε β} {g : τ → Except ε υ} (h : Both R x y)
    (hfg : ∀ a b, R a b → Both S (f a) (g b)) : Both S (x >>= f) (y >>= g) := by
  cases h with
  | error e => exact .error e
  | ok hR => exact hfg _ _ hR

/-! ## `StateT` over `Except` -/

theorem run_bind (x : StateT σ (Except ε) α) (f : α → StateT σ (Except ε) β) (s : σ) :
    (x >>= f) s = (x s >>= fun p => f p.1 p.2) := rfl

@[simp] theorem run_pure (a : α) (s : σ) : (pure a : StateT σ (Except ε) α) s = .ok (a, s) := rfl

/-- A bind succeeds exactly when its parts do, the second from the state the
    first leaves. -/
theorem run_bind_eq_ok {x : StateT σ (Except ε) α} {f : α → StateT σ (Except ε) β}
    {s s' : σ} {b : β} :
    (x >>= f) s = .ok (b, s') ↔ ∃ a s₁, x s = .ok (a, s₁) ∧ f a s₁ = .ok (b, s') := by
  rw [run_bind, bind_eq_ok]
  apply Iff.intro
  · rintro ⟨⟨a, s₁⟩, hx, hf⟩
    exact ⟨a, s₁, hx, hf⟩
  · rintro ⟨a, s₁, hx, hf⟩
    exact ⟨(a, s₁), hx, hf⟩

/-- A first part known to succeed is stepped over. -/
theorem run_bind_ok {x : StateT σ (Except ε) α} {f : α → StateT σ (Except ε) β}
    {s s₁ : σ} {a : α} (h : x s = .ok (a, s₁)) : (x >>= f) s = f a s₁ := by
  rw [run_bind, h, ok_bind]

end Outcome
