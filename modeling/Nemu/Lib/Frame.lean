/-
  Nemu.Lib.Frame

  Frame rules for programs over a state that may fail.  `Keeps f x` says that a
  successful run of `x` leaves `f` of the state as it was; `Yields f x P` says in
  addition that the answer is related by `P` to what `f` shows of the state.  The
  rules follow the structure of a program, so a frame property of a function is
  proved from those of the functions it calls.
-/

import Nemu.Lib.Outcome

namespace Frame

open Outcome

variable {σ ε α β γ : Type _}

/-- A successful run of `x` leaves `f` of the state as it was. -/
def Keeps (f : σ → γ) (x : StateT σ (Except ε) α) : Prop :=
  ∀ s a s', x s = .ok (a, s') → f s' = f s

/-- And its answer satisfies `P`, given what `f` shows of the state. -/
def Yields (f : σ → γ) (x : StateT σ (Except ε) α) (P : γ → α → Prop) : Prop :=
  ∀ s a s', x s = .ok (a, s') → f s' = f s ∧ P (f s) a

/-- Every answer of `x` satisfies `P`, whatever the state. -/
def Answers (x : StateT σ (Except ε) α) (P : α → Prop) : Prop :=
  ∀ s a s', x s = .ok (a, s') → P a

section Rules

variable {f : σ → γ} {x : StateT σ (Except ε) α} {k : α → StateT σ (Except ε) β}

/-! ## Keeping -/

@[simp] theorem keeps_pure (a : α) : Keeps f (pure a : StateT σ (Except ε) α) := by
  intro s b s' h
  cases h
  rfl

@[simp] theorem keeps_bind (hx : Keeps f x) (hk : ∀ a, Keeps f (k a)) : Keeps f (x >>= k) := by
  intro s b s' h
  obtain ⟨a, s₁, h₁, h₂⟩ := run_bind_eq_ok.mp h
  rw [hk a s₁ b s' h₂, hx s a s₁ h₁]

@[simp] theorem keeps_map (g : α → β) (hx : Keeps f x) : Keeps f (g <$> x) := by
  rw [← bind_pure_comp]
  exact keeps_bind hx (fun a => keeps_pure (g a))

@[simp] theorem keeps_ite {c : Prop} [Decidable c] {y z : StateT σ (Except ε) α}
    (hy : Keeps f y) (hz : Keeps f z) : Keeps f (if c then y else z) := by
  split
  · exact hy
  · exact hz

/-! ## Answering -/

theorem answers_pure {P : α → Prop} {a : α} (h : P a) :
    Answers (pure a : StateT σ (Except ε) α) P := by
  intro s b s' hrun
  cases hrun
  exact h

/-- The answer of a bind is that of its last part. -/
theorem answers_bind {P : β → Prop} (hk : ∀ a, Answers (k a) P) : Answers (x >>= k) P := by
  intro s b s' h
  obtain ⟨a, s₁, -, h₂⟩ := run_bind_eq_ok.mp h
  exact hk a s₁ b s' h₂

theorem answers_ite {P : α → Prop} {c : Prop} [Decidable c] {y z : StateT σ (Except ε) α}
    (hy : Answers y P) (hz : Answers z P) : Answers (if c then y else z) P := by
  split
  · exact hy
  · exact hz

/-! ## Yielding -/

theorem Yields.keeps {P : γ → α → Prop} (h : Yields f x P) : Keeps f x :=
  fun s a s' hrun => (h s a s' hrun).1

theorem yields_pure {P : γ → α → Prop} {a : α} (h : ∀ o, P o a) :
    Yields f (pure a : StateT σ (Except ε) α) P := by
  intro s b s' hrun
  cases hrun
  exact ⟨rfl, h _⟩

/-- The answer of a bind, from the answers of its parts. -/
theorem yields_bind {P : γ → α → Prop} {Q : γ → β → Prop} (hx : Yields f x P)
    (hk : ∀ a, Yields f (k a) (fun o b => P o a → Q o b)) : Yields f (x >>= k) Q := by
  intro s b s' h
  obtain ⟨a, s₁, h₁, h₂⟩ := run_bind_eq_ok.mp h
  obtain ⟨hf₁, hP⟩ := hx s a s₁ h₁
  obtain ⟨hf₂, hQ⟩ := hk a s₁ b s' h₂
  rw [hf₁] at hf₂ hQ
  exact ⟨hf₂, hQ hP⟩

/-- A first part that only has to keep the frame. -/
theorem yields_after {Q : γ → β → Prop} (hx : Keeps f x) (hk : ∀ a, Yields f (k a) Q) :
    Yields f (x >>= k) Q :=
  yields_bind (P := fun _ _ => True) (fun s a s' h => ⟨hx s a s' h, trivial⟩)
    (fun a s b s' h => ⟨(hk a s b s' h).1, fun _ => (hk a s b s' h).2⟩)

/-- A program that keeps a finer view keeps a coarser one. -/
theorem Keeps.comp {δ : Type _} (h : Keeps f x) (g : γ → δ) : Keeps (fun s => g (f s)) x :=
  fun s a s' hrun => congrArg g (h s a s' hrun)

end Rules

end Frame
