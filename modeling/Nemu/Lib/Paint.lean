/-
  Nemu.Lib.Paint

  Painting in layers.  A layer gives some places a colour and leaves the others alone; a
  picture is a list of layers, of which the last one that covers a place decides.  `Draws`
  is what a procedure on a canvas does when it paints one layer and cannot fail, and the
  rules compose such procedures.
-/

import Mathlib.Logic.Function.Basic

namespace Paint

variable {P C ε α : Type _}

/-- The colours of the places that are covered. -/
abbrev Layer (P C : Type _) := P → Option C

/-- A canvas with a layer put on it. -/
def overlay (l : Layer P C) (canvas : P → C) : P → C := fun p => (l p).getD (canvas p)

def blank : Layer P C := fun _ => none

def dot [DecidableEq P] (q : P) (c : C) : Layer P C := fun p => if p = q then some c else none

/-- `m` on top of `l`. -/
def stack (l m : Layer P C) : Layer P C := fun p => (m p).or (l p)

/-- Layers one on top of the other, the last one on top. -/
def picture : List (Layer P C) → Layer P C
  | [] => blank
  | l :: ls => stack l (picture ls)

section Layers

variable (l m : Layer P C) (ls ms : List (Layer P C)) (canvas : P → C)

@[simp] theorem overlay_blank : overlay blank canvas = canvas := rfl

theorem overlay_stack : overlay (stack l m) canvas = overlay m (overlay l canvas) := by
  funext p
  rw [overlay, overlay, overlay, stack]
  cases m p <;> rfl

theorem overlay_dot [DecidableEq P] (q : P) (c : C) :
    overlay (dot q c) canvas = Function.update canvas q c := by
  funext p
  rw [overlay, dot]
  by_cases h : p = q
  · subst h
    rw [if_pos rfl, Function.update_self]
    rfl
  · rw [if_neg h, Function.update_of_ne h]
    rfl

theorem stack_assoc (k : Layer P C) : stack (stack k l) m = stack k (stack l m) := by
  funext p
  rw [stack, stack, stack, stack, Option.or_assoc]

@[simp] theorem stack_blank : stack l blank = l := rfl

@[simp] theorem blank_stack : stack blank l = l := by
  funext p
  exact Option.or_none

theorem picture_append : picture (ls ++ ms) = stack (picture ls) (picture ms) := by
  induction ls with
  | nil => exact (blank_stack _).symm
  | cons l ls ih =>
      show stack l (picture (ls ++ ms)) = stack (stack l (picture ls)) (picture ms)
      rw [ih, stack_assoc]

theorem picture_singleton : picture [l] = l := stack_blank l

variable {ls} {p : P} {c : C}

theorem picture_eq_none : picture ls p = none ↔ ∀ l ∈ ls, l p = none := by
  induction ls with
  | nil => exact iff_of_true rfl nofun
  | cons l ls ih =>
      show (picture ls p).or (l p) = none ↔ _
      rw [Option.or_eq_none_iff, ih, List.forall_mem_cons, and_comm]

/-- The colour of a picture is that of one of its layers. -/
theorem picture_eq_some (h : picture ls p = some c) : ∃ l ∈ ls, l p = some c := by
  induction ls with
  | nil => exact nomatch h
  | cons l ls ih =>
      have hor : (picture ls p).or (l p) = some c := h
      rcases Option.or_eq_some_iff.mp hor with hrest | ⟨-, hl⟩
      · obtain ⟨m, hm, hmc⟩ := ih hrest
        exact ⟨m, List.mem_cons_of_mem _ hm, hmc⟩
      · exact ⟨l, List.mem_cons_self .., hl⟩

/-- Layers of one colour. -/
theorem picture_uniform (h : ∀ l ∈ ls, ∀ d, l p = some d → d = c) (hl : ∃ l ∈ ls, l p = some c) :
    picture ls p = some c := by
  cases hp : picture ls p with
  | none =>
      obtain ⟨l, hmem, hlc⟩ := hl
      exact nomatch (picture_eq_none.mp hp l hmem).symm.trans hlc
  | some d =>
      obtain ⟨l, hmem, hld⟩ := picture_eq_some hp
      rw [h l hmem d hld]

/-- The uppermost of some layers decides. -/
theorem picture_top {α : Type _} {R : α → α → Prop} (hasymm : ∀ a b, R a b → ¬R b a)
    {f : α → Layer P C} {as : List α} (has : as.Pairwise R) (h : picture (as.map f) p = some c) :
    ∃ a ∈ as, f a p = some c ∧ ∀ b ∈ as, R a b → f b p = none := by
  induction as with
  | nil => exact nomatch h
  | cons a as ih =>
      obtain ⟨hhead, hrest⟩ := List.pairwise_cons.mp has
      have hor : (picture (as.map f) p).or (f a p) = some c := h
      rcases Option.or_eq_some_iff.mp hor with hmem | ⟨hnone, ha⟩
      · obtain ⟨m, hm, hmc, htop⟩ := ih hrest hmem
        refine ⟨m, List.mem_cons_of_mem _ hm, hmc, List.forall_mem_cons.mpr ⟨fun hR => ?_, htop⟩⟩
        exact absurd hR (hasymm a m (hhead m hm))
      · refine ⟨a, List.mem_cons_self .., ha, List.forall_mem_cons.mpr ⟨fun hR => ?_, fun b hb _ => ?_⟩⟩
        · exact absurd hR (hasymm a a hR)
        · exact picture_eq_none.mp hnone _ (List.mem_map.mpr ⟨b, hb, rfl⟩)

end Layers

/-! ## Procedures -/

/-- The procedure succeeds on every canvas and puts the layer on it. -/
def Draws (f : (P → C) → Except ε (P → C)) (l : Layer P C) : Prop := ∀ v, f v = .ok (overlay l v)

theorem draws_nothing : Draws (fun v => (.ok v : Except ε (P → C))) blank := fun _ => rfl

theorem Draws.bind {f g : (P → C) → Except ε (P → C)} {l m : Layer P C} (hf : Draws f l)
    (hg : Draws g m) : Draws (fun v => f v >>= g) (stack l m) := by
  intro v
  show (f v >>= g) = _
  rw [hf v, overlay_stack]
  exact hg _

/-- A loop that draws paints the picture of its turns. -/
theorem draws_foldlM {f : (P → C) → α → Except ε (P → C)} {layer : α → Layer P C} {xs : List α}
    (h : ∀ a ∈ xs, Draws (fun v => f v a) (layer a)) :
    Draws (fun v => xs.foldlM f v) (picture (xs.map layer)) := by
  induction xs with
  | nil => exact fun _ => rfl
  | cons a xs ih =>
      intro v
      show (f v a >>= fun v => xs.foldlM f v) = _
      have hhead := h a (List.mem_cons_self ..) v
      dsimp only at hhead
      rw [hhead, List.map_cons, picture, overlay_stack]
      exact ih (fun b hb => h b (List.mem_cons_of_mem _ hb)) _

end Paint
