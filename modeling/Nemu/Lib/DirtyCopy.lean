/-
  Nemu.Lib.DirtyCopy

  A copy of some cells that is brought up to date line by line: a write marks lines, a
  refresh copies the cells of the marked ones.  `Covered` is the invariant: what the copy
  does not show is on a marked line.  Nothing here knows about any particular device.
-/

import Mathlib.Tactic.ByContra

namespace DirtyCopy

variable {P L β : Type _}

/-- Every cell that differs from its copy is on a marked line. -/
def Covered (marked : L → Prop) (line : P → L) (cur shown : P → β) : Prop :=
  ∀ p, shown p ≠ cur p → marked (line p)

/-- The copy with the marked lines copied. -/
def refresh (marked : L → Prop) [DecidablePred marked] (line : P → L) (cur shown : P → β) : P → β :=
  fun p => if marked (line p) then cur p else shown p

section Rules

variable {marked marked' : L → Prop} {line : P → L} {cur cur' shown : P → β}

theorem covered_of_eq (h : shown = cur) : Covered marked line cur shown := by
  intro p hp
  exact absurd (congrFun h p) hp

/-- A refresh brings the copy up to date exactly if the marks cover it. -/
theorem refresh_eq_iff [DecidablePred marked] :
    refresh marked line cur shown = cur ↔ Covered marked line cur shown := by
  apply Iff.intro
  · intro h p hp
    by_contra hunmarked
    have hshown := congrFun h p
    rw [refresh, if_neg hunmarked] at hshown
    exact hp hshown
  · intro h
    funext p
    by_cases hmarked : marked (line p)
    · rw [refresh, if_pos hmarked]
    · rw [refresh, if_neg hmarked]
      by_contra hp
      exact hmarked (h p hp)

/-- A write that keeps the marks keeps the copy covered exactly if the cells it changes are on
    lines that are marked after it. -/
theorem Covered.write_iff (h : Covered marked line cur shown) (hkeeps : ∀ l, marked l → marked' l) :
    Covered marked' line cur' shown ↔ ∀ p, cur' p ≠ cur p → marked' (line p) := by
  apply Iff.intro
  · intro h' p hchanged
    by_cases hshown : shown p = cur p
    · refine h' p ?_
      rw [hshown]
      exact hchanged.symm
    · exact hkeeps _ (h p hshown)
  · intro hmarks p hp
    by_cases hchanged : cur' p = cur p
    · rw [hchanged] at hp
      exact hkeeps _ (h p hp)
    · exact hmarks p hchanged

end Rules

end DirtyCopy
