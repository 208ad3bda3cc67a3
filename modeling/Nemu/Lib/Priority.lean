/-
  Nemu.Lib.Priority

  Requests served by fixed priority: lines are raised in any order, and an
  acknowledgement takes the pending line that comes first in `order`.  This is
  the history an interrupt controller has to keep.
-/

import Mathlib.Data.Finset.Basic

namespace Priority

variable {α : Type _} [DecidableEq α] (order : List α)

/-- The pending line of highest priority. -/
def top (P : Finset α) : Option α := order.find? (fun a => decide (a ∈ P))

/-- What happens to the lines. -/
inductive Event (α : Type _) where
  | raise (a : α)
  | ack
deriving DecidableEq, Repr

/-- The lines raised and not yet acknowledged, after one more event. -/
def pend (P : Finset α) : Event α → Finset α
  | .raise a => insert a P
  | .ack =>
      match top order P with
      | some a => P.erase a
      | none => P

/-- A history that raises lines of the order only, and acknowledges only while a line is
    pending. -/
def Served (P : Finset α) : List (Event α) → Prop
  | [] => True
  | .raise a :: es => a ∈ order ∧ Served (pend order P (.raise a)) es
  | .ack :: es => P.Nonempty ∧ Served (pend order P .ack) es

section Top

variable {order} {P : Finset α} {a : α}

theorem top_mem (h : top order P = some a) : a ∈ P := by
  have hfound := List.find?_some h
  exact of_decide_eq_true hfound

theorem top_mem_order (h : top order P = some a) : a ∈ order :=
  List.mem_of_find?_eq_some h

/-- While a line of the order is pending, one of them is on top. -/
theorem top_of_nonempty (hsub : ∀ a ∈ P, a ∈ order) (hne : P.Nonempty) :
    ∃ a, top order P = some a := by
  obtain ⟨b, hb⟩ := hne
  cases h : top order P with
  | some a => exact ⟨a, rfl⟩
  | none =>
      have hnone := List.find?_eq_none.mp h b (hsub b hb)
      exact absurd (decide_eq_true hb) hnone

theorem pend_ack (h : top order P = some a) : pend order P .ack = P.erase a := by
  rw [pend, h]

end Top

end Priority
