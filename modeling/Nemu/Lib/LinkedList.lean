/-
  Nemu.Lib.LinkedList

  Null-terminated lists threaded through a pool of nodes.

  `Chain next p l` says that following `next` from the pointer `p` visits the nodes
  of `l` and then reaches null, so a chain is finite and, with `l.Nodup`, acyclic.
  The rules say what an assignment to one `next` field does to a chain: nothing if the
  node is elsewhere, and a push, an append or a removal at the places where programs
  make one.  `walk` is the search loop such programs are full of.
-/

import Mathlib.Data.List.Nodup
import Mathlib.Logic.Function.Basic

namespace LinkedList

variable {ι : Type _}

/-- From `p`, `next` leads through the nodes of `l` to null. -/
def Chain (next : ι → Option ι) : Option ι → List ι → Prop
  | p, [] => p = none
  | p, x :: xs => p = some x ∧ Chain next (next x) xs

instance decidableChain [DecidableEq ι] (next : ι → Option ι) :
    (p : Option ι) → (l : List ι) → Decidable (Chain next p l)
  | p, [] => inferInstanceAs (Decidable (p = none))
  | p, x :: xs =>
      have := decidableChain next (next x) xs
      inferInstanceAs (Decidable (p = some x ∧ Chain next (next x) xs))

section Chains

variable {next next' : ι → Option ι} {p : Option ι} {x y : ι} {l r : List ι}

@[simp] theorem chain_nil : Chain next p [] ↔ p = none := Iff.rfl

@[simp] theorem chain_cons : Chain next p (x :: l) ↔ p = some x ∧ Chain next (next x) l := Iff.rfl

/-- Only the fields of the nodes on the chain matter. -/
theorem chain_congr (h : ∀ x ∈ l, next x = next' x) (hc : Chain next p l) : Chain next' p l := by
  induction l generalizing p with
  | nil => exact hc
  | cons x xs ih =>
      refine ⟨hc.1, ?_⟩
      rw [← h x (List.mem_cons_self ..)]
      exact ih (fun y hy => h y (List.mem_cons_of_mem _ hy)) hc.2

/-- What comes behind a node of the chain. -/
theorem chain_split (hc : Chain next p (l ++ x :: r)) : Chain next (next x) r := by
  induction l generalizing p with
  | nil => exact hc.2
  | cons y ys ih => exact ih hc.2

theorem chain_successor (hc : Chain next p (l ++ x :: y :: r)) : next x = some y :=
  (chain_split hc).1

/-- A chain from a node starts with it. -/
theorem chain_some (hc : Chain next (some x) l) : ∃ r, l = x :: r := by
  cases l with
  | nil => exact nomatch hc
  | cons y ys =>
      obtain ⟨hxy, -⟩ := hc
      obtain rfl := Option.some.inj hxy
      exact ⟨ys, rfl⟩

theorem chain_head (hc : Chain next p l) : p = l.head? := by
  cases l with
  | nil => exact hc
  | cons x xs => exact hc.1

/-- The nodes behind some of a chain are a chain. -/
theorem chain_suffix (hc : Chain next p (l ++ r)) : Chain next r.head? r := by
  induction l generalizing p with
  | nil =>
      rw [List.nil_append] at hc
      rw [← chain_head hc]
      exact hc
  | cons x xs ih => exact ih hc.2

/-- A pointer to a node of the chain is the head exactly if no node comes before it. -/
theorem chain_head_iff (hnodup : (l ++ x :: r).Nodup) (hc : Chain next p (l ++ x :: r)) :
    some x = p ↔ l = [] := by
  cases l with
  | nil => exact iff_of_true hc.1.symm rfl
  | cons y ys =>
      refine iff_of_false (fun hxp => ?_) (List.cons_ne_nil y ys)
      obtain rfl := Option.some.inj (hxp.trans hc.1)
      exact (List.nodup_cons.mp hnodup).1 (List.mem_append_right _ (List.mem_cons_self ..))

end Chains

/-! ## Assignments to one field -/

section Update

variable [DecidableEq ι] {next : ι → Option ι} {p v : Option ι} {x y : ι} {l r : List ι}

/-- An assignment to a node elsewhere. -/
theorem chain_update (hx : x ∉ l) (hc : Chain next p l) : Chain (Function.update next x v) p l := by
  refine chain_congr (fun y hy => ?_) hc
  rw [Function.update_of_ne]
  rintro rfl
  exact hx hy

/-- Pushing a node in front. -/
theorem chain_push (hx : x ∉ l) (hc : Chain next p l) :
    Chain (Function.update next x p) (some x) (x :: l) := by
  refine ⟨rfl, ?_⟩
  rw [Function.update_self]
  exact chain_update hx hc

/-- Appending a node behind the last one. -/
theorem chain_append (hy : y ∉ l ++ [x]) (hx : x ∉ l) (hnull : next y = none)
    (hc : Chain next p (l ++ [x])) :
    Chain (Function.update next x (some y)) p (l ++ [x, y]) := by
  induction l generalizing p with
  | nil =>
      have hyx : y ≠ x := by
        rintro rfl
        exact hy (List.mem_cons_self ..)
      refine ⟨hc.1, ?_, ?_⟩
      · rw [Function.update_self]
      · rw [Function.update_of_ne hyx]
        exact hnull
  | cons z zs ih =>
      have hzx : z ≠ x := by
        rintro rfl
        exact hx (List.mem_cons_self ..)
      refine ⟨hc.1, ?_⟩
      rw [Function.update_of_ne hzx]
      exact ih (fun h => hy (List.mem_cons_of_mem _ h)) (fun h => hx (List.mem_cons_of_mem _ h)) hc.2

/-- Taking out the node behind `x`. -/
theorem chain_remove (hx : x ∉ l ++ y :: r) (hc : Chain next p (l ++ x :: y :: r)) :
    Chain (Function.update next x (next y)) p (l ++ x :: r) := by
  induction l generalizing p with
  | nil =>
      refine ⟨hc.1, ?_⟩
      rw [Function.update_self]
      exact chain_update (fun h => hx (List.mem_cons_of_mem _ h)) hc.2.2
  | cons z zs ih =>
      have hzx : z ≠ x := by
        rintro rfl
        exact hx (List.mem_cons_self ..)
      refine ⟨hc.1, ?_⟩
      rw [Function.update_of_ne hzx]
      exact ih (fun h => hx (List.mem_cons_of_mem _ h)) hc.2

end Update

/-! ## Search loops -/

/-- Follow `next` from `p` to the first node where `stop` holds, or to null; at most
    `fuel` nodes are passed. -/
def walk (next : ι → Option ι) (stop : ι → Bool) : Nat → Option ι → Option (Option ι)
  | _, none => some none
  | 0, some _ => none
  | fuel + 1, some x => if stop x then some (some x) else walk next stop fuel (next x)

section Walk

variable {next : ι → Option ι} {p : Option ι} {stop : ι → Bool} {x y : ι} {l r : List ι}

/-- On a chain no longer than the bound, the loop finds what `find?` finds. -/
theorem walk_chain {fuel : Nat} (hlen : l.length < fuel + 1) (hc : Chain next p l) :
    walk next stop fuel p = some (l.find? stop) := by
  induction l generalizing p fuel with
  | nil =>
      rw [chain_nil.mp hc]
      cases fuel <;> rfl
  | cons x xs ih =>
      obtain ⟨rfl, hrest⟩ := hc
      cases fuel with
      | zero => simp at hlen
      | succ fuel =>
          rw [walk, List.find?_cons]
          cases hs : stop x with
          | true => rfl
          | false => exact ih (by simpa using hlen) hrest

/-- The first node without a successor is the last. -/
theorem find_last (hc : Chain next p (l ++ [x])) :
    (l ++ [x]).find? (fun i => (next i).isNone) = some x := by
  induction l generalizing p with
  | nil =>
      have hnull : next x = none := hc.2
      simp [hnull]
  | cons z zs ih =>
      have hnext : (next z).isNone = false := by
        cases zs with
        | nil => rw [hc.2.1]; rfl
        | cons w ws => rw [hc.2.1]; rfl
      rw [List.cons_append, List.find?_cons_of_neg (by rw [hnext]; decide)]
      exact ih hc.2

/-- The first node that points to `y` is the one before it. -/
theorem find_predecessor [DecidableEq ι] (hnodup : (l ++ x :: y :: r).Nodup)
    (hc : Chain next p (l ++ x :: y :: r)) :
    (l ++ x :: y :: r).find? (fun i => next i == some y) = some x := by
  induction l generalizing p with
  | nil => simp [hc.2.1]
  | cons z zs ih =>
      have hnext : next z ≠ some y := by
        intro hz
        -- the successor of `z` comes before `y`
        have hmem : y ∉ zs ++ [x] := by
          have hd : ((zs ++ [x]) ++ y :: r).Nodup := by
            have htail : (zs ++ x :: y :: r).Nodup := (List.nodup_cons.mp hnodup).2
            rwa [List.append_assoc, List.singleton_append]
          intro hy
          exact (List.nodup_append.mp hd).2.2 y hy y (List.mem_cons_self ..) rfl
        cases zs with
        | nil =>
            have hxy := Option.some.inj (hc.2.1.symm.trans hz)
            exact hmem (by simp [hxy])
        | cons w ws =>
            have hwy := Option.some.inj (hc.2.1.symm.trans hz)
            exact hmem (by simp [hwy])
      rw [List.cons_append, List.find?_cons_of_neg (by simpa using hnext)]
      exact ih (List.nodup_cons.mp hnodup).2 hc.2

end Walk

end LinkedList
