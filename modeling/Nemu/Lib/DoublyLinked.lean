/-
  Nemu.Lib.DoublyLinked

  Doubly linked lists threaded through a pool of nodes.

  A list is a chain along `next` whose nodes point back along `prev`.  The two fields are
  edited one at a time, so the rules for a push in front and for taking a node out anywhere
  are assembled from one rule for each field.
-/

import Nemu.Lib.LinkedList

namespace LinkedList

variable {ι : Type _}

/-- `prev` leads back through `l`: from its first node to `b`, from any other to the one
    before it. -/
def Backed (prev : ι → Option ι) : Option ι → List ι → Prop
  | _, [] => True
  | b, x :: xs => prev x = b ∧ Backed prev (some x) xs

/-- The nodes of `l`, linked both ways. -/
structure DoublyLinked (next prev : ι → Option ι) (head : Option ι) (l : List ι) : Prop where
  chain : Chain next head l
  backed : Backed prev none l
  nodup : l.Nodup

/-! ## The way back -/

section Backed

variable {prev prev' : ι → Option ι} {b : Option ι} {x y : ι} {l r : List ι}

theorem backed_congr (h : ∀ x ∈ l, prev x = prev' x) (hb : Backed prev b l) :
    Backed prev' b l := by
  induction l generalizing b with
  | nil => exact trivial
  | cons x xs ih =>
      refine ⟨?_, ih (fun y hy => h y (List.mem_cons_of_mem _ hy)) hb.2⟩
      rw [← h x (List.mem_cons_self ..)]
      exact hb.1

theorem backed_update [DecidableEq ι] {v : Option ι} (hx : x ∉ l) (hb : Backed prev b l) :
    Backed (Function.update prev x v) b l := by
  refine backed_congr (fun y hy => ?_) hb
  rw [Function.update_of_ne]
  rintro rfl
  exact hx hy

theorem backed_successor (hb : Backed prev b (l ++ x :: y :: r)) : prev y = some x := by
  induction l generalizing b with
  | nil => exact hb.2.1
  | cons z zs ih => exact ih hb.2

/-- Taking out a node in front of `y`. -/
theorem backed_remove [DecidableEq ι] (hy : y ∉ l) (hr : y ∉ r)
    (hb : Backed prev b (l ++ x :: y :: r)) :
    Backed (Function.update prev y (prev x)) b (l ++ y :: r) := by
  induction l generalizing b with
  | nil =>
      refine ⟨?_, backed_update hr hb.2.2⟩
      rw [Function.update_self]
      exact hb.1
  | cons z zs ih =>
      have hzy : z ≠ y := by
        rintro rfl
        exact hy (List.mem_cons_self ..)
      refine ⟨?_, ih (fun h => hy (List.mem_cons_of_mem _ h)) hb.2⟩
      rw [Function.update_of_ne hzy]
      exact hb.1

-- the last node of a list
theorem backed_removeLast (hb : Backed prev b (l ++ [x])) : Backed prev b l := by
  induction l generalizing b with
  | nil => exact trivial
  | cons z zs ih => exact ⟨hb.1, ih hb.2⟩

end Backed

namespace DoublyLinked

/-! ## What a list says about its nodes -/

section Facts

variable {next prev : ι → Option ι} {head : Option ι} {x y : ι} {l r : List ι}

theorem nil : DoublyLinked next prev none [] := ⟨rfl, trivial, List.nodup_nil⟩

theorem single (hnext : next x = none) (hprev : prev x = none) :
    DoublyLinked next prev (some x) [x] :=
  ⟨⟨rfl, hnext⟩, ⟨hprev, trivial⟩, List.nodup_singleton x⟩

theorem prev_head (h : DoublyLinked next prev (some x) l) : prev x = none := by
  obtain ⟨r, rfl⟩ := chain_some h.chain
  exact h.backed.1

/-- `next` and `prev` are mutually inverse on the list. -/
theorem next_iff_prev (h : DoublyLinked next prev head l) (hx : x ∈ l) (hy : y ∈ l) :
    next x = some y ↔ prev y = some x := by
  apply Iff.intro
  · intro hnext
    obtain ⟨l₁, r₁, rfl⟩ := List.append_of_mem hx
    have hrest := chain_split h.chain
    rw [hnext] at hrest
    obtain ⟨r₂, rfl⟩ := chain_some hrest
    exact backed_successor h.backed
  · intro hprev
    obtain ⟨l₁, r₁, rfl⟩ := List.append_of_mem hy
    rcases List.eq_nil_or_concat l₁ with rfl | ⟨l₂, a, rfl⟩
    · exact nomatch h.backed.1.symm.trans hprev
    · have hbacked := h.backed
      have hchain := h.chain
      rw [List.concat_eq_append, List.append_assoc, List.singleton_append] at hbacked hchain
      obtain rfl := Option.some.inj ((backed_successor hbacked).symm.trans hprev)
      exact chain_successor hchain

end Facts

/-! ## Edits -/

section Edits

variable [DecidableEq ι] {next prev : ι → Option ι} {head : Option ι} {x y : ι} {l r : List ι}

/-- Pushing a node in front of the first one. -/
theorem push (h : DoublyLinked next prev (some y) l) (hx : x ∉ l) :
    DoublyLinked (Function.update next x (some y))
      (Function.update (Function.update prev x none) y (some x)) (some x) (x :: l) := by
  obtain ⟨r, rfl⟩ := chain_some h.chain
  have hxy : x ≠ y := fun hxy => hx (hxy ▸ List.mem_cons_self ..)
  have hy : y ∉ r := (List.nodup_cons.mp h.nodup).1
  refine ⟨chain_push hx h.chain, ⟨?_, ?_, ?_⟩, List.nodup_cons.mpr ⟨hx, h.nodup⟩⟩
  · rw [Function.update_of_ne hxy, Function.update_self]
  · rw [Function.update_self]
  · exact backed_update hy (backed_update (fun h => hx (List.mem_cons_of_mem _ h)) h.backed.2)

/-- The `next` fields once `x` is passed over. -/
def skipNext (next prev : ι → Option ι) (x : ι) : ι → Option ι :=
  match prev x with
  | none => next
  | some a => Function.update next a (next x)

/-- The `prev` fields once `x` is passed over. -/
def skipPrev (next prev : ι → Option ι) (x : ι) : ι → Option ι :=
  match next x with
  | none => prev
  | some c => Function.update prev c (prev x)

/-- Passing over a node touches the nodes before it only. -/
theorem skipNext_of_not_mem (h : DoublyLinked next prev head (l ++ x :: r)) {i : ι} (hi : i ∉ l) :
    skipNext next prev x i = next i := by
  rcases List.eq_nil_or_concat l with rfl | ⟨l₀, a, rfl⟩
  · have hprev : prev x = none := h.backed.1
    rw [skipNext, hprev]
  · have hbacked := h.backed
    rw [List.concat_eq_append] at hi
    rw [List.concat_eq_append, List.append_assoc, List.singleton_append] at hbacked
    have hia : i ≠ a := by
      rintro rfl
      exact hi (List.mem_append_right _ (List.mem_singleton_self _))
    rw [skipNext, backed_successor hbacked]
    exact Function.update_of_ne hia _ _

/-- Taking a node out, at the head, in the middle or at the end. -/
theorem remove (h : DoublyLinked next prev head (l ++ x :: r)) :
    DoublyLinked (skipNext next prev x) (skipPrev next prev x)
      (if l = [] then next x else head) (l ++ r) := by
  have hnodup : (l ++ r).Nodup :=
    h.nodup.sublist (List.Sublist.append_left (List.sublist_cons_self x r) l)
  refine ⟨?_, ?_, hnodup⟩
  · rcases List.eq_nil_or_concat l with rfl | ⟨l₀, a, rfl⟩
    · have hprev : prev x = none := h.backed.1
      rw [if_pos rfl, skipNext, hprev]
      exact chain_split h.chain
    · have hbacked := h.backed
      have hchain := h.chain
      have hd := h.nodup
      rw [List.concat_eq_append, List.append_assoc, List.singleton_append] at hbacked hchain hd
      have ha : a ∉ l₀ ++ x :: r := (List.nodup_middle.mp hd).notMem
      rw [if_neg (by simp), List.concat_eq_append, List.append_assoc, List.singleton_append,
        skipNext, backed_successor hbacked]
      exact chain_remove ha hchain
  · cases r with
    | nil =>
        have hnext : next x = none := chain_split h.chain
        rw [List.append_nil, skipPrev, hnext]
        exact backed_removeLast h.backed
    | cons c r =>
        have hnext : next x = some c := chain_successor h.chain
        obtain ⟨hl, hr⟩ : c ∉ l ∧ c ∉ r := by
          have hc : c ∉ l ++ r := (List.nodup_middle.mp hnodup).notMem
          exact ⟨fun h => hc (List.mem_append_left _ h), fun h => hc (List.mem_append_right _ h)⟩
        rw [skipPrev, hnext]
        exact backed_remove hl hr h.backed

end Edits

end DoublyLinked

end LinkedList
