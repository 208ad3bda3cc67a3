/-
  Nemu.Game.LinkListRules

  The lists of `linklist.h` over any data and any size.

  `Shape` is what the program keeps of a pool: the used nodes, linked both ways, and the
  free ones, chained along the same `next` field.  Each operation has one rule that says
  how it moves a node between the two, and that it leaves all data alone.
-/

import Mathlib.Data.Fintype.Card
import Mathlib.Data.List.FinRange
import Nemu.Game.LinkList
import Nemu.Lib.DoublyLinked

namespace Nemu

open LinkedList

namespace LinkList

variable {α : Type _} {SIZE : Nat}

namespace Pool

/-! ## Fields -/

section Fields

variable (s : Pool α SIZE) (i : Ptr SIZE)

-- an assignment changes one field of one node
theorem proj_modify {β : Type _} (g : Node α SIZE → β) (f : Node α SIZE → Node α SIZE) :
    (fun j => g ((s.modify i f).pool j))
      = Function.update (fun j => g (s.pool j)) i (g (f (s.pool i))) := by
  funext j
  by_cases h : j = i
  · subst h
    simp [modify]
  · simp [modify, h]

theorem proj_modify_same {β : Type _} (g : Node α SIZE → β) {f : Node α SIZE → Node α SIZE}
    (hf : ∀ node, g (f node) = g node) :
    (fun j => g ((s.modify i f).pool j)) = fun j => g (s.pool j) := by
  rw [proj_modify, hf]
  exact Function.update_eq_self i _

variable (p : Option (Ptr SIZE)) (v : α)

@[simp] theorem next_setNext : (s.setNext i p).next = Function.update s.next i p :=
  proj_modify s i Node.next _

@[simp] theorem next_setPrev : (s.setPrev i p).next = s.next :=
  proj_modify_same s i Node.next fun _ => rfl

@[simp] theorem next_setData : (s.setData i v).next = s.next :=
  proj_modify_same s i Node.next fun _ => rfl

@[simp] theorem prev_setNext : (s.setNext i p).prev = s.prev :=
  proj_modify_same s i Node.prev fun _ => rfl

@[simp] theorem prev_setPrev : (s.setPrev i p).prev = Function.update s.prev i p :=
  proj_modify s i Node.prev _

@[simp] theorem prev_setData : (s.setData i v).prev = s.prev :=
  proj_modify_same s i Node.prev fun _ => rfl

@[simp] theorem data_setNext : (s.setNext i p).data = s.data :=
  proj_modify_same s i Node.data fun _ => rfl

@[simp] theorem data_setPrev : (s.setPrev i p).data = s.data :=
  proj_modify_same s i Node.data fun _ => rfl

@[simp] theorem data_setData : (s.setData i v).data = Function.update s.data i v :=
  proj_modify s i Node.data _

end Fields

/-! ## The fields after an operation -/

section Operations

variable (s : Pool α SIZE) (x : Ptr SIZE)

theorem next_remove : (s.remove x).next = DoublyLinked.skipNext s.next s.prev x := by
  rw [remove, DoublyLinked.skipNext]
  cases s.prev x <;> cases s.next x <;> simp

theorem prev_remove : (s.remove x).prev = DoublyLinked.skipPrev s.next s.prev x := by
  rw [remove, DoublyLinked.skipPrev]
  cases s.prev x <;> cases s.next x <;> simp

theorem data_remove : (s.remove x).data = s.data := by
  rw [remove]
  cases s.prev x <;> cases s.next x <;> simp

theorem free_head_remove : (s.remove x).free_head = s.free_head := by
  rw [remove]
  cases s.prev x <;> cases s.next x <;> rfl

theorem next_free : (s.free x).next = Function.update s.next x s.free_head :=
  next_setNext s x s.free_head

theorem prev_free : (s.free x).prev = s.prev := prev_setNext s x s.free_head

theorem data_free : (s.free x).data = s.data := data_setNext s x s.free_head

/-- In front of `head` an insertion sets two `prev` fields and one `next`. -/
theorem insert_front (head : Ptr SIZE) : ∃ s', s.insert none (some head) x = .ok s' ∧
    s'.next = Function.update s.next x (some head) ∧
    s'.prev = Function.update (Function.update s.prev x none) head (some x) ∧
    s'.data = s.data ∧ s'.free_head = s.free_head := by
  refine ⟨_, if_pos (.inr (Option.some_ne_none head)), ?_, ?_, ?_, rfl⟩ <;> simp

end Operations

end Pool

open Pool

/-! ## Used and free nodes -/

/-- The nodes from `head` are `used`, the free list is `free`. -/
structure Shape (s : Pool α SIZE) (head : Option (Ptr SIZE)) (used free : List (Ptr SIZE)) :
    Prop where
  linked : DoublyLinked s.next s.prev head used
  freeChain : Chain s.next s.free_head free
  freeNodup : free.Nodup
  disjoint : ∀ i ∈ used, i ∉ free

section Shape

variable {s s' : Pool α SIZE} {head : Option (Ptr SIZE)} {used free l r : List (Ptr SIZE)}
  {i x : Ptr SIZE}

theorem Shape.length_le (h : Shape s head used free) : used.length ≤ SIZE + 1 := by
  have hlen := h.linked.nodup.length_le_card
  rwa [Fintype.card_fin] at hlen

/-- The links are all that counts. -/
theorem Shape.congr (h : Shape s head used free) (hnext : s'.next = s.next)
    (hprev : s'.prev = s.prev) (hfree : s'.free_head = s.free_head) : Shape s' head used free := by
  refine ⟨?_, ?_, h.freeNodup, h.disjoint⟩
  · rw [hnext, hprev]
    exact h.linked
  · rw [hnext, hfree]
    exact h.freeChain

theorem Shape.setData (h : Shape s head used free) (v : α) : Shape (s.setData i v) head used free :=
  h.congr (next_setData ..) (prev_setData ..) rfl

/-- A node of its own becomes the only used one. -/
theorem Shape.single (h : Shape s none [] free) (hnext : s.next i = none) (hprev : s.prev i = none)
    (hi : i ∉ free) : Shape s (some i) [i] free := by
  refine ⟨.single hnext hprev, h.freeChain, h.freeNodup, fun j hj => ?_⟩
  obtain rfl := List.mem_singleton.mp hj
  exact hi

/-- A node of its own goes in front of the used ones. -/
theorem Shape.insert {y : Ptr SIZE} (h : Shape s (some y) used free) (hi : i ∉ used)
    (hi' : i ∉ free) :
    ∃ s', s.insert none (some y) i = .ok s' ∧ Shape s' (some i) (i :: used) free ∧
      s'.data = s.data := by
  obtain ⟨s', hrun, hnext, hprev, hdata, hfree⟩ := insert_front s i y
  refine ⟨s', hrun, ⟨?_, ?_, h.freeNodup, fun j hj => ?_⟩, hdata⟩
  · rw [hnext, hprev]
    exact h.linked.push hi
  · rw [hnext, hfree]
    exact chain_update hi' h.freeChain
  · rcases List.mem_cons.mp hj with rfl | hj
    · exact hi'
    · exact h.disjoint j hj

/-- `remove` and `free` move a used node to the front of the free list. -/
theorem Shape.release (h : Shape s head (l ++ x :: r) free) :
    Shape ((s.remove x).free x) (if l = [] then s.next x else head) (l ++ r) (x :: free) ∧
      ((s.remove x).free x).data = s.data := by
  have hmem : x ∈ l ++ x :: r := List.mem_append_right _ (List.mem_cons_self ..)
  have hx : x ∉ l ++ r := (List.nodup_middle.mp h.linked.nodup).notMem
  have hxfree : x ∉ free := h.disjoint x hmem
  have hsub : l ++ r ⊆ l ++ x :: r := ((List.sublist_cons_self x r).append_left l).subset
  have hremoved := h.linked.remove
  -- the free list has no node on the used one
  have hfree : Chain (DoublyLinked.skipNext s.next s.prev x) s.free_head free := by
    refine chain_congr (fun i hi => ?_) h.freeChain
    exact (h.linked.skipNext_of_not_mem
      (fun hil => h.disjoint i (List.mem_append_left _ hil) hi)).symm
  refine ⟨⟨?_, ?_, List.nodup_cons.mpr ⟨hxfree, h.freeNodup⟩, fun i hi hi' => ?_⟩, ?_⟩
  · rw [next_free, prev_free, next_remove, prev_remove]
    refine ⟨chain_update hx hremoved.chain, hremoved.backed, hremoved.nodup⟩
  · rw [next_free, next_remove, free_head_remove]
    exact chain_push hxfree hfree
  · rcases List.mem_cons.mp hi' with rfl | hi'
    · exact hx hi
    · exact h.disjoint i (hsub hi) hi'
  · rw [data_free, data_remove]

/-! ## `new` -/

/-- The node `i` has been handed out: it is on its own, neither used nor free. -/
structure HandedOut (s : Pool α SIZE) (head : Option (Ptr SIZE)) (used free : List (Ptr SIZE))
    (i : Ptr SIZE) : Prop where
  shape : Shape s head used free
  notUsed : i ∉ used
  notFree : i ∉ free
  next_eq : s.next i = none
  prev_eq : s.prev i = none

/-- With two free nodes the first is handed out. -/
theorem Shape.new_run {j : Ptr SIZE} (h : Shape s head used (i :: j :: r)) :
    ∃ s', s.new = .ok (i, s') ∧ HandedOut s' head used (j :: r) i ∧ s'.data = s.data := by
  obtain ⟨hhead, hnext, hrest⟩ := h.freeChain
  have hi : i ∉ used := fun hi => h.disjoint i hi (List.mem_cons_self ..)
  obtain ⟨hi', hnodup⟩ := List.nodup_cons.mp h.freeNodup
  refine ⟨(({ s with free_head := some j } : Pool α SIZE).setNext i none).setPrev i none, ?_,
    ⟨⟨?_, ?_, hnodup, fun k hk hk' => h.disjoint k hk (List.mem_cons_of_mem _ hk')⟩, hi, hi', ?_,
      ?_⟩, ?_⟩
  · rw [new, hhead]
    dsimp only
    rw [hnext]
  · rw [next_setPrev, next_setNext, prev_setPrev, prev_setNext]
    exact ⟨chain_update hi h.linked.chain, backed_update hi h.linked.backed, h.linked.nodup⟩
  · rw [next_setPrev, next_setNext]
    exact chain_update hi' ⟨rfl, hrest⟩
  · rw [next_setPrev, next_setNext, Function.update_self]
  · rw [prev_setPrev, Function.update_self]
  · rw [data_setPrev, data_setNext]
    rfl

/-- The last free node is not handed out. -/
theorem Shape.new_stop (h : Shape s head used [i]) : s.new = .error .poolEmpty := by
  obtain ⟨hhead, hnext⟩ := h.freeChain
  rw [new, hhead]
  dsimp only
  rw [hnext]

/-! ## The unused pool -/

-- the loop leaves the last node as it is
theorem next_thread_of_lt (h : i.val < SIZE) :
    s.thread.next i = some ⟨i.val + 1, Nat.succ_lt_succ h⟩ := by
  simp only [thread, Pool.next]
  rw [dif_pos h]

theorem next_thread_last : s.thread.next (Fin.last SIZE) = s.next (Fin.last SIZE) := by
  simp only [thread, Pool.next]
  rw [dif_neg (show ¬(Fin.last SIZE).val < SIZE from Nat.lt_irrefl SIZE)]

theorem data_thread : s.thread.data = s.data := by
  funext j
  by_cases hj : j.val < SIZE
  · simp only [Pool.thread, Pool.data, dif_pos hj]
  · simp only [Pool.thread, Pool.data, dif_neg hj]

-- the nodes from `k` on, threaded
theorem chain_thread (hlast : s.next (Fin.last SIZE) = none) (n : Nat) : ∀ k (hk : k < SIZE + 1),
    k + n = SIZE → Chain s.thread.next (some ⟨k, hk⟩) ((List.finRange (SIZE + 1)).drop k) := by
  induction n with
  | zero =>
      intro k hk hkn
      have hlen : k < (List.finRange (SIZE + 1)).length := by rw [List.length_finRange]; exact hk
      rw [List.drop_eq_getElem_cons hlen, List.getElem_finRange,
        List.drop_eq_nil_of_le (by rw [List.length_finRange]; omega)]
      obtain rfl : k = SIZE := by omega
      refine ⟨rfl, ?_⟩
      exact next_thread_last.trans hlast
  | succ n ih =>
      intro k hk hkn
      have hlen : k < (List.finRange (SIZE + 1)).length := by rw [List.length_finRange]; exact hk
      rw [List.drop_eq_getElem_cons hlen, List.getElem_finRange]
      refine ⟨rfl, ?_⟩
      show Chain s.thread.next (s.thread.next ⟨k, hk⟩) _
      rw [next_thread_of_lt (show k < SIZE by omega)]
      exact ih (k + 1) (by omega) (by omega)

/-- Threading an unused pool puts all nodes on the free list. -/
theorem Shape.thread (h : Shape s head [] []) (hlast : s.next (Fin.last SIZE) = none) :
    Shape { s.thread with free_head := some 0 } head [] (List.finRange (SIZE + 1)) := by
  have hhead : head = none := h.linked.chain
  subst hhead
  refine ⟨.nil, ?_, List.nodup_finRange _, fun i hi => nomatch hi⟩
  exact chain_thread hlast SIZE 0 (Nat.succ_pos SIZE) (Nat.zero_add SIZE)

/-- `new` threads the pool first if there is no free list. -/
theorem new_eq_thread (h : s.free_head = none) :
    s.new = Pool.new { s.thread with free_head := some 0 } := by
  rw [new, h, new]
  rfl

theorem finRange_cons_cons (hsize : 0 < SIZE) :
    ∃ i j r, List.finRange (SIZE + 1) = i :: j :: r := by
  obtain ⟨n, rfl⟩ := Nat.exists_eq_succ_of_ne_zero (Nat.ne_of_gt hsize)
  exact ⟨_, _, _, by rw [List.finRange_succ, List.finRange_succ, List.map_cons]⟩

/-- The first call of `new` threads the pool and hands out its first node. -/
theorem Shape.new_first (h : Shape s head [] []) (hlast : s.next (Fin.last SIZE) = none)
    (hsize : 0 < SIZE) : ∃ i s' j r, s.new = .ok (i, s') ∧ HandedOut s' head [] (j :: r) i ∧
      s'.data = s.data := by
  obtain ⟨i, j, r, hnodes⟩ := finRange_cons_cons hsize
  have hshape := h.thread hlast
  rw [hnodes] at hshape
  obtain ⟨s', hnew, hout, hdata⟩ := hshape.new_run
  rw [new_eq_thread h.freeChain]
  exact ⟨i, s', j, r, hnew, hout, hdata.trans data_thread⟩

end Shape

end LinkList

end Nemu
