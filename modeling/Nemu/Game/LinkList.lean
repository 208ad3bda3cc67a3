/-
  Nemu.Game.LinkList

  `game/include/adt/linklist.h`: the lists that `LINKLIST_IMPL(NAME, SIZE)` makes, with the
  data `α` of the nodes as a parameter.

  A pointer to a node is its index in the pool.  The pool has one node more than `SIZE`,
  and `new` fills in the free list when it finds none.
-/

import Mathlib.Logic.Function.Basic
import Nemu.LibCommon.Float

namespace Nemu

/-- Why the game does not go on. -/
inductive GameStop where
  /-- `assert(free_head->_next != NULL)` in `new`. -/
  | poolEmpty
  /-- Another assertion. -/
  | assertion
  /-- A fault of the fixed-point arithmetic. -/
  | float (fault : FloatFault)
  /-- The bound that the model gives to a loop was reached. -/
  | outOfFuel
deriving DecidableEq, Repr

namespace LinkList

variable {α : Type _} {SIZE : Nat}

abbrev Ptr (SIZE : Nat) := Fin (SIZE + 1)

/-- `struct NAME_t`, with `_prev` and `_next`. -/
structure Node (α : Type _) (SIZE : Nat) where
  data : α
  prev : Option (Ptr SIZE)
  next : Option (Ptr SIZE)

/-- `NAME_pool` and `NAME_free_head`. -/
structure Pool (α : Type _) (SIZE : Nat) where
  pool : Ptr SIZE → Node α SIZE
  free_head : Option (Ptr SIZE)

namespace Pool

-- the fields of all nodes
def data (s : Pool α SIZE) (i : Ptr SIZE) : α := (s.pool i).data

def prev (s : Pool α SIZE) (i : Ptr SIZE) : Option (Ptr SIZE) := (s.pool i).prev

def next (s : Pool α SIZE) (i : Ptr SIZE) : Option (Ptr SIZE) := (s.pool i).next

-- and assignments to one of them
def modify (s : Pool α SIZE) (i : Ptr SIZE) (f : Node α SIZE → Node α SIZE) : Pool α SIZE :=
  { s with pool := Function.update s.pool i (f (s.pool i)) }

def setData (s : Pool α SIZE) (i : Ptr SIZE) (v : α) : Pool α SIZE :=
  s.modify i fun node => { node with data := v }

def setPrev (s : Pool α SIZE) (i : Ptr SIZE) (p : Option (Ptr SIZE)) : Pool α SIZE :=
  s.modify i fun node => { node with prev := p }

def setNext (s : Pool α SIZE) (i : Ptr SIZE) (p : Option (Ptr SIZE)) : Pool α SIZE :=
  s.modify i fun node => { node with next := p }

/-- The pool in the zero-initialised memory of the program. -/
def init (zero : α) : Pool α SIZE :=
  { pool := fun _ => { data := zero, prev := none, next := none }, free_head := none }

/-- The loop in `new`: `pool[i - 1]._next = pool + i`. -/
def thread (s : Pool α SIZE) : Pool α SIZE :=
  { s with pool := fun i =>
      if h : i.val < SIZE then { s.pool i with next := some ⟨i.val + 1, Nat.succ_lt_succ h⟩ }
      else s.pool i }

/-- `NAME_new`. -/
def new (s : Pool α SIZE) : Except GameStop (Ptr SIZE × Pool α SIZE) :=
  let (free_head, s) := match s.free_head with
    | some i => (i, s)
    | none => (0, s.thread)
  match s.next free_head with
  | none => .error .poolEmpty
  | some i =>
      let ret := free_head
      let s := { s with free_head := some i }
      .ok (ret, (s.setNext ret none).setPrev ret none)

/-- `NAME_insert`. -/
def insert (prev next : Option (Ptr SIZE)) (obj : Ptr SIZE) (s : Pool α SIZE) :
    Except GameStop (Pool α SIZE) :=
  if prev ≠ none ∨ next ≠ none then
    let s := s.setPrev obj prev
    let s := s.setNext obj next
    let s := match prev with
      | some p => s.setNext p (some obj)
      | none => s
    .ok (match next with
      | some n => s.setPrev n (some obj)
      | none => s)
  else .error .assertion

/-- `NAME_remove`. -/
def remove (node : Ptr SIZE) (s : Pool α SIZE) : Pool α SIZE :=
  let prev := s.prev node
  let next := s.next node
  let s := match prev with
    | some p => s.setNext p next
    | none => s
  match next with
  | some n => s.setPrev n prev
  | none => s

/-- `NAME_free`. -/
def free (node : Ptr SIZE) (s : Pool α SIZE) : Pool α SIZE :=
  { s.setNext node s.free_head with free_head := some node }

end Pool

end LinkList

end Nemu
