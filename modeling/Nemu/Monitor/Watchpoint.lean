/-
  Nemu.Monitor.Watchpoint

  `monitor/debug/watchpoint.c`: the pool of watchpoints with its two lists, the
  active one from `head` and the free one from `free_`.  A pointer to a pool entry is
  its index; strings are lists of characters.
-/

import Nemu.Common
import Nemu.Lib.LinkedList
import Nemu.Lib.DetSystem

namespace Nemu

open LinkedList Outcome

-- `NR_WP`
def NR_WP : Nat := 32

abbrev WpIdx := Fin NR_WP

/-- `WP`. -/
structure WP where
  NO : Int
  next : Option WpIdx
  expr_watching : Option (List Char)
  value_watching : BitVec 32

/-- The static variables of `watchpoint.c`. -/
structure WpPool where
  wp_pool : WpIdx → WP
  head : Option WpIdx
  free_ : Option WpIdx

namespace WpPool

-- the `next` fields, and an assignment to one of them
def next (s : WpPool) (i : WpIdx) : Option WpIdx := (s.wp_pool i).next

def modify (s : WpPool) (i : WpIdx) (f : WP → WP) : WpPool :=
  { s with wp_pool := Function.update s.wp_pool i (f (s.wp_pool i)) }

def setNext (s : WpPool) (i : WpIdx) (p : Option WpIdx) : WpPool :=
  s.modify i fun wp => { wp with next := p }

/-- A loop that follows `next` until `stop` holds or the list ends.  The lists are
    no longer than the pool, which bounds it on every pool that the operations build. -/
def follow (s : WpPool) (stop : WpIdx → Bool) (p : Option WpIdx) :
    Except Abort (Option WpIdx) :=
  match walk s.next stop NR_WP p with
  | some r => .ok r
  | none => .error .outOfFuel

end WpPool

open WpPool

-- `p->...` for a pointer that may be null
def deref (p : Option WpIdx) : Except Abort WpIdx :=
  match p with
  | some i => .ok i
  | none => .error .nullPointer

/-- `init_wp_pool`, on the zero-initialised pool. -/
def initWpPool : WpPool :=
  { wp_pool := fun i =>
      { NO := i.val
        next := if h : i.val + 1 < NR_WP then some ⟨i.val + 1, h⟩ else none
        expr_watching := none
        value_watching := 0 }
    head := none
    free_ := some ⟨0, by decide⟩ }

/-- `new_wp`. -/
def newWp (s : WpPool) : Except Abort (WpIdx × WpPool) := do
  let tmp1 ← deref s.free_
  let s := { s with free_ := s.next tmp1 }
  let s := s.setNext tmp1 none
  match s.head with
  | none => return (tmp1, { s with head := some tmp1 })
  | some h =>
      let last ← s.follow (fun i => (s.next i).isNone) (some h)
      let tmp2 ← deref last
      return (tmp1, s.setNext tmp2 (some tmp1))

-- the removal of `wp` from the active list at the start of `free_wp`
def unlink (i : WpIdx) (s : WpPool) : Except Abort WpPool :=
  if some i = s.head then
    return { s with head := s.next i }
  else do
    let pred ← s.follow (fun j => s.next j == some i) s.head
    let temp ← deref pred
    let succ ← deref (s.next temp)
    return s.setNext temp (s.next succ)

/-- `free_wp`. -/
def freeWp (wp : Option WpIdx) (s : WpPool) : Except Abort WpPool := do
  cAssert wp.isSome
  let i ← deref wp
  let s ← unlink i s
  let s := { s.setNext i s.free_ with free_ := some i }
  let s := s.modify i fun w => { w with value_watching := 0 }
  -- `wp->expr_watching[0] = '\0'`
  match (s.wp_pool i).expr_watching with
  | none => .error .nullPointer
  | some _ => return s.modify i fun w => { w with expr_watching := some [] }

/-- `delete_wp`: the node and the value of `*key`. -/
def deleteWp (p : Int) (key : Bool) (s : WpPool) : Except Abort (Option WpIdx × Bool) := do
  let tmp ← s.follow (fun i => (s.wp_pool i).NO == p) s.head
  return (tmp, if tmp.isNone then false else key)

/-- `set_watchpoint` once `expr` has returned `val`. -/
def setWatchpoint (args : List Char) (val : BitVec 32) (s : WpPool) :
    Except Abort (WpIdx × WpPool) := do
  let (tmp, s) ← newWp s
  let s := s.modify tmp fun w => { w with expr_watching := some args }
  return (tmp, s.modify tmp fun w => { w with value_watching := val })

/-- `cmd_d` with the number it has read. -/
def cmdD (num_d : Int) (s : WpPool) : Except Abort WpPool := do
  let (addr_d, key) ← deleteWp num_d true s
  if key then freeWp addr_d s else return s

/-! ## Operations of the debugger -/

/-- What `cmd_w` and `cmd_d` do to the pool. -/
inductive WpOp where
  | set (args : List Char) (val : BitVec 32)
  | delete (num : Int)
deriving DecidableEq, Repr

def WpPool.step (s : WpPool) : WpOp → Except Abort (Unit × WpPool)
  | .set args val => do
      let (_, s) ← setWatchpoint args val s
      return ((), s)
  | .delete num => do
      let s ← cmdD num s
      return ((), s)

end Nemu
