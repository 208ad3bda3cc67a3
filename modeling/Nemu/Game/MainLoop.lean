/-
  Nemu.Game.MainLoop

  `game.c` of the typing game statement by statement, with the timer and the keyboard
  interrupting it wherever interrupts are on.

  A call of `create_new_letter`, `update_letter_pos` or `redraw_screen` is one statement: what
  the handlers write, `tick`, `key_code` and the flags of the keys, the first one touches in a
  single assignment, the second not at all and the third in a single read.  `update_keypress`
  turns interrupts off before it looks at the keys.
-/

import Nemu.Game.Screen

namespace Nemu

namespace Typing

def HZ : Nat := 100

def FPS : Nat := 30

def CHARACTER_PER_SECOND : Nat := 3

def UPDATE_PER_SECOND : Nat := 100

/-- The statement of `main_loop` to be executed next. -/
inductive LoopStmt where
  /-- `wait_intr()` -/
  | waitIntr
  /-- In the `hlt` of `wait_intr`, until an interrupt comes. -/
  | halted
  /-- `cli()` -/
  | cli
  /-- `if (now == tick) { sti(); continue; }` -/
  | nowTest
  /-- `assert(now < tick); target = tick` -/
  | catchUp
  /-- `sti(); redraw = false` -/
  | sti
  /-- `while (update_keypress())` -/
  | keypress
  /-- `while (now < target)` -/
  | whileTest
  /-- `if (now % (HZ / CHARACTER_PER_SECOND) == 0) create_new_letter()` -/
  | create
  /-- `if (now % (HZ / UPDATE_PER_SECOND) == 0) update_letter_pos()` -/
  | update
  /-- `if (now % (HZ / FPS) == 0) redraw = true` -/
  | redraw
  /-- `if (now % (HZ / 2) == 0) { ... }` -/
  | fps
  /-- `now ++` -/
  | inc
  /-- `if (redraw) { num_draw ++; redraw_screen(); }` -/
  | draw
deriving DecidableEq, Repr

/-- The program: the static variables of its files, the video memory, the interrupt flag, and the
    local variables of `main_loop`. -/
structure Loop where
  game : State
  key_code : Int
  tick : BitVec 32
  real_fps : Int
  video : VBuf
  intr : Bool
  pc : LoopStmt
  now : BitVec 32
  target : BitVec 32
  num_draw : Nat
  redraw : Bool

/-- What happens next: an interrupt, or a statement with the values that `rand` gives it. -/
inductive LoopEvent where
  | timer
  | key (scan_code : Byte)
  | stmt (rand₁ rand₂ rand₃ : Nat)
deriving DecidableEq, Repr

namespace Loop

/-- Where `main_loop` starts; `target` and `redraw` have no value yet. -/
def start : Loop where
  game := .init
  key_code := 0
  tick := 0
  real_fps := 0
  video := fun _ => 0
  intr := true
  pc := .waitIntr
  now := 0
  target := 0
  num_draw := 0
  redraw := false

-- `now % n == 0`, on an `int`
def every (l : Loop) (n : Nat) : Bool := l.now.toInt.tmod n == 0

-- an interrupt ends the `hlt`
def wake (l : Loop) : Loop := if l.pc = .halted then { l with pc := .cli } else l

/-- `timer_event`. -/
def timerEvent (l : Loop) : Loop := { l with tick := l.tick + 1 }

/-- `keyboard_event`, with the byte that it reads from port `0x60`. -/
def keyboardEvent (scan_code : Byte) (l : Loop) : Loop :=
  { l with key_code := scan_code.toNat, game := pressKey scan_code.toNat l.game }

/-- The statistics of the frames. -/
def setFps (l : Loop) : Loop :=
  let now_fps : Int := l.num_draw * 2 + 1
  let now_fps := if now_fps > FPS then (FPS : Int) else now_fps
  { l with real_fps := now_fps, num_draw := 0 }

section Font

variable (font8x8_basic : Nat → Nat → Byte)

/-- Execute one statement. -/
def exec (rand₁ rand₂ rand₃ : Nat) (l : Loop) : Except GameStop Loop :=
  match l.pc with
  | .waitIntr => .ok { l with pc := .halted }
  | .halted => .ok l
  | .cli => .ok { l with intr := false, pc := .nowTest }
  | .nowTest =>
      if l.now = l.tick then .ok { l with intr := true, pc := .waitIntr }
      else .ok { l with pc := .catchUp }
  | .catchUp =>
      -- `now` is always below `tick`, so we have to catch up
      if l.now.slt l.tick then .ok { l with target := l.tick, pc := .sti }
      else .error .assertion
  | .sti => .ok { l with intr := true, redraw := false, pc := .keypress }
  | .keypress => do
      let (found, game) ← updateKeypress l.game
      -- it returns `true` with interrupts still off
      if found then return { l with game := game, intr := false }
      else return { l with game := game, intr := true, pc := .whileTest }
  | .whileTest =>
      if l.now.slt l.target then .ok { l with pc := .create } else .ok { l with pc := .draw }
  | .create => do
      let game ← if l.every (HZ / CHARACTER_PER_SECOND) then createNewLetter rand₁ rand₂ rand₃ l.game
        else pure l.game
      return { l with game := game, pc := .update }
  | .update => do
      let game ← if l.every (HZ / UPDATE_PER_SECOND) then updateLetterPos l.game else pure l.game
      return { l with game := game, pc := .redraw }
  | .redraw => .ok { l with redraw := l.redraw || l.every (HZ / FPS), pc := .fps }
  | .fps => .ok { (if l.every (HZ / 2) then l.setFps else l) with pc := .inc }
  | .inc => .ok { l with now := l.now + 1, pc := .whileTest }
  | .draw =>
      if l.redraw then do
        let video ← redrawScreen font8x8_basic l.game l.key_code l.real_fps
        return { l with num_draw := l.num_draw + 1, video := video, pc := .waitIntr }
      else .ok { l with pc := .waitIntr }

/-- One event; an interrupt that comes while interrupts are off has to wait. -/
def step (l : Loop) : LoopEvent → Except GameStop (Unit × Loop)
  | .timer => if l.intr then .ok ((), l.timerEvent.wake) else .ok ((), l)
  | .key scan_code => if l.intr then .ok ((), (l.keyboardEvent scan_code).wake) else .ok ((), l)
  | .stmt rand₁ rand₂ rand₃ => do
      let l ← l.exec font8x8_basic rand₁ rand₂ rand₃
      return ((), l)

def run (l : Loop) (es : List LoopEvent) : Except GameStop Loop := do
  let (_, l) ← DetSystem.run (step font8x8_basic) l es
  return l

end Font

end Loop

-- the timer interrupts of a run
def timers (es : List LoopEvent) : Nat := es.count .timer

end Typing

end Nemu
