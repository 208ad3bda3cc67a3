/-
  Nemu.Game.Typing

  The typing game: `game/src/typing/effect.c` and `keyboard.c`.

  The values of `rand` are inputs of `create_new_letter`.  The counters, `int`s in C, are
  numbers: together they are at most the letters created, which are to be fewer than `2 ^ 31`.
  Key events come from an interrupt; `update_keypress` runs with interrupts off, and the other
  two functions read no key.
-/

import Nemu.Game.LinkList
import Nemu.Lib.DetSystem

namespace Nemu

open LinkList

namespace Typing

-- `device/video.h`
def SCR_WIDTH : Nat := 320

def SCR_HEIGHT : Nat := 200

-- `LINKLIST_IMPL(fly, 1000)`
def FLY_SIZE : Nat := 1000

/-- The data of `fly_t`. -/
structure Letter where
  x : FLOAT
  y : Int
  text : Int
  v : FLOAT
deriving DecidableEq, Repr

abbrev FlyPtr := Ptr FLY_SIZE

/-- The static variables of `effect.c`, its pool and `letter_pressed`. -/
structure State where
  fly : Pool Letter FLY_SIZE
  head : Option FlyPtr
  hit : Nat
  miss : Nat
  letter_pressed : Fin 26 → Bool

def State.init : State :=
  { fly := .init { x := 0, y := 0, text := 0, v := 0 }
    head := none
    hit := 0
    miss := 0
    letter_pressed := fun _ => false }

-- a step of the fixed-point arithmetic
def float {β : Type} : Except FloatFault β → Except GameStop β
  | .ok b => .ok b
  | .error fault => .error (.float fault)

/-! ## `keyboard.c` -/

def letter_code : List Int :=
  [30, 48, 46, 32, 18, 33, 34, 35, 23, 36,
   37, 38, 50, 49, 24, 25, 16, 19, 31, 20,
   22, 47, 17, 45, 21, 44]

def pressKey (scan_code : Int) (s : State) : State :=
  { s with letter_pressed := fun i =>
      if letter_code.getD i.val 0 = scan_code then true else s.letter_pressed i }

-- `assert(0 <= index && index < 26)`
def keyIndex (index : Int) : Except GameStop (Fin 26) :=
  if h : 0 ≤ index ∧ index < 26 then .ok ⟨index.toNat, by omega⟩ else .error .assertion

def releaseKey (index : Int) (s : State) : Except GameStop State := do
  let i ← keyIndex index
  return { s with letter_pressed := Function.update s.letter_pressed i false }

def queryKey (index : Int) (s : State) : Except GameStop Bool := do
  let i ← keyIndex index
  return s.letter_pressed i

/-! ## `effect.c` -/

/-- `F_div_F(int2F(rand() % 1000), int2F(2000)) + f2F(0.5)` -/
def fallSpeed (rand : Nat) : Except FloatFault FLOAT := do
  let q ← FLOAT.fDivF (FLOAT.int2F (BitVec.ofNat 32 (rand % 1000))) (FLOAT.int2F 2000)
  let half ← FLOAT.f2F 0x3f000000
  FLOAT.addInt q half

/-- `create_new_letter`, with the values of its three calls of `rand`. -/
def createNewLetter (rand₁ rand₂ rand₃ : Nat) (s : State) : Except GameStop State := do
  let (now, fly) ← s.fly.new
  let s := { s with fly := fly }
  let s ← match s.head with
    -- no letter yet
    | none => pure { s with head := some now }
    | some head => do
        let fly ← s.fly.insert none (some head) now
        pure { s with fly := fly, head := some now }
  -- `head` is `now` from here on
  let v ← float (fallSpeed rand₂)
  let letter : Letter :=
    { x := 0
      y := rand₁ % (SCR_WIDTH / 8 - 2) * 8 + 8
      v := v
      text := (rand₃ % 26 : Nat) }
  let s := { s with fly := s.fly.setData now letter }
  releaseKey letter.text s

/-- `it->x < 0 || it->x + f2F(7.9) > int2F(SCR_HEIGHT)` -/
def offScreen (x : FLOAT) : Except FloatFault Bool := do
  if x.toInt < 0 then return true
  else
    let size ← FLOAT.f2F 0x40fccccd
    let bottom ← FLOAT.addInt x size
    return decide ((FLOAT.int2F (BitVec.ofNat 32 SCR_HEIGHT)).toInt < bottom.toInt)

/-- The loop of `update_letter_pos` from `it` on, over at most `fuel` letters. -/
def updateLoop : Nat → Option FlyPtr → State → Except GameStop State
  | _, none, s => .ok s
  | 0, some _, _ => .error .outOfFuel
  | fuel + 1, some it, s => do
      let next := s.fly.next it
      let letter := s.fly.data it
      let x ← float (FLOAT.addInt letter.x letter.v)
      let s := { s with fly := s.fly.setData it { letter with x := x } }
      let off ← float (offScreen x)
      if off then
        -- out at the top it has been hit
        let s := if x.toInt < 0 then { s with hit := s.hit + 1 } else { s with miss := s.miss + 1 }
        let s := { s with fly := (s.fly.remove it).free it }
        let s := if some it = s.head then { s with head := next } else s
        updateLoop fuel next s
      else updateLoop fuel next s

/-- `update_letter_pos`. -/
def updateLetterPos (s : State) : Except GameStop State := updateLoop (FLY_SIZE + 1) s.head s

/-- The search of `update_keypress`: the lowest falling letter whose key is pressed. -/
def keyLoop : Nat → Option FlyPtr → FLOAT → Option FlyPtr → State →
    Except GameStop (Option FlyPtr)
  | _, none, _, target, _ => .ok target
  | 0, some _, _, _, _ => .error .outOfFuel
  | fuel + 1, some it, min, target, s => do
      let letter := s.fly.data it
      let _ ← keyIndex letter.text
      let found ← if 0 < letter.v.toInt ∧ min.toInt < letter.x.toInt then queryKey letter.text s
        else pure false
      if found then keyLoop fuel (s.fly.next it) letter.x (some it) s
      else keyLoop fuel (s.fly.next it) min target s

/-- `update_keypress`. -/
def updateKeypress (s : State) : Except GameStop (Bool × State) := do
  let min ← float (FLOAT.negInt (FLOAT.int2F 100))
  let target ← keyLoop (FLY_SIZE + 1) s.head min none s
  match target with
  | some target => do
      let letter := s.fly.data target
      let s ← releaseKey letter.text s
      let v ← float (FLOAT.negInt (FLOAT.int2F 3))
      return (true, { s with fly := s.fly.setData target { letter with v := v } })
  | none => return (false, s)

/-! ## Runs -/

/-- What happens to the game: the three calls and a key event. -/
inductive Op where
  | create (rand₁ rand₂ rand₃ : Nat)
  | update
  | keypress
  | key (scan_code : Int)
deriving DecidableEq, Repr

def step (s : State) : Op → Except GameStop (Unit × State)
  | .create rand₁ rand₂ rand₃ => do
      let s ← createNewLetter rand₁ rand₂ rand₃ s
      return ((), s)
  | .update => do
      let s ← updateLetterPos s
      return ((), s)
  | .keypress => do
      let (_, s) ← updateKeypress s
      return ((), s)
  | .key scan_code => .ok ((), pressKey scan_code s)

/-- A run from the start of the game. -/
def run (ops : List Op) : Except GameStop State := do
  let (_, s) ← DetSystem.run step .init ops
  return s

/-- The number of letters that a run creates. -/
def created (ops : List Op) : Nat :=
  ops.countP fun op => match op with
    | .create .. => true
    | _ => false

end Typing

end Nemu
