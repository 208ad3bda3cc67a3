/-
  Nemu.Pal.Walking

  `PAL_CheckObstacle`, `PAL_UpdateParty` and `PAL_UpdatePartyGestures` of `scene/scene.c`: the
  player walks, and the others follow on the trail of the positions before.
-/

import Nemu.Pal.MapView

namespace Nemu.Pal

/-! ## Obstacles -/

/-- What `PAL_CheckObstacle` reads of an event object. -/
structure EVENTOBJECT where
  x : BitVec 16
  y : BitVec 16
  sState : BitVec 16

/-- The map and the event objects of the scene, of which the first has the number `first`. -/
structure Scene where
  map : Option PALMAP
  first : Nat
  objects : List EVENTOBJECT

def kObjStateBlocker : Int := 2

/-- The tile at a position: `x`, `y` and `h`. -/
def tileAt (X Y : Int) : Int × Int × Int :=
  let x := X / 32
  let y := Y / 16
  let xr := X % 32
  let yr := Y % 16
  if xr + yr * 2 ≥ 16 then
    if xr + yr * 2 ≥ 48 then (x + 1, y + 1, 0)
    else if 32 - xr + yr * 2 < 16 then (x + 1, y, 0)
    else if 32 - xr + yr * 2 < 48 then (x, y, 1)
    else (x, y + 1, 0)
  else (x, y, 0)

/-- The positions are not negative, so the divisions round down. -/
def checkObstacle (scene : Scene) (pos : BitVec 32) (fCheckEventObjects : Bool) (wSelfObject : Nat) :
    Bool :=
  let X := palX pos
  let Y := palY pos
  if X < 0 ∨ X ≥ 2048 ∨ Y < 0 ∨ Y ≥ 2048 then true
  else
    let t := tileAt X Y
    if mapTileIsBlocked (BitVec.ofInt 8 t.1) (BitVec.ofInt 8 t.2.1) (BitVec.ofInt 8 t.2.2) scene.map then
      true
    else fCheckEventObjects && (scene.objects.zipIdx scene.first).any fun (p, i) =>
      (i : Int) ≠ wSelfObject - 1 ∧ p.sState.toInt ≥ kObjStateBlocker ∧
        (p.x.toNat - X).natAbs + (p.y.toNat - Y).natAbs * 2 < 16

/-! ## The party -/

inductive Dir where
  | south
  | west
  | north
  | east
  | unknown
deriving DecidableEq, Repr

-- the numbers in the fields `wDirection`
def Dir.code : Dir → BitVec 16
  | south => 0
  | west => 1
  | north => 2
  | east => 3
  | unknown => 4

structure PARTY where
  wPlayerRole : BitVec 16
  x : BitVec 16
  y : BitVec 16
  wFrame : BitVec 16

structure TRAIL where
  x : BitVec 16
  y : BitVec 16
  wDirection : BitVec 16

/-- The fields of `gpGlobals` that belong to the party, and `s_iThisStepFrame`. -/
structure Party where
  viewport : BitVec 32
  partyoffset : BitVec 32
  wMaxPartyMemberIndex : Nat
  rgParty : Nat → PARTY
  rgTrail : Nat → TRAIL
  wPartyDirection : BitVec 16
  nFollower : Nat
  rgwWalkFrames : Nat → BitVec 16
  iThisStepFrame : BitVec 32

section

variable (scene : Scene)

def Party.modify (g : Party) (i : Nat) (f : PARTY → PARTY) : Party :=
  { g with rgParty := Function.update g.rgParty i (f (g.rgParty i)) }

/-- The frame of a member that walks: of four frames, or of three. -/
def Party.walkFrame (g : Party) (i : Nat) (wDirection : BitVec 16) (iStepFrame : BitVec 32) : BitVec 16 :=
  if g.rgwWalkFrames (g.rgParty i).wPlayerRole.toNat = 4 then
    wDirection * 4 + g.iThisStepFrame.setWidth 16
  else wDirection * 3 + iStepFrame.setWidth 16

/-- The frame of a member that stands. -/
def Party.standFrame (g : Party) (i : Nat) (wDirection : BitVec 16) : BitVec 16 :=
  let f := g.rgwWalkFrames (g.rgParty i).wPlayerRole.toNat
  wDirection * if f = 0 then 3 else f

-- a point of the map on the screen
def Party.onScreen (g : Party) (t : TRAIL) : BitVec 16 × BitVec 16 :=
  (BitVec.ofInt 16 (t.x.toNat - palX g.viewport), BitVec.ofInt 16 (t.y.toNat - palY g.viewport))

/-- Beside the trail: where member `i` goes if nothing is there. -/
def aside (i : Nat) (wDirection : BitVec 16) (x y : BitVec 16) : BitVec 16 × BitVec 16 :=
  if i = 2 then
    (x + (if wDirection = Dir.east.code ∨ wDirection = Dir.west.code then -16 else 16), y + 8)
  else
    (x + (if wDirection = Dir.west.code ∨ wDirection = Dir.south.code then 16 else -16),
      y + (if wDirection = Dir.west.code ∨ wDirection = Dir.north.code then 8 else -8))

/-- The body of the loop over the members behind the first. -/
def Party.placeMember (g : Party) (iStepFrameLeader : BitVec 32) (i : Nat) : Party :=
  let base := g.onScreen (g.rgTrail 1)
  let side := aside i (g.rgTrail 1).wDirection base.1 base.2
  let at' :=
    if checkObstacle scene
        (palXY (side.1.toInt + palX g.viewport) (side.2.toInt + palY g.viewport)) true 0 then base
    else side
  g.modify i fun p =>
    { p with
      x := at'.1
      y := at'.2
      wFrame := g.walkFrame i (g.rgTrail 2).wDirection iStepFrameLeader }

/-- `for (i = 1; i <= wMaxPartyMemberIndex; i++)` with `n` turns left. -/
def Party.placeMembers (iStepFrameLeader : BitVec 32) : Nat → Nat → Party → Party
  | 0, _, g => g
  | n + 1, i, g => placeMembers iStepFrameLeader n (i + 1) (g.placeMember scene iStepFrameLeader i)

def Party.standMembers : Nat → Nat → Party → Party
  | 0, _, g => g
  | n + 1, i, g => standMembers n (i + 1) (g.modify i fun p =>
      { p with wFrame := g.standFrame i (g.rgTrail 2).wDirection })

def Party.updateGestures (fWalking : Bool) (g : Party) : Party :=
  let last := g.wMaxPartyMemberIndex
  if fWalking then
    let step := (g.iThisStepFrame + 1) % 4
    let iStepFrameLeader := if step &&& 1 ≠ 0 then (step + 1) / 2 else 0
    let iStepFrameFollower := if step &&& 1 ≠ 0 then 3 - iStepFrameLeader else 0
    let g := { g with iThisStepFrame := step }
    let g := g.modify 0 fun p =>
      { p with
        x := BitVec.ofInt 16 (palX g.partyoffset)
        y := BitVec.ofInt 16 (palY g.partyoffset)
        wFrame := g.walkFrame 0 g.wPartyDirection iStepFrameLeader }
    let g := placeMembers scene iStepFrameLeader last 1 g
    if g.nFollower > 0 then
      let at' := g.onScreen (g.rgTrail 3)
      g.modify (last + 1) fun p =>
        { p with
          x := at'.1
          y := at'.2
          wFrame := (g.rgTrail 3).wDirection * 3 + iStepFrameFollower.setWidth 16 }
    else g
  else
    let g := g.modify 0 fun p => { p with wFrame := g.standFrame 0 g.wPartyDirection }
    let g := standMembers last 1 g
    let g :=
      if g.nFollower > 0 then
        g.modify (last + 1) fun p => { p with wFrame := (g.rgTrail 3).wDirection * 3 }
      else g
    { g with iThisStepFrame := (g.iThisStepFrame &&& 2) ^^^ 2 }

def xOffset (dir : Dir) : Int := if dir = .west ∨ dir = .south then -16 else 16

def yOffset (dir : Dir) : Int := if dir = .west ∨ dir = .north then -8 else 8

def Party.update (dir : Dir) (g : Party) : Party :=
  if dir ≠ .unknown then
    let xSource := palX g.viewport + palX g.partyoffset
    let ySource := palY g.viewport + palY g.partyoffset
    let g := { g with wPartyDirection := dir.code }
    if ¬checkObstacle scene (palXY (xSource + xOffset dir) (ySource + yOffset dir)) true 0 then
      updateGestures scene true { g with
        -- five entries
        rgTrail := fun i =>
          if i = 0 then
            { x := BitVec.ofInt 16 xSource, y := BitVec.ofInt 16 ySource, wDirection := dir.code }
          else if i < 5 then g.rgTrail (i - 1)
          else g.rgTrail i
        viewport := palXY (palX g.viewport + xOffset dir) (palY g.viewport + yOffset dir) }
    else updateGestures scene false g
  else updateGestures scene false g

end

end Nemu.Pal
