/-
  Nemu.Pal.Map

  `scene/map.c` with the sprites of `global/palcommon.c`: a map is an array of tiles and the
  bitmaps of the tiles, which come out of two archives.
-/

import Nemu.Pal.Mkf

namespace Nemu.Pal

/-- `Tiles[y][x][h]`. -/
structure PALMAP where
  Tiles : Nat → Nat → Nat → BitVec 32
  pTileSprite : List Byte
  iMapNum : BitVec 32

-- a frame is what begins at its offset
def spriteGetFrame (lpSprite : Option (List Byte)) (iFrameNum : Int) :
    Except Fault (Option (List Byte)) :=
  match lpSprite with
  | none => .ok none
  | some sprite => do
      let imagecount ← shortAt sprite 0
      if iFrameNum < 0 ∨ iFrameNum ≥ imagecount.toNat then return none
      let offset ← shortAt sprite (iFrameNum.toNat <<< 1)
      return some (sprite.drop (offset <<< 1).toNat)

section

variable (x y h : Byte) (lpMap : Option PALMAP)

def mapTileIsBlocked : Bool :=
  match lpMap with
  | none => true
  | some map =>
      if x ≥ 64 ∨ y ≥ 128 ∨ h > 1 then true
      else (map.Tiles y.toNat x.toNat h.toNat &&& 0x2000) >>> 13 ≠ 0

def mapGetTileBitmap (ucLayer : Byte) : Except Fault (Option (List Byte)) :=
  match lpMap with
  | none => .ok none
  | some map =>
      if x ≥ 64 ∨ y ≥ 128 ∨ h > 1 then .ok none
      else
        let d := map.Tiles y.toNat x.toNat h.toNat
        if ucLayer = 0 then
          spriteGetFrame (some map.pTileSprite) ((d &&& 0xFF) ||| ((d >>> 4) &&& 0x100)).toNat
        else
          let d := d >>> 16
          spriteGetFrame (some map.pTileSprite) (((d &&& 0xFF) ||| ((d >>> 4) &&& 0x100)).toNat - 1)

end

/-! ## Loading -/

/-- The tiles that 65536 bytes are. -/
def tilesOf (bytes : List Byte) (y x h : Nat) : BitVec 32 :=
  match intAt bytes (4 * ((y * 64 + x) * 2 + h)) with
  | .ok d => d
  | .error _ => 0

/-- What the calls of `malloc` find: the bytes that are there, and for the tree of the
    decompressor whether there is room. -/
structure MapMemory where
  buf : Nat → Option (Nat → Byte)
  map : Option (List Byte)
  tree : Bool
  sprite : Nat → Option (Nat → Byte)

/-- `SWAP32` does nothing. -/
def loadMap (unset : Nat → Unset) (malloc : MapMemory) (iMapNum : BitVec 32)
    (fpMapMKF fpGopMKF : Option FILE) : Except Fault (Option PALMAP × Option FILE × Option FILE) := do
  let (n, fpMapMKF) ← mkfGetChunkCount (unset 0) fpMapMKF
  if iMapNum.toInt ≥ n.toInt then return (none, fpMapMKF, fpGopMKF)
  let (n, fpGopMKF) ← mkfGetChunkCount (unset 1) fpGopMKF
  if iMapNum.toInt ≥ n.toInt ∨ iMapNum.toInt ≤ 0 then return (none, fpMapMKF, fpGopMKF)
  let (size, fpMapMKF) ← mkfGetChunkSize (unset 2) iMapNum fpMapMKF
  match malloc.buf size.toNat, malloc.map with
  | some fresh, some tiles =>
      let buf := (List.range size.toNat).map fresh
      let (len, buf, fpMapMKF) ← mkfReadChunk (unset 3) (some buf) size iMapNum fpMapMKF
      if len.toInt < 0 then return (none, fpMapMKF, fpGopMKF)
      let (len, tiles) ← Decompress malloc.tree buf tiles 65536
      if len.toInt < 0 then return (none, fpMapMKF, fpGopMKF)
      let (size, fpGopMKF) ← mkfGetChunkSize (unset 4) iMapNum fpGopMKF
      if size.toInt ≤ 0 then return (none, fpMapMKF, fpGopMKF)
      match malloc.sprite size.toNat with
      | some fresh =>
          let sprite := (List.range size.toNat).map fresh
          let (len, sprite, fpGopMKF) ← mkfReadChunk (unset 5) (some sprite) size iMapNum fpGopMKF
          if len.toInt < 0 then return (none, fpMapMKF, fpGopMKF)
          return (some { Tiles := tilesOf tiles, pTileSprite := sprite.getD [], iMapNum := iMapNum },
            fpMapMKF, fpGopMKF)
      | none => return (none, fpMapMKF, fpGopMKF)
  | _, _ => return (none, fpMapMKF, fpGopMKF)

end Nemu.Pal
