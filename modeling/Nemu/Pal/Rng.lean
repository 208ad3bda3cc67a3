/-
  Nemu.Pal.Rng

  `PAL_RNGReadFrame`, `PAL_RNGBlitToSurface` and `PAL_RNGPlay` of `misc/rngplay.c`: an
  animation is an archive of frames inside an archive, and a frame is a compressed program
  of what changes on the surface.  Palettes, delays and events are left out.
-/

import Nemu.Pal.Mkf
import Nemu.Pal.Video

namespace Nemu.Pal

/-- The result, `lpBuffer` and the stream. -/
def rngReadFrame (unset : Unset) (lpBuffer : Option (List Byte))
    (uiBufferSize uiRngNum uiFrameNum : BitVec 32) (fpRngMKF : Option FILE) :
    Except Fault (BitVec 32 × Option (List Byte) × Option FILE) :=
  match lpBuffer, fpRngMKF with
  | some buf, some file => do
      if uiBufferSize = 0 then return (-1, some buf, some file)
      let (uiChunkCount, fp) ← mkfGetChunkCount unset (some file)
      match fp with
      | none => return (-1, some buf, none)
      | some fp =>
          if uiRngNum ≥ uiChunkCount then return (-1, some buf, some fp)
          let (uiOffset, fp) ← readInt (fp.seek (4 * uiRngNum)) 0
          let (uiNextOffset, fp) ← readInt fp 0
          if uiNextOffset - uiOffset = 0 then return (-1, some buf, some fp)
          let (uiChunkCount, fp) ← readInt (fp.seek uiOffset) uiChunkCount
          if uiFrameNum ≥ (uiChunkCount - 4) / 4 then return (-1, some buf, some fp)
          let (uiSubOffset, fp) ← readInt (fp.seek (uiOffset + 4 * uiFrameNum)) 0
          let (uiNextOffset, fp) ← readInt fp uiNextOffset
          let iChunkLen := uiNextOffset - uiSubOffset
          if iChunkLen > uiBufferSize then return (-2, some buf, some fp)
          if iChunkLen ≠ 0 then
            let (buf, fp) ← (fp.seek (uiOffset + uiSubOffset)).read buf iChunkLen.toNat
            return (iChunkLen, some buf, some fp)
          else
            return (-1, some buf, some fp)
  | _, _ => .ok (-1, lpBuffer, fpRngMKF)

/-! ## Drawing a frame -/

/-- Where the loop of `PAL_RNGBlitToSurface` stands, and the pixels. -/
structure Drawing where
  ptr : Nat
  dst_ptr : Nat
  pixels : Nat → Byte

section

variable (rng : List Byte) (surface : Surface)

-- two pixels from `dst_ptr` on
def putPair (a b : Byte) (dst_ptr : Nat) (pixels : Nat → Byte) : Except Fault (Nat → Byte) := do
  let x := dst_ptr % 320
  let y := dst_ptr / 320
  let pixels ← putPixel surface x y a pixels
  if x + 1 ≥ 320 then putPixel surface 0 (y + 1) b pixels
  else putPixel surface (x + 1) y b pixels

/-- `n` times two pixels out of `rng`, one after the other. -/
def copyPairs : Nat → Drawing → Except Fault Drawing
  | 0, d => .ok d
  | n + 1, d => do
      let a ← byteAt rng d.ptr
      let b ← byteAt rng (d.ptr + 1)
      let pixels ← putPair surface a b d.dst_ptr d.pixels
      copyPairs n { ptr := d.ptr + 2, dst_ptr := d.dst_ptr + 2, pixels := pixels }

/-- `n` times the same two. -/
def repeatPair : Nat → Drawing → Except Fault Drawing
  | 0, d => .ok d
  | n + 1, d => do
      let a ← byteAt rng d.ptr
      let b ← byteAt rng (d.ptr + 1)
      let pixels ← putPair surface a b d.dst_ptr d.pixels
      repeatPair n { d with dst_ptr := d.dst_ptr + 2, pixels := pixels }

-- behind the loops over one pair, `ptr += 2`
def repeatPair' (n : Nat) (d : Drawing) : Except Fault Drawing := do
  let d ← repeatPair rng surface n d
  return { d with ptr := d.ptr + 2 }

/-- One turn of `while (TRUE)`; `none` after `goto end`. The cases 0x0a to 0x06 fall through. -/
def frameStep (d : Drawing) : Except Fault (Option Drawing × (Nat → Byte)) := do
  let data ← byteAt rng d.ptr
  let d := { d with ptr := d.ptr + 1 }
  let next (d : Drawing) : Option Drawing × (Nat → Byte) := (some d, d.pixels)
  match data.toNat with
  | 0x00 | 0x13 => return (none, d.pixels)
  | 0x02 => return next { d with dst_ptr := d.dst_ptr + 2 }
  | 0x03 => do
      let data ← byteAt rng d.ptr
      return next { d with ptr := d.ptr + 1, dst_ptr := d.dst_ptr + (data.toNat + 1) * 2 }
  | 0x04 => do
      let wdata ← shortAt rng d.ptr
      return next { d with ptr := d.ptr + 2, dst_ptr := d.dst_ptr + (wdata.toNat + 1) * 2 }
  | 0x06 | 0x07 | 0x08 | 0x09 | 0x0a => return next (← copyPairs rng surface (data.toNat - 0x05) d)
  | 0x0b => do
      let data ← byteAt rng d.ptr
      return next (← copyPairs rng surface (data.toNat + 1) { d with ptr := d.ptr + 1 })
  | 0x0c => do
      let wdata ← shortAt rng d.ptr
      return next (← copyPairs rng surface (wdata.toNat + 1) { d with ptr := d.ptr + 2 })
  | 0x0d | 0x0e | 0x0f | 0x10 =>
      return next (← repeatPair' rng surface (data.toNat - (0x0d - 2)) d)
  | 0x11 => do
      let data ← byteAt rng d.ptr
      return next (← repeatPair' rng surface (data.toNat + 1) { d with ptr := d.ptr + 1 })
  | 0x12 => do
      let n ← shortAt rng d.ptr
      return next (← repeatPair' rng surface (n.toNat + 1) { d with ptr := d.ptr + 2 })
  | _ => return next d

/-- `while (TRUE)`. Every turn takes a byte of `rng`. -/
def frameLoop : Nat → Drawing → Except Fault (Nat → Byte)
  | 0, _ => .error .outOfFuel
  | fuel + 1, d => do
      let (d, pixels) ← frameStep rng surface d
      match d with
      | none => return pixels
      | some d => frameLoop fuel d

end

/-- What `calloc` returns. -/
def callocBuf : List Byte := List.replicate 65000 0

/-- Whether there is memory for the frame, for its program and for the tree of `Decompress`. -/
structure Room where
  buf : Bool
  rng : Bool
  tree : Bool

def rngBlitToSurface (unset : Unset) (room : Room) (iNumRNG iNumFrame : BitVec 32)
    (lpDstSurface : Option Surface) (fpRngMKF : Option FILE) (pixels : Nat → Byte) :
    Except Fault (Int × (Nat → Byte) × Option FILE) :=
  match lpDstSurface with
  | none => .ok (-1, pixels, fpRngMKF)
  | some surface => do
      if iNumRNG.toInt < 0 ∨ iNumFrame.toInt < 0 then return (-1, pixels, fpRngMKF)
      if !room.buf then return (-1, pixels, fpRngMKF)
      let (n, buf, fp) ← rngReadFrame unset (some callocBuf) 65000 iNumRNG iNumFrame fpRngMKF
      if n.toInt < 0 then return (-1, pixels, fp)
      if !room.rng then return (-1, pixels, fp)
      let (_, rng) ← Decompress room.tree buf callocBuf 65000
      let pixels ← frameLoop rng surface (rng.length + 1) ⟨0, 0, pixels⟩
      return (0, pixels, fp)

/-! ## Playing -/

section

variable (hal : Hal) (unset : BitVec 32 → Unset) (room : BitVec 32 → Room)
  (iNumRNG iEndFrame : BitVec 32) (gpScreen gpScreenReal : Surface) (g_wShakeLevel : BitVec 16)

/-- `for (; iStartFrame <= iEndFrame; iStartFrame++)`: what is on the screen after each update, and
    the pixels that are left on `gpScreen`. -/
def playFrom : Nat → BitVec 32 → Option FILE → (Nat → Byte) → Display →
    Except Fault (List (Nat → Byte) × (Nat → Byte))
  | 0, _, _, _, _ => .error .outOfFuel
  | fuel + 1, iStartFrame, fp, pixels, d =>
      if ¬iStartFrame.toInt ≤ iEndFrame.toInt then .ok ([], pixels)
      else do
        let (result, pixels, fp) ← rngBlitToSurface (unset iStartFrame) (room iStartFrame) iNumRNG
          iStartFrame (some gpScreen) fp pixels
        if result = -1 then return ([], pixels)
        let d ← videoUpdateScreen hal gpScreen gpScreenReal g_wShakeLevel pixels d
        let (shown, pixels) ← playFrom fuel (iStartFrame + 1) fp pixels d
        return (d.pixels :: shown, pixels)

/-- `PAL_RNGPlay` on a file `rng.mkf` of these bytes. -/
def rngPlay (rng_mkf : List Byte) (iStartFrame : BitVec 32) (pixels : Nat → Byte) (d : Display) :
    Except Fault (List (Nat → Byte) × (Nat → Byte)) :=
  playFrom hal unset room iNumRNG iEndFrame gpScreen gpScreenReal g_wShakeLevel
    ((iEndFrame.toInt - iStartFrame.toInt).toNat + 2) iStartFrame (some ⟨rng_mkf, 0⟩) pixels d

end

end Nemu.Pal
