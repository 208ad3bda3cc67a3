/-
  Nemu.Pal.Rle

  `PAL_RLEBlitToSurface`, `PAL_RLEBlitWithColorShift` and `PAL_RLEBlitMonoColor` of
  `global/palcommon.c`.  The three differ in the byte they put on the surface, which is a
  parameter of `blit`.
-/

import Mathlib.Logic.Function.Basic
import Nemu.Pal.Yj1

namespace Nemu.Pal

/-- `SDL_Surface` with eight bits a pixel; `size` is how many bytes there are at `pixels`. -/
structure Surface where
  w : Nat
  h : Nat
  pitch : Nat
  size : Nat

-- `PAL_X` and `PAL_Y`
def palX (pos : BitVec 32) : Int := (pos.setWidth 16).toInt

def palY (pos : BitVec 32) : Int := ((pos >>> 16).setWidth 16).toInt

section

variable (colour : Byte → Byte) (rle : List Byte) (surface : Surface) (dx dy : Int) (uiWidth : Nat)

def putPixel (x y : Int) (b : Byte) (pixels : Nat → Byte) : Except Fault (Nat → Byte) :=
  let at' := y * surface.pitch + x
  if 0 ≤ at' ∧ at' < surface.size then .ok (Function.update pixels at'.toNat b)
  else .error .badWrite

/-- `for (j = 0; j < T; j++)`; the answer is whether the loop left with `goto end`. -/
def putRun (ptr i T : Nat) : Nat → Nat → (Nat → Byte) → Except Fault (Bool × (Nat → Byte))
  | 0, _, _ => .error .outOfFuel
  | fuel + 1, j, pixels =>
      if ¬j < T then .ok (false, pixels)
      else
        let y := ((i + j) / uiWidth : Nat) + dy
        let x := ((i + j) % uiWidth : Nat) + dx
        if x < 0 then putRun ptr i T fuel (j + (-x - 1).toNat + 1) pixels
        else if x ≥ surface.w then putRun ptr i T fuel (j + (x - surface.w).toNat + 1) pixels
        else if y < 0 then putRun ptr i T fuel (j + (-y * uiWidth - 1).toNat + 1) pixels
        else if y ≥ surface.h then .ok (true, pixels)
        else do
          let b ← byteAt rle (ptr + j)
          let pixels ← putPixel surface x y (colour b) pixels
          putRun ptr i T fuel (j + 1) pixels

/-- `for (i = 0; i < uiLen;)` from the byte at `ptr` on. -/
def blitFrom (uiLen : Nat) : Nat → Nat → Nat → (Nat → Byte) → Except Fault (Nat → Byte)
  | 0, _, _, _ => .error .outOfFuel
  | fuel + 1, i, ptr, pixels =>
      if ¬i < uiLen then .ok pixels
      else do
        let T ← byteAt rle ptr
        if T &&& 0x80 ≠ 0 ∧ T.toNat ≤ 0x80 + uiWidth then
          blitFrom uiLen fuel (i + (T.toNat - 0x80)) (ptr + 1) pixels
        else
          let (stop, pixels) ←
            putRun colour rle surface dx dy uiWidth (ptr + 1) i T.toNat (T.toNat + 1) 0 pixels
          if stop then return pixels
          blitFrom uiLen fuel (i + T.toNat) (ptr + 1 + T.toNat) pixels

end

/-- The common body. Every turn of the loop takes a byte of the bitmap. -/
def blit (colour : Byte → Byte) (lpBitmapRLE : Option (List Byte)) (lpDstSurface : Option Surface)
    (pos : BitVec 32) (pixels : Nat → Byte) : Except Fault (Int × (Nat → Byte)) :=
  match lpBitmapRLE, lpDstSurface with
  | some rle, some surface => do
      let b₀ ← byteAt rle 0
      let b₁ ← byteAt rle 1
      let b₂ ← byteAt rle 2
      let b₃ ← byteAt rle 3
      let ptr := if b₀ = 0x02 ∧ b₁ = 0x00 ∧ b₂ = 0x00 ∧ b₃ = 0x00 then 4 else 0
      let uiWidth ← shortAt rle ptr
      let uiHeight ← shortAt rle (ptr + 2)
      let pixels ← blitFrom colour rle surface (palX pos) (palY pos) uiWidth.toNat
        (uiWidth.toNat * uiHeight.toNat) (rle.length + 1) 0 (ptr + 4) pixels
      return (0, pixels)
  | _, _ => .ok (-1, pixels)

-- the low four bits of `b` moved by `iColorShift`, as far as they go
def shifted (iColorShift : Int) (b : Byte) : Byte :=
  let low := b &&& 0x0F
  if (low.toNat : Int) + iColorShift > 0x0F then 0x0F
  else if (low.toNat : Int) + iColorShift < 0 then 0
  else BitVec.ofInt 8 (low.toNat + iColorShift)

def rleBlitToSurface : Option (List Byte) → Option Surface → BitVec 32 → (Nat → Byte) →
    Except Fault (Int × (Nat → Byte)) := blit id

def rleBlitWithColorShift (iColorShift : Int) : Option (List Byte) → Option Surface → BitVec 32 →
    (Nat → Byte) → Except Fault (Int × (Nat → Byte)) :=
  blit fun b => shifted iColorShift b ||| b &&& 0xF0

def rleBlitMonoColor (bColor : Byte) (iColorShift : Int) : Option (List Byte) → Option Surface →
    BitVec 32 → (Nat → Byte) → Except Fault (Int × (Nat → Byte)) :=
  blit fun b => shifted iColorShift b ||| bColor &&& 0xF0

end Nemu.Pal
