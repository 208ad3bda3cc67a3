/-
  Nemu.Pal.MapView

  `PAL_MapBlitToSurface` of `scene/map.c`: the tiles around a rectangle of the map are put on
  the surface, row by row.  What the surface then shows is what the whole map shows there,
  though most of its tiles are never looked at.
-/

import Nemu.Pal.Map
import Nemu.Pal.RleOverlay

namespace Nemu.Pal

open Outcome Paint

/-! ## `PAL_MapBlitToSurface` -/

/-- `SDL_Rect` of `hal.h`. -/
structure SrcRect where
  x : BitVec 16
  y : BitVec 16
  w : BitVec 16
  h : BitVec 16

-- `PAL_XY`
def palXY (x y : Int) : BitVec 32 := BitVec.ofInt 16 y ++ BitVec.ofInt 16 x

section

variable (lpMap : Option PALMAP) (lpSurface : Option Surface) (lpSrcRect : SrcRect) (ucLayer : Byte)

/-- The body of the loops. -/
def blitTile (x y h xPos yPos : Int) (pixels : Nat → Byte) : Except Fault (Nat → Byte) := do
  let lpBitmap ← mapGetTileBitmap (BitVec.ofInt 8 x) (BitVec.ofInt 8 y) (BitVec.ofInt 8 h) lpMap ucLayer
  if lpBitmap.isNone ∧ ucLayer ≠ 0 then return pixels
  let lpBitmap ← if lpBitmap.isNone then mapGetTileBitmap 0 0 0 lpMap ucLayer else .ok lpBitmap
  let r ← rleBlitToSurface lpBitmap lpSurface (palXY xPos yPos) pixels
  return r.2

/-- `for (x = sx; x < dx; x++, xPos += 32)` with `n` turns left. -/
def blitRow (y h yPos : Int) : Nat → Int → Int → (Nat → Byte) → Except Fault (Nat → Byte)
  | 0, _, _, pixels => .ok pixels
  | n + 1, x, xPos, pixels => do
      let pixels ← blitTile lpMap lpSurface ucLayer x y h xPos yPos pixels
      blitRow y h yPos n (x + 1) (xPos + 32) pixels

/-- `for (y = sy; y < dy; y++)` with `n` turns left. -/
def blitRows (sx dx : Int) : Nat → Int → Int → (Nat → Byte) → Except Fault (Nat → Byte)
  | 0, _, _, pixels => .ok pixels
  | n + 1, y, yPos, pixels => do
      let xPos := fun h : Int => sx * 32 + h * 16 - 16 - lpSrcRect.x.toInt
      let pixels ← blitRow lpMap lpSurface ucLayer y 0 yPos (dx - sx).toNat sx (xPos 0) pixels
      let pixels ← blitRow lpMap lpSurface ucLayer y 1 (yPos + 8) (dx - sx).toNat sx (xPos 1) pixels
      blitRows sx dx n (y + 1) (yPos + 8 + 8) pixels

def mapBlitToSurface (pixels : Nat → Byte) : Except Fault (Nat → Byte) :=
  let sy := lpSrcRect.y.toInt.tdiv 16 - 1
  let dy := (lpSrcRect.y.toInt + lpSrcRect.h.toNat).tdiv 16 + 2
  let sx := lpSrcRect.x.toInt.tdiv 32 - 1
  let dx := (lpSrcRect.x.toInt + lpSrcRect.w.toNat).tdiv 32 + 2
  blitRows lpMap lpSurface lpSrcRect ucLayer sx dx (dy - sy).toNat sy
    (sy * 16 - 8 - lpSrcRect.y.toInt) pixels

end

/-! ## What a map shows -/

/-- Where a tile lies: every row of the map has two rows of tiles. -/
structure Spot where
  y : Int
  h : Fin 2
  x : Int

namespace Spot

def left (s : Spot) : Int := s.x * 32 + (s.h.val : Int) * 16 - 16

def top (s : Spot) : Int := s.y * 16 + (s.h.val : Int) * 8 - 8

/-- `t` lies on top of `s`, where they overlap. -/
def Below (s t : Spot) : Prop :=
  s.y < t.y ∨ s.y = t.y ∧ (s.h < t.h ∨ s.h = t.h ∧ s.x < t.x)

end Spot

/-- The number of the bitmap in a tile. -/
def tileNumber (ucLayer : Byte) (d : BitVec 32) : Int :=
  if ucLayer = 0 then ((d &&& 0xFF) ||| ((d >>> 4) &&& 0x100)).toNat
  else (((d >>> 16) &&& 0xFF) ||| (((d >>> 16) >>> 4) &&& 0x100)).toNat - 1

/-- The sprite of a map has the bitmaps of its tiles, and none is larger than 32 by 16. -/
structure MapDrawn (map : PALMAP) (frames : List Bitmap) (ucLayer : Byte) : Prop where
  count : ∃ imagecount, shortAt map.pTileSprite 0 = .ok imagecount ∧
    frames.length ≤ imagecount.toNat
  frame : ∀ i b, frames[i]? = some b → ∃ offset marked rest,
    shortAt map.pTileSprite (i <<< 1) = .ok offset ∧
      map.pTileSprite.drop (offset <<< 1).toNat = b.bytes marked ++ rest ∧ b.Plain marked
  small : ∀ b ∈ frames, b.width.toNat ≤ 32 ∧ b.height.toNat ≤ 16
  used : ∀ y x h, y < 128 → x < 64 → h < 2 →
    tileNumber ucLayer (map.Tiles y x h) < frames.length

section

variable (map : PALMAP) (frames : List Bitmap) (ucLayer : Byte)

def frameOf (d : BitVec 32) : Option Bitmap :=
  if 0 ≤ tileNumber ucLayer d then frames[(tileNumber ucLayer d).toNat]? else none

/-- The bitmap at a spot.  Around the map there is its first tile, on the lower layer. -/
def bitmapAt (s : Spot) : Option Bitmap :=
  if 0 ≤ s.x ∧ s.x < 64 ∧ 0 ≤ s.y ∧ s.y < 128 then
    frameOf frames ucLayer (map.Tiles s.y.toNat s.x.toNat s.h.val)
  else if ucLayer = 0 then frameOf frames ucLayer (map.Tiles 0 0 0)
  else none

def spotLayer (s : Spot) : Layer (Int × Int) Byte := fun q =>
  (bitmapAt map frames ucLayer s).bind fun b => b.pixel (q.1 - s.left) (q.2 - s.top)

/-- The colour at a point of the map: that of the uppermost tile with a pixel there, or the one
    that was there before. -/
inductive Seen (q : Int × Int) (old : Byte) : Byte → Prop
  | tile {s : Spot} {c : Byte} (hs : spotLayer map frames ucLayer s q = some c)
      (htop : ∀ t, s.Below t → spotLayer map frames ucLayer t q = none) : Seen q old c
  | nothing (h : ∀ s, spotLayer map frames ucLayer s q = none) : Seen q old old

end

/-! ## One tile -/

theorem palX_palXY {x y : Int} (hx : -32768 ≤ x) (hx' : x < 32768) : palX (palXY x y) = x := by
  have hlow : (palXY x y).setWidth 16 = BitVec.ofInt 16 x := by
    rw [palXY]
    apply BitVec.eq_of_getLsbD_eq
    intro i hi
    simp only [BitVec.getLsbD_setWidth, BitVec.getLsbD_append]
    grind
  rw [palX, hlow, BitVec.toInt_ofInt]
  exact Int.bmod_eq_of_le (by omega) (by omega)

theorem palY_palXY {x y : Int} (hy : -32768 ≤ y) (hy' : y < 32768) : palY (palXY x y) = y := by
  have hhigh : ((palXY x y) >>> 16).setWidth 16 = BitVec.ofInt 16 y := by
    rw [palXY]
    apply BitVec.eq_of_getLsbD_eq
    intro i hi
    simp only [BitVec.getLsbD_setWidth, BitVec.getLsbD_ushiftRight, BitVec.getLsbD_append]
    grind
  rw [palY, hhigh, BitVec.toInt_ofInt]
  exact Int.bmod_eq_of_le (by omega) (by omega)

/-- The surface shows the layer from the point `(rx, ry)` on, and nothing else has changed. -/
structure Puts (surface : Surface) (rx ry : Int) (l : Layer (Int × Int) Byte)
    (pixels pixels' : Nat → Byte) : Prop where
  shown : ∀ x y : Nat, x < surface.w → y < surface.h →
    pixels' (y * surface.pitch + x) = (l (rx + x, ry + y)).getD (pixels (y * surface.pitch + x))
  beside : Inside surface pixels pixels'

section Tiles

variable {surface : Surface} {rx ry : Int} {l m : Layer (Int × Int) Byte}
variable {pixels pixels' pixels'' : Nat → Byte}

theorem Puts.blank : Puts surface rx ry blank pixels pixels := ⟨fun _ _ _ _ => rfl, fun _ _ => rfl⟩

theorem Puts.stack (h : Puts surface rx ry l pixels pixels')
    (h' : Puts surface rx ry m pixels' pixels'') :
    Puts surface rx ry (stack l m) pixels pixels'' := by
  refine ⟨fun x y hx hy => ?_, h.beside.trans h'.beside⟩
  rw [h'.shown x y hx hy, h.shown x y hx hy, Paint.stack]
  cases m (rx + x, ry + y) <;> rfl

variable {map : PALMAP} {frames : List Bitmap} {ucLayer : Byte}

/-- The bitmap with a number below the number of bitmaps. -/
theorem MapDrawn.spriteGetFrame_eq (h : MapDrawn map frames ucLayer) {d : BitVec 32}
    (hd : tileNumber ucLayer d < frames.length) :
    (frameOf frames ucLayer d = none ∧ tileNumber ucLayer d < 0 ∧
        spriteGetFrame (some map.pTileSprite) (tileNumber ucLayer d) = .ok none) ∨
      ∃ b marked rest, frameOf frames ucLayer d = some b ∧ b.Plain marked ∧
        spriteGetFrame (some map.pTileSprite) (tileNumber ucLayer d) =
          .ok (some (b.bytes marked ++ rest)) := by
  obtain ⟨imagecount, hcount, hle⟩ := h.count
  by_cases hneg : 0 ≤ tileNumber ucLayer d
  · obtain ⟨b, hb⟩ : ∃ b, frames[(tileNumber ucLayer d).toNat]? = some b :=
      ⟨_, List.getElem?_eq_getElem (by omega)⟩
    obtain ⟨offset, marked, rest, hoffset, hdrop, hplain⟩ := h.frame _ b hb
    refine .inr ⟨b, marked, rest, by rw [frameOf, if_pos hneg, hb], hplain, ?_⟩
    rw [spriteGetFrame, hcount, ok_bind, if_neg (by omega), hoffset, ok_bind, hdrop]
    rfl
  · refine .inl ⟨by rw [frameOf, if_neg hneg], by omega, ?_⟩
    rw [spriteGetFrame, hcount, ok_bind, if_pos (.inl (by omega))]
    rfl

theorem mapGetTileBitmap_in {x y h : Byte} (hx : x.toNat < 64) (hy : y.toNat < 128) (hh : h.toNat < 2) :
    mapGetTileBitmap x y h (some map) ucLayer = spriteGetFrame (some map.pTileSprite)
      (tileNumber ucLayer (map.Tiles y.toNat x.toNat h.toNat)) := by
  have hin : ¬(x ≥ 64 ∨ y ≥ 128 ∨ h > 1) := by
    simp only [ge_iff_le, gt_iff_lt, BitVec.le_def, BitVec.lt_def, BitVec.ofNat_eq_ofNat,
      BitVec.toNat_ofNat]
    omega
  rw [mapGetTileBitmap, if_neg hin, tileNumber]
  dsimp only
  split <;> rfl

theorem mapGetTileBitmap_out {x y h : Byte} (hout : 64 ≤ x.toNat ∨ 128 ≤ y.toNat) :
    mapGetTileBitmap x y h (some map) ucLayer = .ok none := by
  have hin : x ≥ 64 ∨ y ≥ 128 ∨ h > 1 := by
    simp only [ge_iff_le, gt_iff_lt, BitVec.le_def, BitVec.lt_def, BitVec.ofNat_eq_ofNat,
      BitVec.toNat_ofNat]
    omega
  rw [mapGetTileBitmap, if_pos hin]

/-- A bitmap whose corner is the point `(left, top)` of the map. -/
theorem blit_puts (hfits : surface.Fits) (b : Bitmap) {marked : Bool} (hplain : b.Plain marked)
    (rest : List Byte) {left top : Int} (hx : -32768 ≤ left - rx ∧ left - rx < 32768)
    (hy : -32768 ≤ top - ry ∧ top - ry < 32768) (pixels : Nat → Byte) :
    ∃ pixels', rleBlitToSurface (some (b.bytes marked ++ rest)) (some surface)
        (palXY (left - rx) (top - ry)) pixels = .ok (0, pixels') ∧
      Puts surface rx ry (fun q => b.pixel (q.1 - left) (q.2 - top)) pixels pixels' := by
  refine ⟨_, blit_eq id b marked hplain rest hfits _ pixels, fun x y hxw hyh => ?_, fun p hp => ?_⟩
  · rw [overlay, cellsLayer_pixel hfits b hxw hyh, palX_palXY hx.1 hx.2, palY_palXY hy.1 hy.2,
      Option.map_id_fun, id_eq, show rx + (x : Int) - left = x - (left - rx) by omega,
      show ry + (y : Int) - top = y - (top - ry) by omega]
  · rw [overlay, cellsLayer_beside hp]
    rfl

theorem toNat_ofInt_byte (i : Int) : (BitVec.ofInt 8 i).toNat = (i % 256).toNat := BitVec.toNat_ofInt ..

theorem tileNumber_nonneg (d : BitVec 32) : 0 ≤ tileNumber 0 d := by
  rw [tileNumber, if_pos rfl]
  exact Int.natCast_nonneg _

section

variable {x y h xPos yPos : Int} {bitmap : List Byte}

theorem blitTile_bitmap (hget : mapGetTileBitmap (BitVec.ofInt 8 x) (BitVec.ofInt 8 y)
      (BitVec.ofInt 8 h) (some map) ucLayer = .ok (some bitmap))
    (hblit : rleBlitToSurface (some bitmap) (some surface) (palXY xPos yPos) pixels =
      .ok (0, pixels')) :
    blitTile (some map) (some surface) ucLayer x y h xPos yPos pixels = .ok pixels' := by
  rw [blitTile, hget, ok_bind, if_neg fun hnone => Bool.false_ne_true hnone.1]
  show (rleBlitToSurface (some bitmap) _ _ _ >>= _) = _
  rw [hblit]
  rfl

theorem blitTile_skip (hget : mapGetTileBitmap (BitVec.ofInt 8 x) (BitVec.ofInt 8 y)
      (BitVec.ofInt 8 h) (some map) ucLayer = .ok none) (hupper : ucLayer ≠ 0) :
    blitTile (some map) (some surface) ucLayer x y h xPos yPos pixels = .ok pixels := by
  rw [blitTile, hget, ok_bind, if_pos ⟨rfl, hupper⟩]
  rfl

theorem blitTile_border (hget : mapGetTileBitmap (BitVec.ofInt 8 x) (BitVec.ofInt 8 y)
      (BitVec.ofInt 8 h) (some map) 0 = .ok none)
    (hfirst : mapGetTileBitmap 0 0 0 (some map) 0 = .ok (some bitmap))
    (hblit : rleBlitToSurface (some bitmap) (some surface) (palXY xPos yPos) pixels =
      .ok (0, pixels')) :
    blitTile (some map) (some surface) 0 x y h xPos yPos pixels = .ok pixels' := by
  rw [blitTile, hget, ok_bind, if_neg fun hnone => hnone.2 rfl]
  show (mapGetTileBitmap 0 0 0 (some map) 0 >>= _) = _
  rw [hfirst, ok_bind]
  show (rleBlitToSurface (some bitmap) _ _ _ >>= _) = _
  rw [hblit]
  rfl

end

/-- A turn of the loops puts one tile on the surface. -/
theorem blitTile_puts (hfits : surface.Fits) (hmap : MapDrawn map frames ucLayer) (s : Spot)
    (hy : -128 ≤ s.y ∧ s.y < 256) (hx : -192 ≤ s.x ∧ s.x < 256)
    (hleft : -32768 ≤ s.left - rx ∧ s.left - rx < 32768)
    (htop : -32768 ≤ s.top - ry ∧ s.top - ry < 32768) (pixels : Nat → Byte) :
    ∃ pixels', blitTile (some map) (some surface) ucLayer s.x s.y s.h.val (s.left - rx)
        (s.top - ry) pixels = .ok pixels' ∧
      Puts surface rx ry (spotLayer map frames ucLayer s) pixels pixels' := by
  have hxn := toNat_ofInt_byte s.x
  have hyn := toNat_ofInt_byte s.y
  have hhn : (BitVec.ofInt 8 (s.h.val : Int)).toNat = s.h.val := by
    have hh := s.h.isLt
    rw [toNat_ofInt_byte]
    omega
  have hlayer : ∀ {o}, bitmapAt map frames ucLayer s = o → spotLayer map frames ucLayer s =
      fun q => o.bind fun b => b.pixel (q.1 - s.left) (q.2 - s.top) := by
    rintro o rfl
    rfl
  by_cases hin : 0 ≤ s.x ∧ s.x < 64 ∧ 0 ≤ s.y ∧ s.y < 128
  · have hxs : (BitVec.ofInt 8 s.x).toNat = s.x.toNat := by omega
    have hys : (BitVec.ofInt 8 s.y).toNat = s.y.toNat := by omega
    have hget : mapGetTileBitmap (BitVec.ofInt 8 s.x) (BitVec.ofInt 8 s.y)
        (BitVec.ofInt 8 (s.h.val : Int)) (some map) ucLayer = _ :=
      mapGetTileBitmap_in (by omega) (by omega) (by have hh := s.h.isLt; omega)
    have hat : bitmapAt map frames ucLayer s =
        frameOf frames ucLayer (map.Tiles s.y.toNat s.x.toNat s.h.val) := if_pos hin
    rw [hxs, hys, hhn] at hget
    have hused := hmap.used s.y.toNat s.x.toNat s.h.val (by omega) (by omega) s.h.isLt
    rcases hmap.spriteGetFrame_eq hused with
      ⟨hnone, hneg, hframe⟩ | ⟨b, marked, rest, hsome, hplain, hframe⟩
    · have hupper : ucLayer ≠ 0 := by
        rintro rfl
        have hnonneg := tileNumber_nonneg (map.Tiles s.y.toNat s.x.toNat s.h.val)
        omega
      rw [hlayer (hat.trans hnone)]
      exact ⟨pixels, blitTile_skip (hget.trans hframe) hupper, .blank⟩
    · obtain ⟨pixels', hblit, hputs⟩ := blit_puts hfits b hplain rest hleft htop pixels
      rw [hlayer (hat.trans hsome)]
      exact ⟨pixels', blitTile_bitmap (hget.trans hframe) hblit, hputs⟩
  · have hget : mapGetTileBitmap (BitVec.ofInt 8 s.x) (BitVec.ofInt 8 s.y)
        (BitVec.ofInt 8 (s.h.val : Int)) (some map) ucLayer = .ok none :=
      mapGetTileBitmap_out (by omega)
    by_cases hupper : ucLayer = 0
    · subst hupper
      have hat : bitmapAt map frames 0 s = frameOf frames 0 (map.Tiles 0 0 0) :=
        (if_neg hin).trans (if_pos rfl)
      have hget₀ : mapGetTileBitmap 0 0 0 (some map) 0 = _ :=
        mapGetTileBitmap_in (by decide) (by decide) (by decide)
      rcases hmap.spriteGetFrame_eq (hmap.used 0 0 0 (by decide) (by decide) (by decide)) with
        ⟨-, hneg, -⟩ | ⟨b, marked, rest, hsome, hplain, hframe⟩
      · have hnonneg := tileNumber_nonneg (map.Tiles 0 0 0)
        exact absurd hneg (Int.not_lt.mpr hnonneg)
      · obtain ⟨pixels', hblit, hputs⟩ := blit_puts hfits b hplain rest hleft htop pixels
        rw [hlayer (hat.trans hsome)]
        exact ⟨pixels', blitTile_border hget (hget₀.trans hframe) hblit, hputs⟩
    · have hat : bitmapAt map frames ucLayer s = none := (if_neg hin).trans (if_neg hupper)
      rw [hlayer hat]
      exact ⟨pixels, blitTile_skip hget hupper, .blank⟩

end Tiles

/-! ## The loops -/

/-- The spots of a row from the column `x` on. -/
def rowSpots (y : Int) (h : Fin 2) : Nat → Int → List Spot
  | 0, _ => []
  | n + 1, x => ⟨y, h, x⟩ :: rowSpots y h n (x + 1)

/-- The spots in the order in which they are drawn. -/
def spotsFrom (sx : Int) (nx : Nat) : Nat → Int → List Spot
  | 0, _ => []
  | n + 1, y => rowSpots y 0 nx sx ++ (rowSpots y 1 nx sx ++ spotsFrom sx nx n (y + 1))

theorem mem_rowSpots {y : Int} {h : Fin 2} {s : Spot} {n : Nat} : ∀ {x : Int},
    s ∈ rowSpots y h n x ↔ s.y = y ∧ s.h = h ∧ x ≤ s.x ∧ s.x < x + n := by
  induction n with
  | zero => exact fun {x} => iff_of_false List.not_mem_nil (by omega)
  | succ n ih =>
      intro x
      rw [rowSpots, List.mem_cons, ih]
      constructor
      · rintro (rfl | ⟨hy, hh, hle, hlt⟩)
        · exact ⟨rfl, rfl, Int.le_refl x, by dsimp only; omega⟩
        · exact ⟨hy, hh, by omega, by omega⟩
      · rintro ⟨rfl, rfl, hle, hlt⟩
        by_cases hx : s.x = x
        · exact .inl (by rw [← hx])
        · exact .inr ⟨rfl, rfl, by omega, by omega⟩

theorem mem_spotsFrom {sx : Int} {nx : Nat} {s : Spot} {n : Nat} : ∀ {y : Int},
    s ∈ spotsFrom sx nx n y ↔ y ≤ s.y ∧ s.y < y + n ∧ sx ≤ s.x ∧ s.x < sx + nx := by
  induction n with
  | zero => exact fun {y} => iff_of_false List.not_mem_nil (by omega)
  | succ n ih =>
      intro y
      rw [spotsFrom, List.mem_append, List.mem_append, mem_rowSpots, mem_rowSpots, ih]
      have hh : s.h = 0 ∨ s.h = 1 := by
        have hlt := s.h.isLt
        omega
      constructor
      · rintro (⟨hy, -, hx⟩ | ⟨hy, -, hx⟩ | ⟨hle, hlt, hx⟩)
        · exact ⟨by omega, by omega, hx⟩
        · exact ⟨by omega, by omega, hx⟩
        · exact ⟨by omega, by omega, hx⟩
      · rintro ⟨hle, hlt, hx⟩
        by_cases hy : s.y = y
        · exact hh.elim (fun hh => .inl ⟨hy, hh, hx⟩) fun hh => .inr (.inl ⟨hy, hh, hx⟩)
        · exact .inr (.inr ⟨by omega, by omega, hx⟩)

theorem Spot.Below.asymm {s t : Spot} (h : s.Below t) : ¬t.Below s := by
  rcases h with h | ⟨h, h' | ⟨h', h''⟩⟩
  all_goals
    rintro (g | ⟨g, g' | ⟨g', g''⟩⟩)
    all_goals omega

theorem pairwise_rowSpots (y : Int) (h : Fin 2) (n : Nat) : ∀ x : Int,
    (rowSpots y h n x).Pairwise Spot.Below := by
  induction n with
  | zero => exact fun _ => .nil
  | succ n ih =>
      refine fun x => .cons (fun s hs => ?_) (ih (x + 1))
      obtain ⟨hy, hh, hle, -⟩ := mem_rowSpots.mp hs
      exact .inr ⟨hy.symm, .inr ⟨hh.symm, by show x < s.x; omega⟩⟩

/-- They are drawn from below to above. -/
theorem pairwise_spotsFrom (sx : Int) (nx n : Nat) : ∀ y : Int,
    (spotsFrom sx nx n y).Pairwise Spot.Below := by
  induction n with
  | zero => exact fun _ => .nil
  | succ n ih =>
      intro y
      refine List.pairwise_append.mpr ⟨pairwise_rowSpots y 0 nx sx, List.pairwise_append.mpr
        ⟨pairwise_rowSpots y 1 nx sx, ih (y + 1), ?_⟩, ?_⟩
      · intro s hs t ht
        have hys := (mem_rowSpots.mp hs).1
        have hyt := (mem_spotsFrom.mp ht).1
        exact .inl (by omega)
      · intro s hs t ht
        obtain ⟨hys, hhs, -⟩ := mem_rowSpots.mp hs
        rcases List.mem_append.mp ht with ht | ht
        · obtain ⟨hyt, hht, -⟩ := mem_rowSpots.mp ht
          exact .inr ⟨hys.trans hyt.symm, .inl (by rw [hhs, hht]; decide)⟩
        · have hyt := (mem_spotsFrom.mp ht).1
          exact .inl (by omega)

/-- Spots that the loops can reach: neither the columns and rows of a tile nor its place on the
    surface are truncated. -/
structure Spot.Near (rx ry : Int) (s : Spot) : Prop where
  row : -128 ≤ s.y ∧ s.y < 256
  column : -192 ≤ s.x ∧ s.x < 256
  left : -32768 ≤ s.left - rx ∧ s.left - rx < 32768
  top : -32768 ≤ s.top - ry ∧ s.top - ry < 32768

section Loops

variable {surface : Surface} {map : PALMAP} {frames : List Bitmap} {ucLayer : Byte} {rx ry : Int}

theorem blitRow_puts (hfits : surface.Fits) (hmap : MapDrawn map frames ucLayer) {y : Int}
    {h : Fin 2} {yPos : Int} (hyPos : yPos = y * 16 + (h.val : Int) * 8 - 8 - ry) (n : Nat) :
    ∀ (x xPos : Int) (pixels : Nat → Byte), xPos = x * 32 + (h.val : Int) * 16 - 16 - rx →
      (∀ s ∈ rowSpots y h n x, s.Near rx ry) →
      ∃ pixels', blitRow (some map) (some surface) ucLayer y h.val yPos n x xPos pixels =
          .ok pixels' ∧
        Puts surface rx ry (picture ((rowSpots y h n x).map (spotLayer map frames ucLayer)))
          pixels pixels' := by
  induction n with
  | zero => exact fun x xPos pixels _ _ => ⟨pixels, rfl, .blank⟩
  | succ n ih =>
      intro x xPos pixels hxPos hnear
      have hspot := hnear ⟨y, h, x⟩ (List.mem_cons_self ..)
      obtain ⟨next, htile, hnext⟩ := blitTile_puts hfits hmap ⟨y, h, x⟩ hspot.row hspot.column
        hspot.left hspot.top pixels
      obtain ⟨pixels', hrest, hputs⟩ := ih (x + 1) (xPos + 32) next (by omega)
        fun s hs => hnear s (List.mem_cons_of_mem _ hs)
      refine ⟨pixels', ?_, hnext.stack hputs⟩
      have htile' : blitTile (some map) (some surface) ucLayer x y h.val xPos yPos pixels =
          .ok next := by
        rw [hxPos, hyPos]
        exact htile
      rw [blitRow, htile', ok_bind]
      exact hrest

theorem blitRows_puts (hfits : surface.Fits) (hmap : MapDrawn map frames ucLayer)
    (rect : SrcRect) (ry sx dx : Int) (n : Nat) :
    ∀ (y yPos : Int) (pixels : Nat → Byte), yPos = y * 16 - 8 - ry →
      (∀ s ∈ spotsFrom sx (dx - sx).toNat n y, s.Near rect.x.toInt ry) →
      ∃ pixels', blitRows (some map) (some surface) rect ucLayer sx dx n y yPos pixels =
          .ok pixels' ∧
        Puts surface rect.x.toInt ry
          (picture ((spotsFrom sx (dx - sx).toNat n y).map (spotLayer map frames ucLayer)))
          pixels pixels' := by
  induction n with
  | zero => exact fun y yPos pixels _ _ => ⟨pixels, rfl, .blank⟩
  | succ n ih =>
      intro y yPos pixels hyPos hnear
      obtain ⟨p₀, hrow₀, hputs₀⟩ := @blitRow_puts _ _ _ _ rect.x.toInt ry hfits hmap y 0 yPos
        (by simp only [Fin.val_zero]; omega) (dx - sx).toNat sx
        (sx * 32 + 0 * 16 - 16 - rect.x.toInt) pixels rfl
        fun s hs => hnear s (List.mem_append_left _ hs)
      obtain ⟨p₁, hrow₁, hputs₁⟩ := @blitRow_puts _ _ _ _ rect.x.toInt ry hfits hmap y 1 (yPos + 8)
        (by simp only [Fin.val_one]; omega) (dx - sx).toNat sx
        (sx * 32 + 1 * 16 - 16 - rect.x.toInt) p₀ rfl
        fun s hs => hnear s (List.mem_append_right _ (List.mem_append_left _ hs))
      obtain ⟨pixels', hrest, hputs⟩ := ih (y + 1) (yPos + 8 + 8) p₁ (by omega)
        fun s hs => hnear s (List.mem_append_right _ (List.mem_append_right _ hs))
      refine ⟨pixels', ?_, ?_⟩
      · rw [blitRows]
        dsimp only
        show (blitRow _ _ _ _ ((0 : Fin 2).val : Int) _ _ _ _ _ >>= _) = _
        rw [hrow₀, ok_bind]
        show (blitRow _ _ _ _ ((1 : Fin 2).val : Int) _ _ _ _ _ >>= _) = _
        rw [hrow₁, ok_bind]
        exact hrest
      · rw [spotsFrom, List.map_append, List.map_append, picture_append, picture_append]
        exact hputs₀.stack (hputs₁.stack hputs)

end Loops

/-! ## The view -/

-- for any size of the tiles
theorem tdiv_bounds (a : Int) {n : Int} (hn : 0 < n) :
    a - n < n * a.tdiv n ∧ n * a.tdiv n < a + n := by
  have hsum := Int.mul_tdiv_add_tmod a n
  have hlt := Int.tmod_lt_of_pos a hn
  have hgt := Int.lt_tmod_of_pos a hn
  omega

/-- Pixels lie in the rows and columns of the bitmap. -/
theorem Bitmap.pixel_inside {b : Bitmap} {c r : Int} {v : Byte} (h : b.pixel c r = some v) :
    0 ≤ c ∧ c < b.width.toNat ∧ 0 ≤ r ∧ r < b.height.toNat := by
  rw [Bitmap.pixel] at h
  by_cases hin : 0 ≤ c ∧ c < b.width.toNat ∧ 0 ≤ r
  · rw [if_pos hin] at h
    refine ⟨hin.1, hin.2.1, hin.2.2, Int.not_le.mp fun hr => ?_⟩
    have hrow : b.height.toNat * (b.width.toNat : Int) ≤ r * b.width.toNat :=
      Int.mul_le_mul_of_nonneg_right hr (Int.natCast_nonneg _)
    have hnonneg : 0 ≤ r * (b.width.toNat : Int) := Int.mul_nonneg hin.2.2 (Int.natCast_nonneg _)
    have hlen : (b.runs.flatMap Run.cells).length ≤ (r * b.width.toNat + c).toNat := by
      rw [b.full, Nat.mul_comm, ← Int.ofNat_le, Int.natCast_mul, Int.toNat_of_nonneg (by omega)]
      omega
    rw [List.getElem?_eq_none_iff.mpr hlen] at h
    cases h
  · rw [if_neg hin] at h
    cases h

/-- The rectangle is on the map or not far from it. -/
structure SrcRect.Sane (rect : SrcRect) : Prop where
  left : -6000 ≤ rect.x.toInt
  right : rect.x.toInt + rect.w.toNat ≤ 8000
  top : -2000 ≤ rect.y.toInt
  bottom : rect.y.toInt + rect.h.toNat ≤ 4000

section View

variable {surface : Surface} {map : PALMAP} {frames : List Bitmap} {ucLayer : Byte} {rect : SrcRect}

/-- Only the bitmaps of the list are put anywhere. -/
theorem spotLayer_inside (hmap : MapDrawn map frames ucLayer) {s : Spot} {q : Int × Int} {c : Byte}
    (h : spotLayer map frames ucLayer s q = some c) :
    s.left ≤ q.1 ∧ q.1 < s.left + 32 ∧ s.top ≤ q.2 ∧ q.2 < s.top + 16 := by
  obtain ⟨b, hb, hpixel⟩ := Option.bind_eq_some_iff.mp h
  have hmem : ∀ {d}, frameOf frames ucLayer d = some b → b ∈ frames := by
    intro d hd
    rw [frameOf] at hd
    split at hd
    · exact List.mem_of_getElem? hd
    · cases hd
  have hin : b ∈ frames := by
    rw [bitmapAt] at hb
    split at hb
    · exact hmem hb
    · split at hb
      · exact hmem hb
      · cases hb
  obtain ⟨hwidth, hheight⟩ := hmap.small b hin
  have hpos := Bitmap.pixel_inside hpixel
  omega

/-- A tile that has a pixel in the rectangle is drawn. -/
theorem mem_spots_of_visible (hmap : MapDrawn map frames ucLayer) {s : Spot} {x y : Nat} {c : Byte}
    (hx : x < rect.w.toNat) (hy : y < rect.h.toNat)
    (h : spotLayer map frames ucLayer s (rect.x.toInt + x, rect.y.toInt + y) = some c) :
    s ∈ spotsFrom (rect.x.toInt.tdiv 32 - 1)
      ((rect.x.toInt + rect.w.toNat).tdiv 32 + 2 - (rect.x.toInt.tdiv 32 - 1)).toNat
      ((rect.y.toInt + rect.h.toNat).tdiv 16 + 2 - (rect.y.toInt.tdiv 16 - 1)).toNat
      (rect.y.toInt.tdiv 16 - 1) := by
  obtain ⟨hleft, hright, htop, hbottom⟩ := spotLayer_inside hmap h
  have hsx := tdiv_bounds rect.x.toInt (show (0 : Int) < 32 by decide)
  have hdx := tdiv_bounds (rect.x.toInt + rect.w.toNat) (show (0 : Int) < 32 by decide)
  have hsy := tdiv_bounds rect.y.toInt (show (0 : Int) < 16 by decide)
  have hdy := tdiv_bounds (rect.y.toInt + rect.h.toNat) (show (0 : Int) < 16 by decide)
  have hh := s.h.isLt
  rw [Spot.left] at hleft hright
  rw [Spot.top] at htop hbottom
  exact mem_spotsFrom.mpr ⟨by omega, by omega, by omega, by omega⟩

theorem near_of_mem_spots (hrect : rect.Sane) {s : Spot}
    (hs : s ∈ spotsFrom (rect.x.toInt.tdiv 32 - 1)
      ((rect.x.toInt + rect.w.toNat).tdiv 32 + 2 - (rect.x.toInt.tdiv 32 - 1)).toNat
      ((rect.y.toInt + rect.h.toNat).tdiv 16 + 2 - (rect.y.toInt.tdiv 16 - 1)).toNat
      (rect.y.toInt.tdiv 16 - 1)) : s.Near rect.x.toInt rect.y.toInt := by
  obtain ⟨hy, hy', hx, hx'⟩ := mem_spotsFrom.mp hs
  obtain ⟨hleft, hright, htop, hbottom⟩ := hrect
  have hsx := tdiv_bounds rect.x.toInt (show (0 : Int) < 32 by decide)
  have hdx := tdiv_bounds (rect.x.toInt + rect.w.toNat) (show (0 : Int) < 32 by decide)
  have hsy := tdiv_bounds rect.y.toInt (show (0 : Int) < 16 by decide)
  have hdy := tdiv_bounds (rect.y.toInt + rect.h.toNat) (show (0 : Int) < 16 by decide)
  have hh := s.h.isLt
  refine ⟨by omega, by omega, ?_, ?_⟩
  · rw [Spot.left]
    omega
  · rw [Spot.top]
    omega

/-- **The surface shows the map.** At every place of the surface that is in the rectangle there
    is the colour that the map has there, all its tiles taken together; nothing changes beside
    the surface. -/
theorem mapBlitToSurface_shows (hfits : surface.Fits) (hmap : MapDrawn map frames ucLayer)
    (hrect : rect.Sane) (pixels : Nat → Byte) :
    ∃ pixels', mapBlitToSurface (some map) (some surface) rect ucLayer pixels = .ok pixels' ∧
      (∀ x y, x < surface.w → y < surface.h → x < rect.w.toNat → y < rect.h.toNat →
        Seen map frames ucLayer (rect.x.toInt + x, rect.y.toInt + y)
          (pixels (y * surface.pitch + x)) (pixels' (y * surface.pitch + x))) ∧
      ∀ p, (¬∃ x y, x < surface.w ∧ y < surface.h ∧ p = y * surface.pitch + x) →
        pixels' p = pixels p := by
  obtain ⟨pixels', hrun, hputs⟩ := blitRows_puts hfits hmap rect rect.y.toInt _ _ _ _ _ pixels rfl
    fun s hs => near_of_mem_spots hrect hs
  refine ⟨pixels', hrun, fun x y hx hy hxw hyh => ?_, hputs.beside⟩
  rw [hputs.shown x y hx hy]
  cases hpicture : picture _ (rect.x.toInt + x, rect.y.toInt + y) with
  | none =>
      refine .nothing fun s => ?_
      cases hs : spotLayer map frames ucLayer s (rect.x.toInt + x, rect.y.toInt + y) with
      | none => rfl
      | some c =>
          have hmem := mem_spots_of_visible hmap hxw hyh hs
          have hnone := picture_eq_none.mp hpicture _ (List.mem_map.mpr ⟨s, hmem, rfl⟩)
          exact hs.symm.trans hnone
  | some c =>
      obtain ⟨s, -, hs, htop⟩ := picture_top (fun _ _ => Spot.Below.asymm)
        (pairwise_spotsFrom _ _ _ _) hpicture
      refine .tile hs fun t ht => ?_
      cases hlayer : spotLayer map frames ucLayer t (rect.x.toInt + x, rect.y.toInt + y) with
      | none => rfl
      | some d =>
          have hmem := mem_spots_of_visible hmap hxw hyh hlayer
          exact hlayer.symm.trans (htop t hmem ht)

end View

/-- A map of nothing but the first of its tiles. -/
def PALMAP.flat : PALMAP :=
  { Tiles := fun _ _ _ => 0, pTileSprite := [1, 0] ++ (Bitmap.dot 7).bytes true, iMapNum := 1 }

theorem mapDrawn_flat : MapDrawn .flat [Bitmap.dot 7] 0 := by
  refine ⟨⟨1, rfl, Nat.le_refl 1⟩, fun i b hb => ?_, ?_,
    fun _ _ _ _ _ _ => show tileNumber 0 0 < 1 by decide⟩
  · obtain ⟨hi, rfl⟩ := List.getElem?_eq_some_iff.mp hb
    obtain rfl : i = 0 := Nat.lt_one_iff.mp hi
    exact ⟨1, true, [], rfl, rfl, .inl rfl⟩
  · exact List.forall_mem_singleton.mpr ⟨by decide, by decide⟩

/-- The size of the game's screen. -/
def SrcRect.screen : SrcRect := ⟨0, 0, 320, 200⟩

theorem mapBlitToSurface_shows_flat :
    ∃ pixels', mapBlitToSurface (some .flat) (some ⟨320, 200, 320, 64000⟩) .screen 0 (fun _ => 0) =
        .ok pixels' ∧
      (∀ x y, x < 320 → y < 200 → x < SrcRect.screen.w.toNat → y < SrcRect.screen.h.toNat →
        Seen .flat [Bitmap.dot 7] 0 (SrcRect.screen.x.toInt + x, SrcRect.screen.y.toInt + y) 0
          (pixels' (y * 320 + x))) ∧
      ∀ p, (¬∃ x y, x < 320 ∧ y < 200 ∧ p = y * 320 + x) → pixels' p = 0 :=
  @mapBlitToSurface_shows ⟨320, 200, 320, 64000⟩ _ _ _ _ ⟨by decide, by decide⟩ mapDrawn_flat
    ⟨by decide, by decide, by decide, by decide⟩ fun _ => 0

end Nemu.Pal
