/-
  Nemu.Pal.Video

  How a surface gets onto the screen: `SDL_BlitSurface`, `SDL_FillRect`, `SDL_SoftStretch` and
  `SDL_UpdateRect` of `hal/video.c`, and `VIDEO_UpdateScreen(NULL)` of `device/video.c`.

  In the first two the loops over the pixels have not been written: a comment says what they are
  to do, and an `assert(0)` stands behind it.  They are a parameter here (`Hal`), and `Hal.Done`
  says that they do what the comments say.  The frame rate that `SDL_UpdateRect` writes into the
  corner of a picture is left out.
-/

import Nemu.Pal.RleOverlay

namespace Nemu.Pal

open Outcome

/-- The surfaces of the game. -/
structure Surface.Screen (surface : Surface) : Prop extends surface.Fits where
  w : surface.w = 320
  h : surface.h = 200

structure SDL_Rect where
  x : BitVec 16
  y : BitVec 16
  w : BitVec 16
  h : BitVec 16

/-! ## What is still to be done -/

/-- The two loops, with the pixels that they are to leave on `dst`. -/
structure Hal where
  copyPixels (src dst : Surface) (sx sy w h dx dy : Int) (source pixels : Nat → Byte) :
    Except Fault (Nat → Byte)
  fillPixels (dst : Surface) (x y w h : Int) (color : BitVec 32) (pixels : Nat → Byte) :
    Except Fault (Nat → Byte)

namespace Hal

/-- As the repository has them. -/
def todo : Hal where
  copyPixels _ _ _ _ _ _ _ _ _ _ := .error .assertion
  fillPixels _ _ _ _ _ _ _ := .error .assertion

/-- What their comments say, for rectangles that lie on the surfaces. -/
structure Done (hal : Hal) : Prop where
  /-- Copy pixels from position (`sx`, `sy`) with size `w` X `h` of `src` surface to position
      (`dx`, `dy`) of `dst` surface. -/
  copies : ∀ {src dst : Surface} {sx sy w h dx dy : Nat}, src.Fits → dst.Fits → sx + w ≤ src.w →
    sy + h ≤ src.h → dx + w ≤ dst.w → dy + h ≤ dst.h → ∀ source pixels : Nat → Byte,
      ∃ pixels', hal.copyPixels src dst sx sy w h dx dy source pixels = .ok pixels' ∧
        (∀ i j, i < w → j < h →
          pixels' ((dy + j) * dst.pitch + (dx + i)) = source ((sy + j) * src.pitch + (sx + i))) ∧
        ∀ p, (¬∃ i j, i < w ∧ j < h ∧ p = (dy + j) * dst.pitch + (dx + i)) → pixels' p = pixels p
  /-- Fill the rectangle area in surface `dst` with color `color`. -/
  fills : ∀ {dst : Surface} {x y w h : Nat}, dst.Fits → x + w ≤ dst.w → y + h ≤ dst.h →
    ∀ (color : BitVec 32) (pixels : Nat → Byte),
      ∃ pixels', hal.fillPixels dst x y w h color pixels = .ok pixels' ∧
        (∀ i j, i < w → j < h → pixels' ((y + j) * dst.pitch + (x + i)) = color.setWidth 8) ∧
        ∀ p, (¬∃ i j, i < w ∧ j < h ∧ p = (y + j) * dst.pitch + (x + i)) → pixels' p = pixels p

end Hal

/-! ## `hal/video.c` -/

section

variable (hal : Hal)

/-- With both rectangles; what is left in `dstrect` comes back with the pixels of `dst`. -/
def sdlBlitSurface (src : Surface) (srcrect : SDL_Rect) (dst : Surface) (dstrect : SDL_Rect)
    (source pixels : Nat → Byte) : Except Fault ((Nat → Byte) × SDL_Rect) := do
  let sx := srcrect.x.toInt
  let sy := srcrect.y.toInt
  let dx := dstrect.x.toInt
  let dy := dstrect.y.toInt
  let w : Int := srcrect.w.toNat
  let h : Int := srcrect.h.toNat
  let w := if dst.w - dx < w then dst.w - dx else w
  let h := if dst.h - dy < h then dst.h - dy else h
  let pixels ← hal.copyPixels src dst sx sy w h dx dy source pixels
  return (pixels, { dstrect with w := .ofInt 16 w, h := .ofInt 16 h })

def sdlFillRect (dst : Surface) (dstrect : SDL_Rect) (color : BitVec 32) (pixels : Nat → Byte) :
    Except Fault (Nat → Byte) :=
  if color ≤ 0xff then
    hal.fillPixels dst dstrect.x.toInt dstrect.y.toInt dstrect.w.toNat dstrect.h.toNat color pixels
  else .error .assertion

def sdlSoftStretch (src : Surface) (srcrect : Option SDL_Rect) (dst : Surface) (dstrect : SDL_Rect)
    (source pixels : Nat → Byte) : Except Fault ((Nat → Byte) × SDL_Rect) :=
  let x := srcrect.elim 0 (·.x.toInt)
  let y := srcrect.elim 0 (·.y.toInt)
  let w : Int := srcrect.elim src.w (·.w.toNat)
  let h : Int := srcrect.elim src.h (·.h.toNat)
  if w = dstrect.w.toNat ∧ h = dstrect.h.toNat then
    sdlBlitSurface hal src ⟨.ofInt 16 x, .ofInt 16 y, .ofInt 16 w, .ofInt 16 h⟩ dst dstrect source
      pixels
  else .error .assertion

end

-- the surface of the screen has the flag `SDL_HWSURFACE`
def sdlUpdateRect (screen : Surface) : Except Fault Unit :=
  if screen.pitch = 320 then .ok () else .error .assertion

/-! ## `device/video.c` -/

/-- The pixels of `gpScreenReal`, and how often the screen is still to be shaken. -/
structure Display where
  pixels : Nat → Byte
  g_wShakeTime : BitVec 16

section

variable (hal : Hal) (gpScreen gpScreenReal : Surface) (g_wShakeLevel : BitVec 16)

/-- A whole surface, of the size of `gpScreen`; `bScaleScreen` is `TRUE`. -/
def drawWhole (source : Nat → Byte) (d : Display) : Except Fault Display := do
  let screenRealHeight : BitVec 16 := .ofNat 16 gpScreenReal.h
  let dstrect : SDL_Rect := ⟨0, 0, .ofNat 16 gpScreenReal.w, screenRealHeight⟩
  let (pixels, _) ← sdlSoftStretch hal gpScreen none gpScreenReal dstrect source d.pixels
  sdlUpdateRect gpScreenReal
  return { d with pixels := pixels }

/-- A surface is shaken up and down in turn. -/
def drawShaken (source : Nat → Byte) (d : Display) : Except Fault Display := do
  let level : Int := g_wShakeLevel.toNat
  let screenRealHeight := (BitVec.ofNat 16 gpScreenReal.h).toInt
  let screenRealY : Int := 0
  let up := d.g_wShakeTime &&& 1 ≠ 0
  let srcrect : SDL_Rect := ⟨0, if up then g_wShakeLevel else 0, 320, .ofInt 16 (200 - level)⟩
  let dstrect : SDL_Rect := {
    x := 0
    y := if up then .ofInt 16 screenRealY
      else .ofInt 16 (((screenRealY + level) * screenRealHeight).tdiv gpScreen.h)
    w := .ofInt 16 ((320 * (gpScreenReal.w : Int)).tdiv gpScreen.w)
    h := .ofInt 16 (((200 - level) * screenRealHeight).tdiv gpScreen.h) }
  let (pixels, dstrect) ← sdlSoftStretch hal gpScreen (some srcrect) gpScreenReal dstrect source d.pixels
  let dstrect : SDL_Rect := { dstrect with
    y := if up then
        .ofInt 16 (((screenRealY + screenRealHeight - level) * screenRealHeight).tdiv gpScreen.h)
      else .ofInt 16 screenRealY
    h := .ofInt 16 ((level * screenRealHeight).tdiv gpScreen.h) }
  let pixels ← sdlFillRect hal gpScreenReal dstrect 0 pixels
  sdlUpdateRect gpScreenReal
  return { pixels := pixels, g_wShakeTime := d.g_wShakeTime - 1 }

/-- What `VIDEO_UpdateScreen` and `VIDEO_FadeScreen` do to show a surface. -/
def drawSurface (source : Nat → Byte) (d : Display) : Except Fault Display :=
  if d.g_wShakeTime ≠ 0 then drawShaken hal gpScreen gpScreenReal g_wShakeLevel source d
  else drawWhole hal gpScreen gpScreenReal source d

/-- `VIDEO_UpdateScreen(NULL)`, with the pixels of `gpScreen`. -/
def videoUpdateScreen (pixels : Nat → Byte) (d : Display) : Except Fault Display :=
  drawSurface hal gpScreen gpScreenReal g_wShakeLevel pixels d

end

/-! ## What is seen -/

/-- The pixels of a picture on the screen, and the rest of the video memory as it was. -/
def onScreen (picture : Nat → Nat → Byte) (old : Nat → Byte) : Nat → Byte := fun p =>
  if p < 64000 then picture (p % 320) (p / 320) else old p

/-- A picture while the screen is to be shaken `time` times more: in odd turns it is moved up and
    in even ones down, and the rows that it leaves are black. -/
def shaken (level time : Nat) (picture : Nat → Nat → Byte) : Nat → Nat → Byte := fun x y =>
  if time = 0 then picture x y
  else if time % 2 = 1 then if y + level < 200 then picture x (y + level) else 0
  else if level ≤ y then picture x (y - level) else 0

/-- The pixels of a surface by column and row. -/
def Surface.picture (surface : Surface) (pixels : Nat → Byte) : Nat → Nat → Byte := fun x y =>
  pixels (y * surface.pitch + x)

theorem onScreen_onScreen (a b : Nat → Nat → Byte) (old : Nat → Byte) :
    onScreen a (onScreen b old) = onScreen a old := by
  funext p
  simp only [onScreen]
  split <;> rfl

theorem toInt_word_of_lt {n : Nat} (h : n < 2 ^ 15) : (BitVec.ofNat 16 n).toInt = n := by
  rw [BitVec.toInt_eq_toNat_of_lt, BitVec.toNat_ofNat, Nat.mod_eq_of_lt (by omega)]
  rw [BitVec.toNat_ofNat]
  omega

-- both surfaces have 200 rows
theorem ofInt_scaled (n : Int) : BitVec.ofInt 16 ((n * 200).tdiv (200 : Nat)) = BitVec.ofInt 16 n :=
  congrArg _ (Int.mul_tdiv_cancel n (by decide))

theorem sdlUpdateRect_ok {screen : Surface} (hpitch : screen.pitch = 320) :
    sdlUpdateRect screen = .ok () := if_pos hpitch

/-- Rows `dy` to `dy + h` of the screen, when the rest is left alone. -/
theorem rows_eq {f : Nat → Nat → Byte} {pixels pixels' : Nat → Byte} {dy h : Nat}
    (hin : ∀ i j, i < 320 → j < h → pixels' ((dy + j) * 320 + (0 + i)) = f i j)
    (hout : ∀ p, (¬∃ i j, i < 320 ∧ j < h ∧ p = (dy + j) * 320 + (0 + i)) → pixels' p = pixels p)
    (p : Nat) :
    pixels' p = if dy ≤ p / 320 ∧ p / 320 < dy + h then f (p % 320) (p / 320 - dy) else pixels p := by
  by_cases hrow : dy ≤ p / 320 ∧ p / 320 < dy + h
  · have hp : (dy + (p / 320 - dy)) * 320 + (0 + p % 320) = p := by omega
    have hat := hin (p % 320) (p / 320 - dy) (Nat.mod_lt p (by decide)) (by omega)
    rw [hp] at hat
    rw [if_pos hrow, hat]
  · rw [if_neg hrow]
    refine hout p ?_
    rintro ⟨i, j, hi, hj, rfl⟩
    exact hrow (by omega)

section

variable {hal : Hal} (hhal : hal.Done) {gpScreen gpScreenReal : Surface}
  (hscreen : gpScreen.Screen) (hreal : gpScreenReal.Screen) (hpitch : gpScreenReal.pitch = 320)
include hhal hscreen hreal hpitch

/-- Rows of `gpScreen` from `sy` on are copied to rows of the screen from `dy` on. -/
theorem sdlSoftStretch_rows {srcrect : Option SDL_Rect} {sy dy h : Nat} (hsy : sy + h ≤ 200)
    (hdy : dy + h ≤ 200) (hx : srcrect.elim 0 (·.x.toInt) = 0)
    (hy : srcrect.elim 0 (·.y.toInt) = sy)
    (hw : srcrect.elim (gpScreen.w : Int) (·.w.toNat) = 320)
    (hh : srcrect.elim (gpScreen.h : Int) (·.h.toNat) = h) (source pixels : Nat → Byte) :
    ∃ pixels', sdlSoftStretch hal gpScreen srcrect gpScreenReal ⟨0, .ofNat 16 dy, 320, .ofNat 16 h⟩
        source pixels = .ok (pixels', ⟨0, .ofNat 16 dy, 320, .ofNat 16 h⟩) ∧
      ∀ p, pixels' p = if dy ≤ p / 320 ∧ p / 320 < dy + h
        then gpScreen.picture source (p % 320) (p / 320 - dy + sy) else pixels p := by
  have hsw := hscreen.w
  have hsh := hscreen.h
  have hrw := hreal.w
  have hrh := hreal.h
  obtain ⟨pixels', hrun, hin, hout⟩ := @Hal.Done.copies hal hhal gpScreen gpScreenReal 0 sy 320 h 0 dy
    hscreen.toFits hreal.toFits (by omega) (by omega) (by omega) (by omega) source pixels
  rw [hpitch] at hin hout
  have hheight : (BitVec.ofNat 16 h).toNat = h := by
    rw [BitVec.toNat_ofNat]
    omega
  refine ⟨pixels', ?_, rows_eq (f := fun x y => gpScreen.picture source x (y + sy))
    (fun i j hi hj => ?_) hout⟩
  · rw [sdlSoftStretch]
    simp only [hx, hy, hw, hh, hheight]
    rw [if_pos ⟨rfl, trivial⟩, sdlBlitSurface]
    simp only [hheight, BitVec.ofInt_natCast, toInt_word_of_lt (n := dy) (by omega),
      toInt_word_of_lt (n := sy) (by omega), hrw, hrh]
    rw [if_neg (by decide), if_neg (by omega)]
    show (hal.copyPixels gpScreen gpScreenReal 0 sy 320 h 0 dy source pixels >>= _) = _
    rw [show (0 : Int) = (0 : Nat) from rfl, show (320 : Int) = (320 : Nat) from rfl, hrun]
    rfl
  · rw [hin i j hi hj, Surface.picture, Nat.zero_add, Nat.add_comm sy j]

omit hscreen in
/-- Rows of the screen are blackened. -/
theorem sdlFillRect_rows {dy h : Nat} (hdy : dy + h ≤ 200) (pixels : Nat → Byte) :
    ∃ pixels', sdlFillRect hal gpScreenReal ⟨0, .ofNat 16 dy, 320, .ofNat 16 h⟩ 0 pixels = .ok pixels' ∧
      ∀ p, pixels' p = if dy ≤ p / 320 ∧ p / 320 < dy + h then 0 else pixels p := by
  have hrw := hreal.w
  have hrh := hreal.h
  obtain ⟨pixels', hrun, hin, hout⟩ := @Hal.Done.fills hal hhal gpScreenReal 0 dy 320 h
    hreal.toFits (by omega) (by omega) 0 pixels
  rw [hpitch] at hin hout
  have hheight : (BitVec.ofNat 16 h).toNat = h := by
    rw [BitVec.toNat_ofNat]
    omega
  refine ⟨pixels', ?_, rows_eq (f := fun _ _ => 0) (fun i j hi hj => hin i j hi hj) hout⟩
  rw [sdlFillRect, if_pos (by decide)]
  simp only [hheight, toInt_word_of_lt (n := dy) (by omega)]
  exact hrun

theorem drawWhole_eq (source : Nat → Byte) (d : Display) :
    drawWhole hal gpScreen gpScreenReal source d =
      .ok { d with pixels := onScreen (gpScreen.picture source) d.pixels } := by
  have hsw := hscreen.w
  have hsh := hscreen.h
  have hrw := hreal.w
  have hrh := hreal.h
  obtain ⟨pixels', hrun, hpixels⟩ := @sdlSoftStretch_rows hal hhal gpScreen gpScreenReal hscreen hreal
    hpitch none 0 0 200 (by omega) (by omega) rfl rfl (by rw [Option.elim_none, hsw]; rfl)
    (by rw [Option.elim_none, hsh]) source d.pixels
  have hshown : pixels' = onScreen (gpScreen.picture source) d.pixels := by
    funext p
    rw [hpixels, onScreen]
    exact if_congr (by omega) rfl rfl
  rw [drawWhole, hrw, hrh]
  show (sdlSoftStretch hal gpScreen none gpScreenReal ⟨0, .ofNat 16 0, 320, .ofNat 16 200⟩ source
    d.pixels >>= _) = _
  rw [hrun, ok_bind, hshown]
  dsimp only
  rw [sdlUpdateRect_ok hpitch]
  rfl

/-- Rows of `gpScreen` from `sy` on are put at row `dy`, and `level` rows from `top` on are blackened. -/
theorem drawRows_eq {level sy dy top : Nat} {word : BitVec 16} {picture : Nat → Nat → Byte}
    (hsy : sy ≤ level) (hdy : dy ≤ level) (htop : top + level ≤ 200) (hword : word.toInt = sy)
    (hall : ∀ y, y < 200 → (top ≤ y ∧ y < top + level) ∨ (dy ≤ y ∧ y < dy + (200 - level)))
    (source : Nat → Byte) (d : Display)
    (hpicture : ∀ x y, y < 200 → picture x y =
      if top ≤ y ∧ y < top + level then 0 else gpScreen.picture source x (y - dy + sy)) :
    (do
      let (pixels, dstrect) ← sdlSoftStretch hal gpScreen
        (some ⟨0, word, 320, .ofNat 16 (200 - level)⟩) gpScreenReal
        ⟨0, .ofNat 16 dy, 320, .ofNat 16 (200 - level)⟩ source d.pixels
      let pixels ← sdlFillRect hal gpScreenReal
        { dstrect with y := .ofNat 16 top, h := .ofNat 16 level } 0 pixels
      sdlUpdateRect gpScreenReal
      return ({ pixels := pixels, g_wShakeTime := d.g_wShakeTime - 1 } : Display)) =
      .ok { pixels := onScreen picture d.pixels, g_wShakeTime := d.g_wShakeTime - 1 } := by
  have hheight : ((BitVec.ofNat 16 (200 - level)).toNat : Int) = (200 - level : Nat) := by
    rw [BitVec.toNat_ofNat]
    omega
  obtain ⟨pixels, hrun, hpixels⟩ := @sdlSoftStretch_rows hal hhal gpScreen gpScreenReal hscreen hreal
    hpitch (some ⟨0, word, 320, .ofNat 16 (200 - level)⟩) sy dy (200 - level) (by omega) (by omega) rfl
    hword rfl hheight source d.pixels
  obtain ⟨pixels', hfill, hpixels'⟩ := @sdlFillRect_rows hal hhal gpScreenReal hreal hpitch top level
    htop pixels
  have hshown : pixels' = onScreen picture d.pixels := by
    funext p
    rw [hpixels', hpixels, onScreen]
    by_cases hp : p < 64000
    · rw [if_pos hp, hpicture _ _ (by omega)]
      by_cases hblack : top ≤ p / 320 ∧ p / 320 < top + level
      · rw [if_pos hblack, if_pos hblack]
      · rw [if_neg hblack, if_neg hblack, if_pos ((hall _ (by omega)).resolve_left hblack)]
    · rw [if_neg (by omega), if_neg (by omega), if_neg hp]
  rw [hrun, ok_bind]
  dsimp only
  rw [hfill, ok_bind, sdlUpdateRect_ok hpitch, hshown]
  rfl

theorem drawShaken_eq {g_wShakeLevel : BitVec 16} (hlevel : g_wShakeLevel.toNat ≤ 200)
    (source : Nat → Byte) {d : Display} (htime : d.g_wShakeTime ≠ 0) :
    drawShaken hal gpScreen gpScreenReal g_wShakeLevel source d = .ok {
      pixels := onScreen (shaken g_wShakeLevel.toNat d.g_wShakeTime.toNat (gpScreen.picture source))
        d.pixels
      g_wShakeTime := d.g_wShakeTime - 1 } := by
  have hheight : (BitVec.ofNat 16 200).toInt = 200 := rfl
  have hodd : d.g_wShakeTime &&& 1 ≠ 0 ↔ d.g_wShakeTime.toNat % 2 = 1 := by
    rw [ne_eq, ← BitVec.toNat_inj, BitVec.toNat_and]
    show ¬(d.g_wShakeTime.toNat &&& 1) = 0 ↔ _
    rw [Nat.and_one_is_mod]
    omega
  have hpos : d.g_wShakeTime.toNat ≠ 0 := fun h => htime (BitVec.eq_of_toNat_eq h)
  have hup : g_wShakeLevel.toInt = g_wShakeLevel.toNat :=
    BitVec.toInt_eq_toNat_of_lt (by omega)
  obtain ⟨level, hword⟩ : ∃ level, level = g_wShakeLevel.toNat := ⟨_, rfl⟩
  rw [← hword] at hlevel hup ⊢
  have hrest : BitVec.ofInt 16 (200 - level) = BitVec.ofNat 16 (200 - level) := by
    rw [show (200 : Int) - level = (200 - level : Nat) by omega, BitVec.ofInt_natCast]
  rw [drawShaken]
  simp only [hscreen.w, hscreen.h, hreal.w, hreal.h, hheight, ← hword, hodd, Int.zero_add, ofInt_scaled,
    hrest, BitVec.ofInt_natCast]
  by_cases htime : d.g_wShakeTime.toNat % 2 = 1
  · simp only [if_pos htime]
    refine drawRows_eq hhal hscreen hreal hpitch (Nat.le_refl level) (Nat.zero_le level) (by omega) hup
      (by omega) source d fun x y hy => ?_
    rw [shaken, if_neg hpos, if_pos htime]
    by_cases hrow : y + level < 200
    · rw [if_pos hrow, if_neg (by omega), Nat.sub_zero]
    · rw [if_neg hrow, if_pos (by omega)]
  · simp only [if_neg htime]
    have htop : 0 + level ≤ 200 := by omega
    refine drawRows_eq hhal hscreen hreal hpitch (Nat.zero_le level) (Nat.le_refl level) htop rfl
      (by omega) source d fun x y hy => ?_
    rw [shaken, if_neg hpos, if_neg htime]
    by_cases hrow : level ≤ y
    · rw [if_pos hrow, if_neg (by omega), Nat.add_zero]
    · rw [if_neg hrow, if_pos (by omega)]

/-- A surface is shown, shaken as long as it is its time. -/
theorem drawSurface_eq {g_wShakeLevel : BitVec 16} (hlevel : g_wShakeLevel.toNat ≤ 200)
    (source : Nat → Byte) (d : Display) :
    drawSurface hal gpScreen gpScreenReal g_wShakeLevel source d = .ok {
      pixels := onScreen (shaken g_wShakeLevel.toNat d.g_wShakeTime.toNat (gpScreen.picture source))
        d.pixels
      g_wShakeTime := .ofNat 16 (d.g_wShakeTime.toNat - 1) } := by
  obtain ⟨old, time⟩ := d
  rw [drawSurface]
  by_cases htime : time = 0
  · subst htime
    rw [if_neg (not_not_intro rfl), drawWhole_eq hhal hscreen hreal hpitch]
    rfl
  · have hpos : 0 < time.toNat := Nat.pos_of_ne_zero fun h => htime (BitVec.eq_of_toNat_eq h)
    have hnext : time - 1 = .ofNat 16 (time.toNat - 1) := by
      have hlt := time.isLt
      apply BitVec.eq_of_toNat_eq
      rw [BitVec.toNat_sub, BitVec.toNat_ofNat, show (1 : BitVec 16).toNat = 1 from rfl]
      omega
    rw [if_pos htime, drawShaken_eq hhal hscreen hreal hpitch hlevel source htime, hnext]

end

/-- As the repository stands, a surface is never shown. -/
theorem drawSurface_todo (gpScreen gpScreenReal : Surface) (g_wShakeLevel : BitVec 16)
    (source : Nat → Byte) (d : Display) :
    drawSurface .todo gpScreen gpScreenReal g_wShakeLevel source d = .error .assertion := by
  have hstretch : ∀ srcrect dstrect pixels,
      sdlSoftStretch .todo gpScreen srcrect gpScreenReal dstrect source pixels = .error .assertion := by
    intro srcrect dstrect pixels
    rw [sdlSoftStretch]
    split <;> rfl
  rw [drawSurface]
  split
  · simp only [drawShaken, hstretch, error_bind]
  · simp only [drawWhole, hstretch, error_bind]

/-- What is seen of pictures that are shown one after the other. -/
def seen (level : Nat) (old : Nat → Byte) (time : Nat) (ps : List (Nat → Nat → Byte)) :
    List (Nat → Byte) :=
  ps.mapIdx fun j p => onScreen (shaken level (time - j) p) old

theorem seen_cons (level : Nat) (old : Nat → Byte) (time : Nat) (p : Nat → Nat → Byte)
    (ps : List (Nat → Nat → Byte)) : seen level old time (p :: ps) =
      onScreen (shaken level time p) old ::
        seen level (onScreen (shaken level time p) old) (time - 1) ps := by
  simp only [seen, List.mapIdx_cons, onScreen_onScreen, Nat.sub_zero, Nat.sub_sub, Nat.add_comm 1]

theorem length_seen (level : Nat) (old : Nat → Byte) (time : Nat) (ps : List (Nat → Nat → Byte)) :
    (seen level old time ps).length = ps.length := List.length_mapIdx

theorem seen_getElem? {level : Nat} {old : Nat → Byte} {time : Nat} {ps : List (Nat → Nat → Byte)}
    {j : Nat} {s : Nat → Byte} (h : (seen level old time ps)[j]? = some s) :
    ∃ p, ps[j]? = some p ∧ onScreen (shaken level (time - j) p) old = s := by
  rw [seen, List.getElem?_mapIdx] at h
  exact Option.map_eq_some_iff.mp h

theorem onScreen_pixel {picture : Nat → Nat → Byte} {old : Nat → Byte} {x y : Nat} (hx : x < 320)
    (hy : y < 200) : onScreen picture old (y * 320 + x) = picture x y := by
  rw [onScreen, if_pos (by omega), show (y * 320 + x) % 320 = x by omega,
    show (y * 320 + x) / 320 = y by omega]

theorem shaken_congr {level time : Nat} {p q : Nat → Nat → Byte}
    (h : ∀ x y, x < 320 → y < 200 → p x y = q x y) {x y : Nat} (hx : x < 320) (hy : y < 200) :
    shaken level time p x y = shaken level time q x y := by
  simp only [shaken]
  split
  · exact h x y hx hy
  split
  · split
    · exact h _ _ hx ‹_›
    · rfl
  split
  · exact h _ _ hx (by omega)
  · rfl

/-! ## With the loops written -/

/-- A pixel of a rectangle from column `x` and row `y` on, of `w` columns and `h` rows. -/
def Surface.inRect (surface : Surface) (x y w h : Int) (p : Nat) : Bool :=
  let i : Int := (p % surface.pitch : Nat)
  let j : Int := (p / surface.pitch : Nat)
  decide (x ≤ i ∧ i < x + w ∧ y ≤ j ∧ j < y + h)

/-- The obvious way to write them. -/
def Hal.plain : Hal where
  copyPixels src dst sx sy w h dx dy source pixels := .ok fun p =>
    if dst.inRect dx dy w h p then
      let i := (p % dst.pitch : Nat) - dx + sx
      let j := (p / dst.pitch : Nat) - dy + sy
      source (j * src.pitch + i).toNat
    else pixels p
  fillPixels dst x y w h color pixels := .ok fun p =>
    if dst.inRect x y w h p then color.setWidth 8 else pixels p

theorem row_of_index {pitch x y : Nat} (hx : x < pitch) : (y * pitch + x) / pitch = y := by
  rw [Nat.add_comm, Nat.add_mul_div_right _ _ (by omega), Nat.div_eq_of_lt hx, Nat.zero_add]

theorem Surface.inRect_iff {surface : Surface} (hfits : surface.Fits) {x y w h : Nat}
    (hw : x + w ≤ surface.w) (p : Nat) : surface.inRect x y w h p = true ↔
      ∃ i j, i < w ∧ j < h ∧ p = (y + j) * surface.pitch + (x + i) := by
  have hrow := hfits.row
  rw [Surface.inRect, decide_eq_true_iff]
  constructor
  · rintro ⟨hx, hxw, hy, hyh⟩
    refine ⟨p % surface.pitch - x, p / surface.pitch - y, by omega, by omega, ?_⟩
    rw [Nat.add_sub_cancel' (by omega), Nat.add_sub_cancel' (by omega), Nat.div_add_mod']
  · rintro ⟨i, j, hi, hj, rfl⟩
    rw [Nat.mul_add_mod_of_lt (by omega), row_of_index (by omega)]
    omega

theorem Hal.plain_done : Hal.plain.Done where
  copies := by
    intro src dst sx sy w h dx dy hsrc hdst hsw hsh hdw hdh source pixels
    refine ⟨_, rfl, fun i j hi hj => ?_, fun p hp => ?_⟩
    · have hrow := hdst.row
      rw [if_pos ((Surface.inRect_iff hdst hdw _).mpr ⟨i, j, hi, hj, rfl⟩),
        Nat.mul_add_mod_of_lt (by omega), row_of_index (by omega)]
      have hcolumn : ((dx + i : Nat) : Int) - dx + sx = (sx + i : Nat) := by omega
      have hline : ((dy + j : Nat) : Int) - dy + sy = (sy + j : Nat) := by omega
      dsimp only
      rw [hcolumn, hline, ← Int.natCast_mul, ← Int.natCast_add, Int.toNat_natCast]
    · exact if_neg fun h => hp ((Surface.inRect_iff hdst hdw p).mp h)
  fills := by
    intro dst x y w h hdst hw hh color pixels
    refine ⟨_, rfl, fun i j hi hj => ?_, fun p hp => ?_⟩
    · exact if_pos ((Surface.inRect_iff hdst hw _).mpr ⟨i, j, hi, hj, rfl⟩)
    · exact if_neg fun h => hp ((Surface.inRect_iff hdst hw p).mp h)

end Nemu.Pal
