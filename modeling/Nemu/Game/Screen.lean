/-
  Nemu.Game.Screen

  What the typing game shows: `video.c` of the game's common code and `draw.c`.

  `redraw_screen` puts the letters, the counters and the last key on the screen without a
  failed assertion, from every state that the game reaches; the picture is that of all
  glyphs on black, each over those drawn before it.  The bitmaps of the font are a parameter.
-/

import Nemu.Common
import Nemu.Game.Board
import Nemu.Lib.Paint
import Mathlib.Data.Nat.Digits.Lemmas

namespace Nemu

open LinkedList LinkList Outcome Paint

namespace Typing

/-! ## `video.c` -/

def SCR_SIZE : Nat := SCR_WIDTH * SCR_HEIGHT

/-- `vbuf`, and what is copied from it to `VMEM_ADDR`. -/
abbrev VBuf := Fin SCR_SIZE → Byte

-- `vmem` points to `vbuf`
def drawPixel (x y : Int) (color : Byte) (vmem : VBuf) : Except GameStop VBuf :=
  if h : 0 ≤ x ∧ 0 ≤ y ∧ x < SCR_HEIGHT ∧ y < SCR_WIDTH then
    .ok (Function.update vmem
      ⟨(x.toNat <<< 8) + (x.toNat <<< 6) + y.toNat, by
        obtain ⟨hx₀, hy₀, hx, hy⟩ := h
        rw [SCR_HEIGHT] at hx
        rw [SCR_WIDTH] at hy
        rw [Nat.shiftLeft_eq, Nat.shiftLeft_eq, SCR_SIZE, SCR_WIDTH, SCR_HEIGHT]
        omega⟩
      color)
  else .error .assertion

section Font

-- `font8x8_basic`
variable (font8x8_basic : Nat → Nat → Byte)

def drawCharacter (ch : Byte) (x y : Int) (color : Byte) (vmem : VBuf) : Except GameStop VBuf :=
  if ch &&& 0x80 = 0 then
    (List.range 8).foldlM (fun vmem i =>
      (List.range 8).foldlM (fun vmem j =>
        if (font8x8_basic ch.toNat i).getLsbD j then drawPixel (x + (i : Nat)) (y + (j : Nat)) color vmem
        else .ok vmem) vmem) vmem
  else .error .assertion

def drawString : List Byte → Int → Int → Byte → VBuf → Except GameStop VBuf
  | [], _, _, _, vmem => .ok vmem
  | ch :: str, x, y, color, vmem => do
      let vmem ← drawCharacter font8x8_basic ch x y color vmem
      if y + 8 ≥ SCR_WIDTH then drawString str (x + 8) 0 color vmem
      else drawString str x (y + 8) color vmem

/-! ## `draw.c` -/

-- `"%d"` of a number that is not negative
def digits (n : Nat) : List Byte :=
  if n = 0 then [0x30]
  else (Nat.digits 10 n).reverse.map fun d => 0x30 + BitVec.ofNat 8 d

/-- `itoa`; `snprintf` stores at most 29 characters. -/
def itoa (a : Int) : List Byte :=
  (if a < 0 then 0x2d :: digits a.natAbs else digits a.natAbs).take 29

-- the string of one letter
def letterText (letter : Letter) : List Byte := [BitVec.ofInt 8 (letter.text + 65)]

/-- The loop of `redraw_screen` over the letters from `it` on. -/
def drawLetters : Nat → Option FlyPtr → State → VBuf → Except GameStop VBuf
  | _, none, _, vmem => .ok vmem
  | 0, some _, _, _ => .error .outOfFuel
  | fuel + 1, some it, s, vmem => do
      let letter := s.fly.data it
      let vmem ← drawString font8x8_basic (letterText letter) (FLOAT.f2Int letter.x).toInt letter.y 15
        vmem
      drawLetters fuel (s.fly.next it) s vmem

-- `"FPS"`
def fpsLabel : List Byte := [0x46, 0x50, 0x53]

/-- `redraw_screen`, with the values of `last_key_code()` and `get_fps()`; its result is what
    `display_buffer` copies to the video memory. -/
def redrawScreen (s : State) (key_code fps : Int) : Except GameStop VBuf := do
  let vmem : VBuf := fun _ => 0
  let vmem ← drawLetters font8x8_basic (FLY_SIZE + 1) s.head s vmem
  let vmem ← drawString font8x8_basic (itoa key_code) (SCR_HEIGHT - 8) 0 48 vmem
  let hit := itoa s.hit
  let vmem ← drawString font8x8_basic hit 0 (SCR_WIDTH - hit.length * 8) 10 vmem
  let miss := itoa s.miss
  let vmem ← drawString font8x8_basic miss (SCR_HEIGHT - 8) (SCR_WIDTH - miss.length * 8) 12 vmem
  let vmem ← drawString font8x8_basic (itoa fps) 0 0 14 vmem
  drawString font8x8_basic fpsLabel 0 ((itoa fps).length * 8) 14 vmem

end Font

/-! ## Glyphs -/

/-- A character at a place of the screen. -/
structure Glyph where
  ch : Byte
  row : Nat
  col : Nat
  color : Byte
deriving DecidableEq, Repr

-- row and column of a place in the buffer
def rowOf (p : Fin SCR_SIZE) : Nat := p.val / SCR_WIDTH

def colOf (p : Fin SCR_SIZE) : Nat := p.val % SCR_WIDTH

/-- The places that the bits of a glyph cover. -/
def Glyph.layer (font8x8_basic : Nat → Nat → Byte) (g : Glyph) : Layer (Fin SCR_SIZE) Byte :=
  fun p =>
    if g.row ≤ rowOf p ∧ rowOf p < g.row + 8 ∧ g.col ≤ colOf p ∧ colOf p < g.col + 8 ∧
      (font8x8_basic g.ch.toNat (rowOf p - g.row)).getLsbD (colOf p - g.col) = true
    then some g.color else none

/-- The glyphs of a string in one line. -/
def line (color : Byte) (row : Nat) : Nat → List Byte → List Glyph
  | _, [] => []
  | col, ch :: str => { ch := ch, row := row, col := col, color := color } :: line color row (col + 8) str

def Falling.glyph (a : Falling) : Glyph :=
  { ch := BitVec.ofNat 8 (a.text.val + 65), row := (a.x / 65536).toNat, col := a.y.toNat, color := 15 }

/-- The picture of a board, in the order of drawing. -/
def Board.glyphs (b : Board) (key_code fps : Int) : List Glyph :=
  b.letters.map Falling.glyph
    ++ line 48 192 0 (itoa key_code)
    ++ line 10 0 (320 - (itoa b.hit).length * 8) (itoa b.hit)
    ++ line 12 192 (320 - (itoa b.miss).length * 8) (itoa b.miss)
    ++ line 14 0 0 (itoa fps)
    ++ line 14 0 ((itoa fps).length * 8) fpsLabel

/-! ## Drawing -/

section Draw

variable (font8x8_basic : Nat → Nat → Byte)

def place (row col : Nat) : Fin SCR_SIZE :=
  ⟨(row * SCR_WIDTH + col) % SCR_SIZE, Nat.mod_lt _ (by decide)⟩

theorem eq_place_iff {p : Fin SCR_SIZE} {row col : Nat} (hrow : row < 200) (hcol : col < 320) :
    p = place row col ↔ rowOf p = row ∧ colOf p = col := by
  have hp : p.val < 64000 := p.isLt
  rw [Fin.ext_iff, rowOf, colOf, place]
  show p.val = (row * 320 + col) % 64000 ↔ p.val / 320 = row ∧ p.val % 320 = col
  omega

theorem drawPixel_draws {row col : Nat} (hrow : row < 200) (hcol : col < 320) (color : Byte) :
    Draws (drawPixel row col color) (dot (place row col) color) := by
  intro vmem
  have hin : 0 ≤ (row : Int) ∧ 0 ≤ (col : Int) ∧ (row : Int) < SCR_HEIGHT ∧ (col : Int) < SCR_WIDTH := by
    rw [SCR_HEIGHT, SCR_WIDTH]
    omega
  rw [drawPixel, dif_pos hin, overlay_dot]
  congr 2
  apply Fin.ext
  show ((row : Int).toNat <<< 8) + ((row : Int).toNat <<< 6) + (col : Int).toNat
    = (row * 320 + col) % 64000
  rw [Int.toNat_natCast, Int.toNat_natCast, Nat.shiftLeft_eq, Nat.shiftLeft_eq]
  omega

-- one turn of the two loops
def bitLayer (g : Glyph) (i j : Nat) : Layer (Fin SCR_SIZE) Byte :=
  if (font8x8_basic g.ch.toNat i).getLsbD j then dot (place (g.row + i) (g.col + j)) g.color
  else blank

theorem bitLayer_eq_some {g : Glyph} (hrow : g.row + 8 ≤ 200) (hcol : g.col + 8 ≤ 320) {i j : Nat}
    (hi : i < 8) (hj : j < 8) {p : Fin SCR_SIZE} {d : Byte} :
    bitLayer font8x8_basic g i j p = some d ↔
      (font8x8_basic g.ch.toNat i).getLsbD j = true ∧ rowOf p = g.row + i ∧ colOf p = g.col + j ∧
        d = g.color := by
  rw [bitLayer]
  by_cases hbit : (font8x8_basic g.ch.toNat i).getLsbD j = true
  · rw [if_pos hbit, dot, ← and_assoc (a := rowOf p = _), ← eq_place_iff (by omega) (by omega)]
    by_cases hp : p = place (g.row + i) (g.col + j)
    · rw [if_pos hp]
      simp only [hbit, hp, true_and, Option.some.injEq, eq_comm]
    · rw [if_neg hp]
      exact iff_of_false (Option.some_ne_none d).symm (fun h => hp h.2.1)
  · rw [if_neg hbit]
    exact iff_of_false (Option.some_ne_none d).symm (fun h => hbit h.1)

/-- The two loops of `draw_character` paint the glyph. -/
theorem picture_bitLayer {g : Glyph} (hrow : g.row + 8 ≤ 200) (hcol : g.col + 8 ≤ 320) :
    picture ((List.range 8).map fun i =>
        picture ((List.range 8).map fun j => bitLayer font8x8_basic g i j))
      = g.layer font8x8_basic := by
  have hsome : ∀ {p : Fin SCR_SIZE} {d : Byte} {i : Nat}, i < 8 →
      picture ((List.range 8).map fun j => bitLayer font8x8_basic g i j) p = some d →
      d = g.color ∧ ∃ j < 8, bitLayer font8x8_basic g i j p = some d := by
    intro p d i hi h
    obtain ⟨l, hl, hld⟩ := picture_eq_some h
    obtain ⟨j, hj, rfl⟩ := List.mem_map.mp hl
    have hj' := List.mem_range.mp hj
    exact ⟨((bitLayer_eq_some font8x8_basic hrow hcol hi hj').mp hld).2.2.2, j, hj', hld⟩
  funext p
  rw [Glyph.layer]
  by_cases hcov : g.row ≤ rowOf p ∧ rowOf p < g.row + 8 ∧ g.col ≤ colOf p ∧ colOf p < g.col + 8 ∧
      (font8x8_basic g.ch.toNat (rowOf p - g.row)).getLsbD (colOf p - g.col) = true
  · obtain ⟨hr₀, hr₁, hc₀, hc₁, hbit⟩ := hcov
    rw [if_pos ⟨hr₀, hr₁, hc₀, hc₁, hbit⟩]
    have hi : rowOf p - g.row < 8 := by omega
    have hj : colOf p - g.col < 8 := by omega
    have hdot : bitLayer font8x8_basic g (rowOf p - g.row) (colOf p - g.col) p = some g.color :=
      (bitLayer_eq_some font8x8_basic hrow hcol hi hj).mpr ⟨hbit, by omega, by omega, rfl⟩
    refine picture_uniform (fun l hl d hld => ?_)
      ⟨_, List.mem_map.mpr ⟨rowOf p - g.row, List.mem_range.mpr hi, rfl⟩, ?_⟩
    · obtain ⟨i, hi, rfl⟩ := List.mem_map.mp hl
      exact (hsome (List.mem_range.mp hi) hld).1
    · refine picture_uniform (fun l hl d hld => ?_)
        ⟨_, List.mem_map.mpr ⟨colOf p - g.col, List.mem_range.mpr hj, rfl⟩, hdot⟩
      obtain ⟨j, hj, rfl⟩ := List.mem_map.mp hl
      exact ((bitLayer_eq_some font8x8_basic hrow hcol hi (List.mem_range.mp hj)).mp hld).2.2.2
  · rw [if_neg hcov]
    cases hp : picture ((List.range 8).map fun i =>
        picture ((List.range 8).map fun j => bitLayer font8x8_basic g i j)) p with
    | none => rfl
    | some d =>
        exfalso
        obtain ⟨l, hl, hld⟩ := picture_eq_some hp
        obtain ⟨i, hi, rfl⟩ := List.mem_map.mp hl
        have hi' := List.mem_range.mp hi
        obtain ⟨-, j, hj, hdot⟩ := hsome hi' hld
        obtain ⟨hbit, hr, hc, -⟩ := (bitLayer_eq_some font8x8_basic hrow hcol hi' hj).mp hdot
        apply hcov
        rw [hr, hc, Nat.add_sub_cancel_left, Nat.add_sub_cancel_left]
        exact ⟨by omega, by omega, by omega, by omega, hbit⟩

theorem drawCharacter_draws {g : Glyph} (hch : g.ch &&& 0x80 = 0) (hrow : g.row + 8 ≤ 200)
    (hcol : g.col + 8 ≤ 320) :
    Draws (drawCharacter font8x8_basic g.ch g.row g.col g.color) (g.layer font8x8_basic) := by
  intro vmem
  rw [drawCharacter, if_pos hch, ← picture_bitLayer font8x8_basic hrow hcol]
  refine draws_foldlM (fun i hi => draws_foldlM (fun j hj => ?_)) vmem
  have hi' := List.mem_range.mp hi
  have hj' := List.mem_range.mp hj
  intro v
  dsimp only
  rw [bitLayer]
  by_cases hbit : (font8x8_basic g.ch.toNat i).getLsbD j = true
  · rw [if_pos hbit, if_pos hbit, ← Int.natCast_add, ← Int.natCast_add]
    exact drawPixel_draws (by omega) (by omega) g.color v
  · rw [if_neg hbit, if_neg hbit]
    rfl

/-- A string that fits into its line. -/
theorem drawString_draws (color : Byte) {row : Nat} (hrow : row + 8 ≤ 200) (str : List Byte) :
    ∀ {col : Nat}, (∀ ch ∈ str, ch &&& 0x80 = 0) → col + 8 * str.length ≤ 320 →
      Draws (drawString font8x8_basic str row col color)
        (picture ((line color row col str).map (Glyph.layer font8x8_basic))) := by
  induction str with
  | nil => exact fun _ _ => draws_nothing
  | cons ch str ih =>
      intro col hch hcol
      rw [List.length_cons] at hcol
      have hhead := drawCharacter_draws font8x8_basic
        (g := { ch := ch, row := row, col := col, color := color }) (hch ch (List.mem_cons_self ..))
        hrow (by dsimp only; omega)
      have hrest := @ih (col + 8) (fun c hc => hch c (List.mem_cons_of_mem _ hc)) (by omega)
      refine hhead.bind fun vmem => ?_
      by_cases hedge : (col : Int) + 8 ≥ SCR_WIDTH
      · -- nothing comes after the last column
        rw [SCR_WIDTH] at hedge
        obtain rfl : str = [] := List.length_eq_zero_iff.mp (by omega)
        split <;> rfl
      · rw [if_neg hedge]
        exact hrest vmem

/-! ## Numbers -/

theorem digits_ascii (n : Nat) : ∀ ch ∈ digits n, ch &&& 0x80 = 0 := by
  have hdigit : ∀ d, d < 10 → (0x30 + BitVec.ofNat 8 d : Byte) &&& 0x80 = 0 := by decide
  intro ch hch
  rw [digits] at hch
  by_cases hn : n = 0
  · rw [if_pos hn, List.mem_singleton] at hch
    subst hch
    decide
  · rw [if_neg hn] at hch
    obtain ⟨d, hd, rfl⟩ := List.mem_map.mp hch
    exact hdigit d (Nat.digits_lt_base (by decide) (List.mem_reverse.mp hd))

theorem itoa_ascii (a : Int) : ∀ ch ∈ itoa a, ch &&& 0x80 = 0 := by
  intro ch hch
  rw [itoa] at hch
  have hch' := List.mem_of_mem_take hch
  by_cases ha : a < 0
  · rw [if_pos ha] at hch'
    rcases List.mem_cons.mp hch' with rfl | hch'
    · decide
    · exact digits_ascii _ ch hch'
  · rw [if_neg ha] at hch'
    exact digits_ascii _ ch hch'

theorem length_itoa_le (a : Int) : (itoa a).length ≤ 29 := by
  rw [itoa, List.length_take]
  exact Nat.min_le_left _ _

/-! ## The letters -/

/-- A letter whose glyph is on the screen. -/
def Falling.Framed (a : Falling) : Prop :=
  0 ≤ a.x ∧ a.x + 517734 ≤ 13107200 ∧ 0 ≤ a.y ∧ a.y ≤ 304

/-- `F2int` drops the fraction. -/
theorem toInt_f2Int {x : FLOAT} (hx : 0 ≤ x.toInt) : (FLOAT.f2Int x).toInt = x.toInt / 65536 := by
  have hmask : x &&& 0xffff0000#32 = (x >>> 16) <<< 16 := by
    apply BitVec.eq_of_getLsbD_eq
    intro i hi
    interval_cases i <;> simp
  have hmsb := BitVec.toInt_eq_toNat_cond x
  have hlt := x.isLt
  have hnat : x.toInt = x.toNat := by
    by_cases hcond : 2 * x.toNat < 2 ^ 32
    · rw [hmsb, if_pos hcond]
    · rw [hmsb, if_neg hcond] at hx
      omega
  have hval : ((x >>> 16) <<< 16).toNat = x.toNat / 65536 * 65536 := by
    rw [BitVec.toNat_shiftLeft, BitVec.toNat_ushiftRight, Nat.shiftRight_eq_div_pow,
      Nat.shiftLeft_eq, Nat.mod_eq_of_lt (by omega)]
  have hhalf : x.toNat < 2147483648 := by
    by_contra hge
    rw [hmsb, if_neg (by omega)] at hx
    omega
  have hclear : ((x >>> 16) <<< 16).toInt = x.toNat / 65536 * 65536 := by
    rw [BitVec.toInt_eq_toNat_of_lt (by omega), hval]
    exact Int.natCast_mul _ _
  rw [FLOAT.f2Int, hmask, BitVec.toInt_sshiftRight, hclear, hnat, Int.shiftRight_eq_div_pow]
  exact Int.mul_ediv_cancel _ (by decide)

theorem letterText_ascii {letter : Letter} (h : letter.Fits) :
    letterText letter = [letter.view.glyph.ch] ∧ letter.view.glyph.ch &&& 0x80 = 0 := by
  have hascii : ∀ t : Fin 26, BitVec.ofNat 8 (t.val + 65) &&& 0x80 = 0 := by decide
  obtain ⟨t, ht⟩ := Int.eq_ofNat_of_zero_le h.text_nonneg
  have hlt := h.text_lt
  refine ⟨?_, hascii letter.view.text⟩
  rw [letterText, Falling.glyph, Letter.view]
  dsimp only
  rw [ht]
  show [BitVec.ofInt 8 ((t : Int) + 65)] = [BitVec.ofNat 8 (t % 26 + 65)]
  rw [Nat.mod_eq_of_lt (by omega)]
  rfl

/-- The loop draws the glyphs of all letters, in the order of the list. -/
theorem drawLetters_draws {s : State} (rest : List FlyPtr) : ∀ (fuel : Nat) (it : Option FlyPtr),
    rest.length ≤ fuel → Chain s.fly.next it rest → (∀ i ∈ rest, (s.fly.data i).Fits) →
    (∀ a ∈ views s rest, a.Framed) →
    Draws (drawLetters font8x8_basic fuel it s)
      (picture (((views s rest).map Falling.glyph).map (Glyph.layer font8x8_basic))) := by
  induction rest with
  | nil =>
      intro fuel it _ hit _ _
      obtain rfl : it = none := hit
      cases fuel <;> exact fun _ => rfl
  | cons i rest ih =>
      intro fuel it hfuel hit hfits hframed
      obtain ⟨rfl, hrest⟩ := hit
      obtain ⟨fuel, rfl⟩ : ∃ m, fuel = m + 1 := ⟨fuel - 1, by rw [List.length_cons] at hfuel; omega⟩
      have hi := hfits i (List.mem_cons_self ..)
      obtain ⟨hx₀, hx₁, hy₀, hy₁⟩ := hframed (s.fly.data i).view (List.mem_cons_self ..)
      obtain ⟨htext, hascii⟩ := letterText_ascii hi
      have hrow : (FLOAT.f2Int (s.fly.data i).x).toInt = ((s.fly.data i).view.glyph.row : Int) := by
        rw [toInt_f2Int hi.x_nonneg]
        exact (Int.toNat_of_nonneg (Int.ediv_nonneg hx₀ (by decide))).symm
      have hcol : (s.fly.data i).y = ((s.fly.data i).view.glyph.col : Int) :=
        (Int.toNat_of_nonneg hy₀).symm
      have hrow' : (s.fly.data i).view.glyph.row + 8 ≤ 200 := by
        show ((s.fly.data i).view.x / 65536).toNat + 8 ≤ 200
        omega
      have hcol' : (s.fly.data i).view.glyph.col + 8 * 1 ≤ 320 := by
        show (s.fly.data i).view.y.toNat + 8 * 1 ≤ 320
        omega
      have hhead := drawString_draws font8x8_basic 15 hrow' [(s.fly.data i).view.glyph.ch]
        (fun ch hch => by rwa [List.mem_singleton.mp hch]) hcol'
      have htail := ih fuel (s.fly.next i) (Nat.le_of_succ_le_succ hfuel) hrest
        (fun j hj => hfits j (List.mem_cons_of_mem _ hj))
        (fun a ha => hframed a (List.mem_cons_of_mem _ ha))
      intro vmem
      rw [drawLetters, htext, hrow, hcol, hhead vmem, ok_bind, htail]
      congr 1
      exact (overlay_stack _ _ _).symm

/-- From a state that shows a framed board, `redraw_screen` paints its picture. -/
theorem redrawScreen_shows {n : Nat} {s : State} {b : Board} {active free : List FlyPtr}
    (h : Shows n s b active free) (hframed : ∀ a ∈ b.letters, a.Framed) (key_code fps : Int) :
    redrawScreen font8x8_basic s key_code fps =
      .ok (overlay (picture ((b.glyphs key_code fps).map (Glyph.layer font8x8_basic))) fun _ => 0) := by
  have hletters := drawLetters_draws font8x8_basic active (FLY_SIZE + 1) s.head
    h.counted.shape.length_le h.counted.shape.linked.chain h.counted.letters
    (by rw [h.letters]; exact hframed)
  rw [h.letters] at hletters
  have hlen := length_itoa_le
  have hline : ∀ (color : Byte) (row col : Nat) (a : Int), row + 8 ≤ 200 →
      col + 8 * (itoa a).length ≤ 320 → Draws (drawString font8x8_basic (itoa a) row col color)
        (picture ((line color row col (itoa a)).map (Glyph.layer font8x8_basic))) :=
    fun color row col a hrow hcol => drawString_draws font8x8_basic color hrow _ (itoa_ascii a) hcol
  have hfps : Draws (drawString font8x8_basic fpsLabel (0 : Nat) ((itoa fps).length * 8 : Nat) 14)
      (picture ((line 14 0 ((itoa fps).length * 8) fpsLabel).map (Glyph.layer font8x8_basic))) := by
    have h29 := hlen fps
    refine drawString_draws font8x8_basic 14 (by decide) fpsLabel (by decide) ?_
    show (itoa fps).length * 8 + 8 * 3 ≤ 320
    omega
  have hright : ∀ (color : Byte) (row : Nat) (a : Int), row + 8 ≤ 200 →
      Draws (drawString font8x8_basic (itoa a) row (SCR_WIDTH - (itoa a).length * 8) color)
        (picture ((line color row (320 - (itoa a).length * 8) (itoa a)).map
          (Glyph.layer font8x8_basic))) := by
    intro color row a hrow
    have h29 := hlen a
    have hcol : (SCR_WIDTH : Int) - (itoa a).length * 8 = ((320 - (itoa a).length * 8 : Nat) : Int) := by
      rw [SCR_WIDTH]
      omega
    rw [hcol]
    exact hline color row _ a hrow (by omega)
  have hkey : Draws (drawString font8x8_basic (itoa key_code) (SCR_HEIGHT - 8) 0 48)
      (picture ((line 48 192 0 (itoa key_code)).map (Glyph.layer font8x8_basic))) :=
    hline 48 192 0 key_code (by decide) (by have := hlen key_code; omega)
  have hnum : Draws (drawString font8x8_basic (itoa fps) 0 0 14)
      (picture ((line 14 0 0 (itoa fps)).map (Glyph.layer font8x8_basic))) :=
    hline 14 0 0 fps (by decide) (by have := hlen fps; omega)
  have hhit := hright 10 0 s.hit (by decide)
  have hmiss := hright 12 192 s.miss (by decide)
  have hall := hletters.bind (hkey.bind (hhit.bind (hmiss.bind (hnum.bind hfps))))
  rw [h.hit, h.miss] at hall
  rw [redrawScreen, h.hit, h.miss, Board.glyphs]
  simp only [List.map_append, picture_append, stack_assoc]
  exact hall fun _ => 0

end Draw

/-! ## Runs -/

/-- All letters stay where they can be drawn. -/
theorem framed_step (b : Board) (op : Op) (o : Unit) (b' : Board)
    (h : ∀ a ∈ b.letters, a.Framed) (hrun : b.step op = .ok (o, b')) :
    ∀ a ∈ b'.letters, a.Framed := by
  intro a ha
  cases op with
  | create rand₁ rand₂ rand₃ =>
      rw [Board.step, Board.create] at hrun
      by_cases hroom : b.letters.length < FLY_SIZE
      · rw [if_pos hroom] at hrun
        cases hrun
        rcases List.mem_cons.mp ha with rfl | ha
        · have hmod : rand₁ % 38 < 38 := Nat.mod_lt _ (by decide)
          refine ⟨?_, ?_, ?_, ?_⟩ <;> (dsimp only; omega)
        · exact h a ha
      · rw [if_neg hroom] at hrun
        cases hrun
  | update =>
      cases hrun
      obtain ⟨hmoved, hon⟩ := List.mem_filter.mp ha
      obtain ⟨c, hc, rfl⟩ := List.mem_map.mp hmoved
      obtain ⟨hx₀, hx₁⟩ := decide_eq_true_iff.mp hon
      obtain ⟨-, -, hy₀, hy₁⟩ := h c hc
      exact ⟨hx₀, hx₁, hy₀, hy₁⟩
  | keypress =>
      cases hrun
      rcases b.keypress_cases with ⟨hkey, -⟩ | ⟨l, c, r, heq, -, hkey⟩
      · rw [hkey] at ha
        exact h a ha
      · rw [hkey] at ha
        rw [heq] at h
        rcases List.mem_append.mp ha with hl | hr
        · exact h a (List.mem_append_left _ hl)
        · rcases List.mem_cons.mp hr with rfl | hr
          · exact h c (by simp)
          · exact h a (by simp [hr])
  | key scan_code =>
      cases hrun
      exact h a ha

/-- **The screen.** From every state that calls lead to, `redraw_screen` passes its assertions,
    whatever the last key and the rate are, and leaves the picture of the board on black: a
    place has the colour of the last glyph drawn that covers it. -/
theorem redraw_paints (font8x8_basic : Nat → Nat → Byte) (ops : List Op) (key_code fps : Int) :
    run ops = .error .poolEmpty ∨
      ∃ s os b, run ops = .ok s ∧ DetSystem.run Board.step .init ops = .ok (os, b) ∧
        redrawScreen font8x8_basic s key_code fps =
          .ok (overlay (picture ((b.glyphs key_code fps).map (Glyph.layer font8x8_basic))) fun _ => 0) := by
  have h := run_shown ops
  have hboard := Board.run_inv (P := fun b => ∀ a ∈ b.letters, a.Framed) nofun framed_step ops
  rw [run]
  generalize DetSystem.run step State.init ops = x at h ⊢
  generalize DetSystem.run Board.step Board.init ops = y at h hboard ⊢
  cases h with
  | error e =>
      rcases hboard with he | ⟨_, _, hok, -⟩
      · obtain rfl := Except.error.inj he
        exact .inl rfl
      · cases hok
  | @ok os s b hshown =>
      rcases hboard with he | ⟨os', b', hok, hframed⟩
      · cases he
      · cases hok
        obtain ⟨n, active, free, hs⟩ := hshown
        exact .inr ⟨s, os, b, rfl, rfl, redrawScreen_shows font8x8_basic hs hframed key_code fps⟩

end Typing

end Nemu
