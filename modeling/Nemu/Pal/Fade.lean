/-
  Nemu.Pal.Fade

  `VIDEO_FadeScreen` and `VIDEO_SwitchScreen` of `device/video.c`: a sixth of the pixels of the
  backup buffer is changed at a time, and the buffer is shown after each.  A fade shows the screen
  itself at last.  Delays and events are left out; the backup buffer is a surface like `gpScreen`.
-/

import Nemu.Lib.Interlaced
import Nemu.Pal.Video

namespace Nemu.Pal

open Interlaced Outcome

def rgIndex : List Nat := [0, 3, 1, 5, 2, 4]

-- the assignment to a pixel, in round `i`
def blend (i : Nat) (a b : Byte) : Byte :=
  let b :=
    if i > 0 then
      if a &&& 0x0F > b &&& 0x0F then b + 1
      else if a &&& 0x0F < b &&& 0x0F then b - 1
      else b
    else b
  (a &&& 0xF0) ||| (b &&& 0x0F)

section

variable (draw : (Nat → Byte) → Display → Except Fault Display) (size : Nat)

/-- Passes over the backup buffer, which is shown after each: what is on the screen then, and the
    buffer and the screen at the end. -/
def passes (f : Nat → Byte → Byte) : List Nat → (Nat → Byte) → Display →
    Except Fault (List (Nat → Byte) × (Nat → Byte) × Display)
  | [], bak, d => .ok ([], bak, d)
  | r :: rs, bak, d => do
      let bak := pass 6 size f size r bak
      let d ← draw bak d
      let (shown, bak, d') ← passes f rs bak d
      return (d.pixels :: shown, bak, d')

/-- `n` rounds from round `i` on, towards the pixels of `gpScreen`. -/
def fadeRounds (pixels : Nat → Byte) : Nat → Nat → (Nat → Byte) → Display →
    Except Fault (List (Nat → Byte) × (Nat → Byte) × Display)
  | 0, _, bak, d => .ok ([], bak, d)
  | n + 1, i, bak, d => do
      let (shown, bak, d) ← passes draw size (fun k b => blend i (pixels k) b) rgIndex bak d
      let (shown', bak, d) ← fadeRounds pixels n (i + 1) bak d
      return (shown ++ shown', bak, d)

end

section

variable (hal : Hal) (gpScreen gpScreenReal : Surface) (g_wShakeLevel : BitVec 16)

def videoFadeScreen (pixels bak : Nat → Byte) (d : Display) :
    Except Fault (List (Nat → Byte) × (Nat → Byte) × Display) := do
  let (shown, bak, d) ← fadeRounds (drawSurface hal gpScreen gpScreenReal g_wShakeLevel)
    (gpScreen.pitch * gpScreen.h) pixels 12 0 bak d
  let d ← videoUpdateScreen hal gpScreen gpScreenReal g_wShakeLevel pixels d
  return (shown ++ [d.pixels], bak, d)

def videoSwitchScreen (pixels bak : Nat → Byte) (d : Display) :
    Except Fault (List (Nat → Byte) × (Nat → Byte) × Display) :=
  passes (drawWhole hal gpScreen gpScreenReal) (gpScreen.pitch * gpScreen.h) (fun k _ => pixels k)
    rgIndex bak d

end

/-! ## A pixel -/

/-- `y` moved towards `x`, by `n` at most. -/
def toward (n x y : Nat) : Nat := if y ≤ x then min x (y + n) else max x (y - n)

/-- The hue of `a`, with the brightness of `b` moved towards that of `a`. -/
def fadeTo (n : Nat) (a b : Byte) : Byte :=
  BitVec.ofNat 8 (16 * (a.toNat / 16) + toward n (a.toNat % 16) (b.toNat % 16))

theorem toward_lt {n x y : Nat} (hx : x < 16) (hy : y < 16) : toward n x y < 16 := by
  rw [toward]
  split <;> omega

/-- One step more. -/
theorem toward_succ (n x y : Nat) :
    toward (n + 1) x y = if toward n x y < x then toward n x y + 1
      else if x < toward n x y then toward n x y - 1 else toward n x y := by
  by_cases hyx : y ≤ x
  · simp only [toward, if_pos hyx]
    split
    · omega
    · rw [if_neg (by omega)]
      omega
  · simp only [toward, if_neg hyx]
    rw [if_neg (by omega)]
    split <;> omega

theorem low_toNat (b : Byte) : (b &&& 0x0F).toNat = b.toNat % 16 := by
  rw [BitVec.toNat_and]
  exact Nat.and_two_pow_sub_one_eq_mod b.toNat 4

theorem high_toNat (a : Byte) : (a &&& 0xF0).toNat = 16 * (a.toNat / 16) := by
  have ha := a.isLt
  have hmask : ∀ i, i < 8 → Nat.testBit 240 i = decide (i ≥ 4) := by decide
  rw [BitVec.toNat_and]
  refine Nat.eq_of_testBit_eq fun i => ?_
  rw [show 16 = 2 ^ 4 from rfl, Nat.testBit_two_pow_mul, Nat.testBit_div_two_pow, Nat.testBit_and]
  by_cases hi : i < 8
  · have hbit : (0xF0 : Byte).toNat.testBit i = decide (i ≥ 4) := hmask i hi
    rw [hbit, Bool.and_comm]
    by_cases h4 : i ≥ 4
    · rw [Nat.sub_add_cancel h4]
    · rw [decide_eq_false h4, Bool.false_and, Bool.false_and]
  · have hnone : a.toNat.testBit i = false :=
      Nat.testBit_lt_two_pow (Nat.lt_of_lt_of_le ha (Nat.pow_le_pow_right Nat.two_pos (by omega)))
    rw [hnone, Nat.sub_add_cancel (by omega), hnone, Bool.false_and, Bool.and_false]

/-- The high half of one byte with the low half of another. -/
theorem halves_toNat (a b : Byte) :
    ((a &&& 0xF0) ||| (b &&& 0x0F)).toNat = 16 * (a.toNat / 16) + b.toNat % 16 := by
  rw [BitVec.toNat_or, high_toNat, low_toNat]
  exact (Nat.two_pow_add_eq_or_of_lt (i := 4) (Nat.mod_lt _ (by decide)) _).symm

theorem fadeTo_toNat (n : Nat) (a b : Byte) : (fadeTo n a b).toNat =
    16 * (a.toNat / 16) + toward n (a.toNat % 16) (b.toNat % 16) := by
  have ha := a.isLt
  have hlow : toward n (a.toNat % 16) (b.toNat % 16) < 16 :=
    toward_lt (Nat.mod_lt _ (by decide)) (Nat.mod_lt _ (by decide))
  rw [fadeTo, BitVec.toNat_ofNat]
  exact Nat.mod_eq_of_lt (by omega)

theorem blend_zero (a b : Byte) : blend 0 a b = fadeTo 0 a b := by
  apply BitVec.eq_of_toNat_eq
  rw [blend, if_neg (Nat.lt_irrefl 0), halves_toNat, fadeTo_toNat, toward]
  split <;> omega

/-- Every round after the first moves the brightness by one. -/
theorem blend_succ (i n : Nat) (a b : Byte) :
    blend (i + 1) a (fadeTo n a b) = fadeTo (n + 1) a b := by
  obtain ⟨c, hc⟩ : ∃ c, c = fadeTo n a b := ⟨_, rfl⟩
  obtain ⟨x, hx⟩ : ∃ x, x = a.toNat % 16 := ⟨_, rfl⟩
  obtain ⟨y, hy⟩ : ∃ y, y = b.toNat % 16 := ⟨_, rfl⟩
  have hx16 : x < 16 := hx ▸ Nat.mod_lt _ (by decide)
  have hy16 : y < 16 := hy ▸ Nat.mod_lt _ (by decide)
  have hlow : toward n x y < 16 := toward_lt hx16 hy16
  have ha := a.isLt
  have hc' : c.toNat = 16 * (a.toNat / 16) + toward n x y := by rw [hc, fadeTo_toNat, hx, hy]
  have hmod : c.toNat % 16 = toward n x y := by omega
  apply BitVec.eq_of_toNat_eq
  rw [blend, if_pos (Nat.succ_pos i), halves_toNat, fadeTo_toNat, ← hx, ← hy, ← hc, toward_succ]
  simp only [gt_iff_lt, BitVec.lt_def, low_toNat, ← hx, hmod]
  refine congrArg (16 * (a.toNat / 16) + ·) ?_
  by_cases hlt : toward n x y < x
  · rw [if_pos hlt, if_pos hlt, BitVec.toNat_add, show (1 : Byte).toNat = 1 from rfl]
    omega
  · rw [if_neg hlt, if_neg hlt]
    by_cases hgt : x < toward n x y
    · rw [if_pos hgt, if_pos hgt, BitVec.toNat_sub, show (1 : Byte).toNat = 1 from rfl]
      omega
    · rw [if_neg hgt, if_neg hgt, hmod]

-- a brightness that has more than `n` steps to go does not get there
theorem fadeTo_eq_iff (n : Nat) (a b : Byte) : fadeTo n a b = a ↔
    a.toNat % 16 ≤ b.toNat % 16 + n ∧ b.toNat % 16 ≤ a.toNat % 16 + n := by
  rw [← BitVec.toNat_inj, fadeTo_toNat, toward]
  split <;> omega

/-! ## What is shown -/

section

variable {draw : (Nat → Byte) → Display → Except Fault Display}
  {next : (Nat → Byte) → Display → Display} {size : Nat}

/-- Buffers shown one after the other: what is on the screen then, and the screen at the end. -/
def showAll (next : (Nat → Byte) → Display → Display) :
    List (Nat → Byte) → Display → List (Nat → Byte) × Display
  | [], d => ([], d)
  | b :: bs, d => ((next b d).pixels :: (showAll next bs (next b d)).1, (showAll next bs (next b d)).2)

theorem showAll_append (bs cs : List (Nat → Byte)) : ∀ d : Display, showAll next (bs ++ cs) d =
    ((showAll next bs d).1 ++ (showAll next cs (showAll next bs d).2).1,
      (showAll next cs (showAll next bs d).2).2) := by
  induction bs with
  | nil => exact fun _ => rfl
  | cons b bs ih => exact fun d => by rw [List.cons_append, showAll, ih]; rfl

/-- Nothing that is shown changes the buffer. -/
theorem passes_eq (hdraw : ∀ b d, draw b d = .ok (next b d)) (f : Nat → Byte → Byte) (rs : List Nat) :
    ∀ (bak : Nat → Byte) (d : Display), passes draw size f rs bak d =
      .ok ((showAll next (round 6 size f rs bak).1 d).1, (round 6 size f rs bak).2,
        (showAll next (round 6 size f rs bak).1 d).2) := by
  induction rs with
  | nil => exact fun _ _ => rfl
  | cons r rs ih =>
      intro bak d
      rw [passes]
      dsimp only
      rw [hdraw, ok_bind, ih]
      rfl

theorem fadeRounds_eq (hdraw : ∀ b d, draw b d = .ok (next b d)) (pixels : Nat → Byte) (n : Nat) :
    ∀ (i : Nat) (bak : Nat → Byte) (d : Display), fadeRounds draw size pixels n i bak d =
      let fade := rounds 6 size (fun i k b => blend i (pixels k) b) rgIndex n i bak
      .ok ((showAll next fade.1 d).1, fade.2, (showAll next fade.1 d).2) := by
  induction n with
  | zero => exact fun _ _ _ => rfl
  | succ n ih =>
      intro i bak d
      rw [fadeRounds, passes_eq hdraw, ok_bind]
      dsimp only
      rw [ih, ok_bind, rounds]
      dsimp only
      rw [showAll_append]
      rfl

theorem showAll_map {surface : Surface}
    (hnext : ∀ b d, (next b d).pixels = onScreen (surface.picture b) d.pixels) (bs : List (Nat → Byte)) :
    ∀ d : Display, (showAll next bs d).1 = bs.map fun b => onScreen (surface.picture b) d.pixels := by
  induction bs with
  | nil => exact fun _ => rfl
  | cons b bs ih =>
      intro d
      rw [showAll, List.map_cons, ih]
      simp only [hnext, onScreen_onScreen]

/-- A screen that is shaken. -/
theorem showAll_seen {level : Nat} {surface : Surface}
    (hnext : ∀ b d, next b d = ⟨onScreen (shaken level d.g_wShakeTime.toNat (surface.picture b)) d.pixels,
      .ofNat 16 (d.g_wShakeTime.toNat - 1)⟩) (bs : List (Nat → Byte)) :
    ∀ d : Display, (showAll next bs d).1 =
        seen level d.pixels d.g_wShakeTime.toNat (bs.map surface.picture) ∧
      (showAll next bs d).2.g_wShakeTime.toNat = d.g_wShakeTime.toNat - bs.length := by
  induction bs with
  | nil => exact fun _ => ⟨rfl, rfl⟩
  | cons b bs ih =>
      intro d
      obtain ⟨hshown, htime⟩ := ih (next b d)
      have hlt := d.g_wShakeTime.isLt
      have hleft : (next b d).g_wShakeTime.toNat = d.g_wShakeTime.toNat - 1 := by
        rw [hnext, BitVec.toNat_ofNat]
        omega
      rw [showAll, List.map_cons, seen_cons, List.length_cons]
      dsimp only
      rw [hshown, htime, hleft]
      refine ⟨?_, by omega⟩
      rw [hnext]

end

/-! ## The pictures -/

section

variable (size : Nat) (pixels bak : Nat → Byte)

/-- What pass `j` of round `i` shows: a pixel whose turn has not come yet is that of the
    backup buffer, and its first turn only changes the hue. -/
def fadeFrame (i j : Nat) : Nat → Byte := fun k =>
  if size ≤ k then bak k
  else
    match if k % 6 ∈ rgIndex.take (j + 1) then i + 1 else i with
    | 0 => bak k
    | n + 1 => fadeTo n (pixels k) (bak k)

/-- The 72 pictures of a fade. -/
def fadeFrames : List (Nat → Byte) :=
  (List.range 12).flatMap fun i => (List.range 6).map (fadeFrame size pixels bak i)

/-- What is left of the backup buffer. -/
def faded : Nat → Byte := fun k => if size ≤ k then bak k else fadeTo 11 (pixels k) (bak k)

variable {pixels bak}

theorem staged_fade (n k : Nat) :
    staged (fun i k b => blend i (pixels k) b) bak (n + 1) k = fadeTo n (pixels k) (bak k) := by
  induction n with
  | zero => exact blend_zero ..
  | succ n ih => rw [staged, ih, blend_succ]

/-- Twelve rounds of six passes. -/
theorem rounds_fade : rounds 6 size (fun i k b => blend i (pixels k) b) rgIndex 12 0 bak =
    (fadeFrames size pixels bak, faded size pixels bak) := by
  have hrounds := @rounds_eq Byte 6 size (by decide) (fun i k b => blend i (pixels k) b) rgIndex
    bak (by decide) (by decide) (by decide) 12 0
  have hframe : frame 6 size (fun i k b => blend i (pixels k) b) rgIndex bak =
      fadeFrame size pixels bak := by
    funext i j k
    rw [frame, fadeFrame]
    by_cases hk : size ≤ k
    · rw [if_pos hk, if_pos hk]
    · rw [if_neg hk, if_neg hk]
      by_cases hturn : k % 6 ∈ rgIndex.take (j + 1)
      · rw [if_pos hturn, if_pos hturn]
        exact staged_fade i k
      · rw [if_neg hturn, if_neg hturn]
        cases i with
        | zero => rfl
        | succ n => exact staged_fade n k
  have hstart : (fun p => if size ≤ p then bak p
      else staged (fun i k b => blend i (pixels k) b) bak 0 p) = bak := by
    funext p
    exact ite_self _
  rw [hstart, hframe] at hrounds
  rw [hrounds]
  refine congrArg (Prod.mk _) (funext fun k => ?_)
  exact if_congr Iff.rfl rfl (staged_fade 11 k)

-- the fade reaches the target where no brightness had more than eleven steps to go
theorem faded_eq_iff : (∀ k, k < size → faded size pixels bak k = pixels k) ↔
    ∀ k, k < size → (pixels k).toNat % 16 ≤ (bak k).toNat % 16 + 11 ∧
      (bak k).toNat % 16 ≤ (pixels k).toNat % 16 + 11 := by
  refine forall₂_congr fun k hk => ?_
  rw [faded, if_neg (Nat.not_le.mpr hk), fadeTo_eq_iff]

end

/-- **What a fade shows.** There are 73 pictures: 72 in which the pixels of the backup buffer change
    one by one, and the screen itself; each is shaken as long as it is its time. What is left of
    the buffer is the screen exactly if no brightness had more than eleven steps to go. -/
theorem videoFadeScreen_shows (hal : Hal) (hhal : hal.Done) (gpScreen gpScreenReal : Surface)
    (hscreen : gpScreen.Screen) (hreal : gpScreenReal.Screen) (hpitch : gpScreenReal.pitch = 320)
    (g_wShakeLevel : BitVec 16) (hlevel : g_wShakeLevel.toNat ≤ 200) (pixels bak : Nat → Byte)
    (d : Display) :
    let size := gpScreen.pitch * gpScreen.h
    ∃ shown left d', videoFadeScreen hal gpScreen gpScreenReal g_wShakeLevel pixels bak d =
        .ok (shown, left, d') ∧
      shown.length = 73 ∧
      shown = seen g_wShakeLevel.toNat d.pixels d.g_wShakeTime.toNat
        ((fadeFrames size pixels bak ++ [pixels]).map gpScreen.picture) ∧
      d'.g_wShakeTime.toNat = d.g_wShakeTime.toNat - 73 ∧
      left = faded size pixels bak ∧
      ((∀ k, k < size → left k = pixels k) ↔
        ∀ k, k < size → (pixels k).toNat % 16 ≤ (bak k).toNat % 16 + 11 ∧
          (bak k).toNat % 16 ≤ (pixels k).toNat % 16 + 11) := by
  intro size
  let next : (Nat → Byte) → Display → Display := fun b d =>
    ⟨onScreen (shaken g_wShakeLevel.toNat d.g_wShakeTime.toNat (gpScreen.picture b)) d.pixels,
      .ofNat 16 (d.g_wShakeTime.toNat - 1)⟩
  have hdraw : ∀ b d, drawSurface hal gpScreen gpScreenReal g_wShakeLevel b d = .ok (next b d) :=
    fun b d => drawSurface_eq hhal hscreen hreal hpitch hlevel b d
  have hrounds := @rounds_fade size pixels bak
  have hlength : (fadeFrames size pixels bak ++ [pixels]).length = 73 := rfl
  generalize fadeFrames size pixels bak = frames at hrounds hlength ⊢
  obtain ⟨hshown, htime⟩ := @showAll_seen next g_wShakeLevel.toNat gpScreen (fun _ _ => rfl)
    (frames ++ [pixels]) d
  rw [hlength] at htime
  rw [showAll_append] at hshown htime
  refine ⟨_, faded size pixels bak, _, ?_, ?_, hshown, htime, rfl, faded_eq_iff size⟩
  · rw [videoFadeScreen, fadeRounds_eq hdraw, hrounds, ok_bind]
    dsimp only
    rw [videoUpdateScreen, hdraw]
    rfl
  · rw [hshown, length_seen, List.length_map, hlength]

/-- From a dark picture to a bright one of another hue, while the screen is shaken three times. -/
theorem videoFadeScreen_shows_dark :
    ∃ shown left d', videoFadeScreen .plain ⟨320, 200, 320, 64000⟩ ⟨320, 200, 320, 64000⟩ 4
        (fun _ => 0x2f) (fun _ => 0x31) ⟨fun _ => 0, 3⟩ = .ok (shown, left, d') ∧
      shown.length = 73 ∧
      shown = seen (4 : BitVec 16).toNat (fun _ => 0) (3 : BitVec 16).toNat
        ((fadeFrames (320 * 200) (fun _ => 0x2f) (fun _ => 0x31) ++ [fun _ => 0x2f]).map
          (Surface.picture ⟨320, 200, 320, 64000⟩)) ∧
      d'.g_wShakeTime.toNat = (3 : BitVec 16).toNat - 73 ∧
      left = faded (320 * 200) (fun _ => 0x2f) (fun _ => 0x31) ∧
      ((∀ k, k < 320 * 200 → left k = 0x2f) ↔
        ∀ k, k < 320 * 200 → (0x2f : Byte).toNat % 16 ≤ (0x31 : Byte).toNat % 16 + 11 ∧
          (0x31 : Byte).toNat % 16 ≤ (0x2f : Byte).toNat % 16 + 11) :=
  videoFadeScreen_shows .plain Hal.plain_done ⟨320, 200, 320, 64000⟩ ⟨320, 200, 320, 64000⟩
    ⟨⟨Nat.le_refl _, Nat.le_refl _⟩, rfl, rfl⟩ ⟨⟨Nat.le_refl _, Nat.le_refl _⟩, rfl, rfl⟩ rfl 4
    (by decide) _ _ ⟨fun _ => 0, 3⟩

/-- A switch shows six pictures, with a sixth of the screen more in each. -/
theorem videoSwitchScreen_eq {hal : Hal} (hhal : hal.Done) {gpScreen gpScreenReal : Surface}
    (hscreen : gpScreen.Screen) (hreal : gpScreenReal.Screen) (hpitch : gpScreenReal.pitch = 320)
    (pixels bak : Nat → Byte) (d : Display) :
    let size := gpScreen.pitch * gpScreen.h
    ∃ d', videoSwitchScreen hal gpScreen gpScreenReal pixels bak d =
      .ok ((List.range 6).map fun j => onScreen (gpScreen.picture fun k =>
          if k < size ∧ k % 6 ∈ rgIndex.take (j + 1) then pixels k else bak k) d.pixels,
        fun k => if k < size then pixels k else bak k, d') := by
  intro size
  have hround := @round_eq Byte 6 size (by decide) (fun k _ => pixels k) bak rgIndex []
    (by decide) (by decide)
  have hstart : partly 6 size (fun k _ => pixels k) [] bak = bak := by
    funext k
    exact if_neg fun h => List.not_mem_nil h.2
  have hall : ∀ r, r < 6 → r ∈ rgIndex := by decide
  have hend : (fun k => if k < size then pixels k else bak k) =
      partly 6 size (fun k _ => pixels k) rgIndex bak := by
    funext k
    exact if_congr (and_iff_left (hall _ (Nat.mod_lt k (by decide)))).symm rfl rfl
  let next : (Nat → Byte) → Display → Display := fun b d =>
    { d with pixels := onScreen (gpScreen.picture b) d.pixels }
  have hdraw : ∀ b d, drawWhole hal gpScreen gpScreenReal b d = .ok (next b d) :=
    fun b d => drawWhole_eq hhal hscreen hreal hpitch b d
  rw [hstart, List.nil_append] at hround
  rw [videoSwitchScreen, passes_eq hdraw, hround, @showAll_map next gpScreen (fun _ _ => rfl),
    List.map_map, hend]
  exact ⟨_, rfl⟩

end Nemu.Pal
