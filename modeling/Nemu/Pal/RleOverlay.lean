/-
  Nemu.Pal.RleOverlay

  A blit puts the bitmap over the surface, as far as it lies on it.

  A bitmap is a list of runs; here none of its runs of pixels goes on in the next row.  The
  blitter jumps over pixels beside the surface, and its jumps may go too far, but not out of
  such a run.
-/

import Nemu.Lib.Outcome
import Nemu.Lib.Paint
import Nemu.Pal.Rle

namespace Nemu.Pal

open Outcome Paint

/-! ## Bitmaps -/

/-- Pixels that are left out, or the bytes of pixels. -/
inductive Run where
  | skip (n : Nat)
  | lit (bs : List Byte)

namespace Run

def bytes : Run → List Byte
  | skip n => [BitVec.ofNat 8 (0x80 + n)]
  | lit bs => BitVec.ofNat 8 bs.length :: bs

def cells : Run → List (Option Byte)
  | skip n => List.replicate n none
  | lit bs => bs.map some

/-- What one byte can say, for a bitmap of width `W`. -/
def Coded (W : Nat) : Run → Prop
  | skip n => n < 0x80 ∧ n ≤ W
  | lit bs => bs.length < 0x100 ∧ ¬(0x80 ≤ bs.length ∧ bs.length ≤ 0x80 + W)

/-- The run stays in the row that its first pixel, the `i`th of the bitmap, is in. -/
def InRow (W i : Nat) : Run → Prop
  | skip _ => True
  | lit bs => i % W + bs.length ≤ W

end Run

def InRows (W : Nat) : Nat → List Run → Prop
  | _, [] => True
  | i, r :: rs => r.InRow W i ∧ InRows W (i + r.cells.length) rs

structure Bitmap where
  width : BitVec 16
  height : BitVec 16
  runs : List Run
  coded : ∀ r ∈ runs, r.Coded width.toNat
  inRows : InRows width.toNat 0 runs
  full : (runs.flatMap Run.cells).length = width.toNat * height.toNat

namespace Bitmap

def header (b : Bitmap) : List Byte :=
  [b.width.setWidth 8, (b.width >>> 8).setWidth 8, b.height.setWidth 8, (b.height >>> 8).setWidth 8]

/-- The bitmap in a file, with the mark in front of it or without. -/
def bytes (b : Bitmap) (marked : Bool) : List Byte :=
  (if marked then [0x02, 0x00, 0x00, 0x00] else []) ++ (b.header ++ b.runs.flatMap Run.bytes)

-- without the mark, the bitmap must not look as if it had one
def Plain (b : Bitmap) (marked : Bool) : Prop := marked = true ∨ ¬(b.width = 2 ∧ b.height = 0)

/-- The pixel in column `c` of row `r`, if there is one and it is not left out. -/
def pixel (b : Bitmap) (c r : Int) : Option Byte :=
  if 0 ≤ c ∧ c < b.width.toNat ∧ 0 ≤ r then
    ((b.runs.flatMap Run.cells)[(r * b.width.toNat + c).toNat]?).join
  else none

end Bitmap

/-! ## The pixels as layers -/

section Layers

variable (colour : Byte → Byte) (surface : Surface) (dx dy : Int) (W : Nat)

/-- Where on the surface the `k`th pixel of the bitmap is. -/
def place (k : Nat) : Option Nat :=
  let x := (k % W : Nat) + dx
  let y := (k / W : Nat) + dy
  if 0 ≤ x ∧ x < surface.w ∧ 0 ≤ y ∧ y < surface.h then some (y * surface.pitch + x).toNat else none

def cellLayer (k : Nat) : Option Byte → Layer Nat Byte
  | none => blank
  | some b =>
      match place surface dx dy W k with
      | some p => dot p (colour b)
      | none => blank

def cellsLayer : Nat → List (Option Byte) → Layer Nat Byte
  | _, [] => blank
  | k, c :: cs => stack (cellLayer colour surface dx dy W k c) (cellsLayer (k + 1) cs)

variable {colour surface dx dy W}

theorem cellLayer_hidden {k : Nat} (h : place surface dx dy W k = none) (c : Option Byte) :
    cellLayer colour surface dx dy W k c = blank := by
  cases c with
  | none => rfl
  | some b => rw [cellLayer, h]

theorem cellLayer_dot {k p : Nat} (h : place surface dx dy W k = some p) (b : Byte) :
    cellLayer colour surface dx dy W k (some b) = dot p (colour b) := by
  rw [cellLayer, h]

theorem cellsLayer_append (cs ds : List (Option Byte)) : ∀ k : Nat,
    cellsLayer colour surface dx dy W k (cs ++ ds) =
      stack (cellsLayer colour surface dx dy W k cs)
        (cellsLayer colour surface dx dy W (k + cs.length) ds) := by
  induction cs with
  | nil => exact fun k => (blank_stack _).symm
  | cons c cs ih =>
      intro k
      rw [List.cons_append, cellsLayer, cellsLayer, ih, stack_assoc, List.length_cons,
        show k + 1 + cs.length = k + (cs.length + 1) by omega]

theorem cellsLayer_replicate (n : Nat) : ∀ k : Nat,
    cellsLayer colour surface dx dy W k (List.replicate n none) = blank := by
  induction n with
  | zero => exact fun _ => rfl
  | succ n ih =>
      intro k
      rw [List.replicate_succ, cellsLayer, ih]
      rfl

/-- Pixels beside the surface may be jumped over. -/
theorem cellsLayer_jump (n : Nat) : ∀ (k : Nat) (cs : List (Option Byte)),
    (∀ t, t < n → t < cs.length → place surface dx dy W (k + t) = none) →
      cellsLayer colour surface dx dy W k cs =
        cellsLayer colour surface dx dy W (k + n) (cs.drop n) := by
  induction n with
  | zero => exact fun k cs _ => rfl
  | succ n ih =>
      intro k cs hhidden
      cases cs with
      | nil => rfl
      | cons c cs =>
          have hrest := ih (k + 1) cs fun t ht hlen => by
            have h := hhidden (t + 1) (Nat.succ_lt_succ ht) (Nat.succ_lt_succ hlen)
            rwa [show k + (t + 1) = k + 1 + t by omega] at h
          have hfirst : place surface dx dy W k = none := hhidden 0 (Nat.succ_pos n) (Nat.succ_pos _)
          rw [cellsLayer, cellLayer_hidden hfirst, blank_stack, hrest, List.drop_succ_cons, show k + 1 + n = k + (n + 1) by omega]

theorem cellsLayer_hidden {k : Nat} {cs : List (Option Byte)}
    (h : ∀ t, t < cs.length → place surface dx dy W (k + t) = none) :
    cellsLayer colour surface dx dy W k cs = blank := by
  rw [cellsLayer_jump cs.length k cs fun t ht _ => h t ht, List.drop_length, cellsLayer]

end Layers

/-! ## The loops -/

section Loops

variable {colour : Byte → Byte} {rle : List Byte} {surface : Surface} {dx dy : Int} {W : Nat}

/-- The surface lies in its pixels. -/
structure Surface.Fits (surface : Surface) : Prop where
  row : surface.w ≤ surface.pitch
  rows : surface.pitch * surface.h ≤ surface.size

-- a pixel of a run in a row
theorem row_div_mod {i j : Nat} (hrow : i % W + j < W) :
    (i + j) / W = i / W ∧ (i + j) % W = i % W + j := by
  have hi := Nat.div_add_mod i W
  have hsum : i + j = i % W + j + W * (i / W) := by omega
  have hW : 0 < W := by omega
  rw [hsum, Nat.add_mul_div_left _ _ hW, Nat.add_mul_mod_self_left, Nat.div_eq_of_lt hrow,
    Nat.mod_eq_of_lt hrow, Nat.zero_add]
  exact ⟨rfl, rfl⟩

theorem place_row {i j : Nat} (hrow : i % W + j < W) :
    place surface dx dy W (i + j) =
      if 0 ≤ (i % W + j : Nat) + dx ∧ (i % W + j : Nat) + dx < surface.w ∧
          0 ≤ (i / W : Nat) + dy ∧ (i / W : Nat) + dy < surface.h then
        some (((i / W : Nat) + dy) * surface.pitch + ((i % W + j : Nat) + dx)).toNat
      else none := by
  rw [place, (row_div_mod hrow).1, (row_div_mod hrow).2]

theorem putPixel_eq (hfits : surface.Fits) {x y : Int} (hx : 0 ≤ x) (hxw : x < surface.w)
    (hy : 0 ≤ y) (hyh : y < surface.h) (b : Byte) (pixels : Nat → Byte) :
    putPixel surface x y b pixels =
      .ok (overlay (dot (y * surface.pitch + x).toNat b) pixels) := by
  have hrow := hfits.row
  have hrows := hfits.rows
  have hlow : 0 ≤ y * surface.pitch := Int.mul_nonneg hy (Int.natCast_nonneg _)
  have hhigh : y * surface.pitch + x < surface.size := by
    obtain ⟨m, rfl⟩ := Int.eq_ofNat_of_zero_le hy
    have hm : (m + 1) * surface.pitch ≤ surface.h * surface.pitch :=
      Nat.mul_le_mul_right _ (by omega)
    rw [Nat.add_mul, Nat.one_mul, Nat.mul_comm surface.h] at hm
    have hcast : ((m * surface.pitch : Nat) : Int) = (m : Int) * surface.pitch := Int.natCast_mul ..
    omega
  rw [putPixel, if_pos ⟨by omega, hhigh⟩, overlay_dot]

/-- A run of pixels in a row puts them on the surface; it ends the blit only in a row below. -/
theorem putRun_eq (hfits : surface.Fits) {ptr i : Nat} {bs : List Byte}
    (hbytes : ∀ j, j < bs.length → rle[ptr + j]? = bs[j]?) (hrow : i % W + bs.length ≤ W)
    (fuel : Nat) : ∀ (j : Nat) (pixels : Nat → Byte), bs.length - j < fuel →
      ∃ stop, putRun colour rle surface dx dy W ptr i bs.length fuel j pixels =
          .ok (stop, overlay (cellsLayer colour surface dx dy W (i + j) ((bs.drop j).map some)) pixels) ∧
        (stop = true → surface.h ≤ (i / W : Nat) + dy) := by
  induction fuel with
  | zero => exact fun j pixels h => absurd h (Nat.not_lt_zero _)
  | succ fuel ih =>
      intro j pixels hfuel
      rw [putRun]
      by_cases hj : j < bs.length
      · rw [if_neg (not_not_intro hj), (row_div_mod (by omega)).1, (row_div_mod (by omega)).2]
        dsimp only
        -- a jump over pixels of this row beside the surface
        have jump : ∀ n, 0 < n →
            (∀ t, t < n → j + t < bs.length → place surface dx dy W (i + (j + t)) = none) →
            ∃ stop, putRun colour rle surface dx dy W ptr i bs.length fuel (j + n) pixels =
                .ok (stop, overlay (cellsLayer colour surface dx dy W (i + j)
                  ((bs.drop j).map some)) pixels) ∧
              (stop = true → surface.h ≤ (i / W : Nat) + dy) := by
          intro n hn hhidden
          have hjump := @cellsLayer_jump colour surface dx dy W n (i + j) ((bs.drop j).map some)
            (fun t ht hlen => by
              rw [List.length_map, List.length_drop] at hlen
              rw [Nat.add_assoc]
              exact hhidden t ht (by omega))
          rw [hjump, ← List.map_drop, List.drop_drop, Nat.add_assoc]
          exact ih (j + n) pixels (by omega)
        by_cases hleft : ((i % W + j : Nat) : Int) + dx < 0
        · rw [if_pos hleft]
          refine jump _ (Nat.succ_pos _) fun t ht hlen => ?_
          rw [place_row (by omega), if_neg (by omega)]
        rw [if_neg hleft]
        by_cases hright : ((i % W + j : Nat) : Int) + dx ≥ surface.w
        · rw [if_pos hright]
          refine jump _ (Nat.succ_pos _) fun t ht hlen => ?_
          rw [place_row (by omega), if_neg (by omega)]
        rw [if_neg hright]
        by_cases habove : ((i / W : Nat) : Int) + dy < 0
        · rw [if_pos habove]
          refine jump _ (Nat.succ_pos _) fun t ht hlen => ?_
          rw [place_row (by omega), if_neg (by omega)]
        rw [if_neg habove]
        by_cases hbelow : ((i / W : Nat) : Int) + dy ≥ surface.h
        · rw [if_pos hbelow]
          have hhidden : cellsLayer colour surface dx dy W (i + j) ((bs.drop j).map some) = blank := by
            refine cellsLayer_hidden fun t ht => ?_
            rw [List.length_map, List.length_drop] at ht
            rw [Nat.add_assoc, place_row (by omega), if_neg (by omega)]
          exact ⟨true, by rw [hhidden, overlay_blank], fun _ => hbelow⟩
        rw [if_neg hbelow]
        have hbyte : byteAt rle (ptr + j) = .ok bs[j] := by
          rw [byteAt, hbytes j hj, List.getElem?_eq_getElem hj]
        have hplace := @place_row surface dx dy W i j (by omega)
        rw [if_pos ⟨by omega, by omega, by omega, by omega⟩] at hplace
        have hdot := @cellLayer_dot colour _ _ _ _ _ _ hplace bs[j]
        rw [hbyte, ok_bind, putPixel_eq hfits (by omega) (by omega) (by omega) (by omega), ok_bind,
          List.drop_eq_getElem_cons hj, List.map_cons, cellsLayer, hdot, overlay_stack, Nat.add_assoc]
        exact ih (j + 1) _ (by omega)
      · rw [if_pos hj, List.drop_of_length_le (by omega)]
        exact ⟨false, rfl, nofun⟩

-- `T & 0x80`
theorem and_0x80 (T : Byte) : T &&& 0x80 ≠ 0 ↔ 0x80 ≤ T.toNat := by
  have hall : ∀ T : Byte, T &&& 0x80 ≠ 0 ↔ 0x80 ≤ T.toNat := by decide
  exact hall T

theorem byteAt_of_drop {ptr : Nat} {b : Byte} {l : List Byte} (h : rle.drop ptr = b :: l) :
    byteAt rle ptr = .ok b := by
  have hget : rle[ptr]? = some b := by
    rw [← Nat.add_zero ptr, ← List.getElem?_drop, h, List.getElem?_cons_zero]
  rw [byteAt, hget]

theorem drop_succ_of_drop {ptr : Nat} {b : Byte} {l : List Byte} (h : rle.drop ptr = b :: l) :
    rle.drop (ptr + 1) = l := by
  rw [← List.drop_drop, h, List.drop_one, List.tail_cons]

-- below the surface
theorem place_below {k : Nat} (h : surface.h ≤ (k / W : Nat) + dy) (t : Nat) :
    place surface dx dy W (k + t) = none := by
  have hrow : k / W ≤ (k + t) / W := Nat.div_le_div_right (Nat.le_add_right ..)
  rw [place]
  exact if_neg (by omega)

theorem blitFrom_eq (hfits : surface.Fits) {uiLen : Nat} {rest : List Byte} (runs : List Run) :
    ∀ (fuel i ptr : Nat) (pixels : Nat → Byte), runs.length < fuel →
      (∀ r ∈ runs, r.Coded W) → InRows W i runs →
      i + (runs.flatMap Run.cells).length = uiLen →
      rle.drop ptr = runs.flatMap Run.bytes ++ rest →
        blitFrom colour rle surface dx dy W uiLen fuel i ptr pixels =
          .ok (overlay (cellsLayer colour surface dx dy W i (runs.flatMap Run.cells)) pixels) := by
  induction runs with
  | nil =>
      intro fuel i ptr pixels hfuel _ _ hlen _
      cases fuel with
      | zero => exact absurd hfuel (Nat.not_lt_zero _)
      | succ fuel =>
          rw [List.flatMap_nil, List.length_nil] at hlen
          rw [blitFrom, if_pos (by omega)]
          rfl
  | cons r runs ih =>
      intro fuel i ptr pixels hfuel hcoded hrows hlen hdrop
      obtain ⟨hcode, hcodes⟩ := List.forall_mem_cons.mp hcoded
      obtain ⟨hrow, hrest⟩ := hrows
      rw [List.flatMap_cons, List.length_append] at hlen
      rw [List.flatMap_cons, List.append_assoc] at hdrop
      rw [List.flatMap_cons, cellsLayer_append, overlay_stack]
      cases fuel with
      | zero => exact absurd hfuel (Nat.not_lt_zero _)
      | succ fuel =>
          have hshort : runs.length < fuel := Nat.lt_of_succ_lt_succ hfuel
          rw [blitFrom]
          by_cases hi : i < uiLen
          · rw [if_neg (not_not_intro hi)]
            cases r with
            | skip n =>
                obtain ⟨hn, hW⟩ := hcode
                have hT : (BitVec.ofNat 8 (0x80 + n)).toNat = 0x80 + n := by
                  rw [BitVec.toNat_ofNat]
                  omega
                rw [Run.cells, List.length_replicate] at hrest hlen
                rw [byteAt_of_drop hdrop, ok_bind, if_pos ⟨(and_0x80 _).mpr (by omega), by omega⟩, hT,
                  Nat.add_sub_cancel_left, Run.cells, cellsLayer_replicate, overlay_blank,
                  List.length_replicate]
                exact ih fuel _ _ pixels hshort hcodes hrest (by omega) (drop_succ_of_drop hdrop)
            | lit bs =>
                obtain ⟨hbs, hplain⟩ := hcode
                have hT : (BitVec.ofNat 8 bs.length).toNat = bs.length := by
                  rw [BitVec.toNat_ofNat]
                  omega
                have hdrop' := drop_succ_of_drop hdrop
                have hbytes : ∀ j, j < bs.length → rle[ptr + 1 + j]? = bs[j]? := by
                  intro j hj
                  rw [← List.getElem?_drop, hdrop']
                  exact List.getElem?_append_left hj
                rw [Run.cells, List.length_map] at hrest hlen
                obtain ⟨stop, hrun, hstop⟩ := @putRun_eq colour _ _ dx dy _ hfits _ _ _
                  hbytes hrow (bs.length + 1) 0 pixels (by omega)
                rw [byteAt_of_drop hdrop, ok_bind,
                  if_neg (fun h => hplain ⟨hT ▸ (and_0x80 _).mp h.1, hT ▸ h.2⟩), hT, hrun, ok_bind,
                  Run.cells, List.length_map]
                dsimp only
                cases stop with
                | true =>
                    have hhidden : cellsLayer colour surface dx dy W (i + bs.length)
                        (runs.flatMap Run.cells) = blank := by
                      refine cellsLayer_hidden fun t _ => ?_
                      rw [Nat.add_assoc]
                      exact place_below (hstop rfl) _
                    rw [hhidden]
                    rfl
                | false =>
                    refine ih fuel _ _ _ hshort hcodes hrest (by omega) ?_
                    rw [← List.drop_drop, hdrop']
                    exact List.drop_left
          · -- the rest are runs of nothing
            have hnil : r.cells = [] := List.length_eq_zero_iff.mp (by omega)
            have hnil' : runs.flatMap Run.cells = [] := List.length_eq_zero_iff.mp (by omega)
            rw [if_pos hi, hnil, hnil']
            rfl

end Loops

/-! ## The blit -/

section Blit

variable {colour : Byte → Byte} {surface : Surface} {dx dy : Int} {W : Nat}

-- a place in rows of length `m` determines row and column
theorem row_col_unique {m r c r' c' : Nat} (hc : c < m) (hc' : c' < m)
    (h : r * m + c = r' * m + c') : r = r' ∧ c = c' := by
  have hm : 0 < m := by omega
  have hdiv : ∀ {r c : Nat}, c < m → (r * m + c) / m = r := fun {r c} hc => by
    rw [Nat.add_comm, Nat.add_mul_div_right _ _ hm, Nat.div_eq_of_lt hc, Nat.zero_add]
  have hr : r = r' := by
    rw [← @hdiv r c hc, h, hdiv hc']
  subst hr
  exact ⟨rfl, Nat.add_left_cancel h⟩

/-- A pixel that has a place has one on the surface. -/
theorem place_exists {k p : Nat} (h : place surface dx dy W k = some p) :
    ∃ x y : Nat, x < surface.w ∧ y < surface.h ∧ (k % W : Nat) + dx = x ∧ (k / W : Nat) + dy = y ∧
      p = y * surface.pitch + x := by
  rw [place] at h
  by_cases hvisible : 0 ≤ ((k % W : Nat) : Int) + dx ∧ ((k % W : Nat) : Int) + dx < surface.w ∧
      0 ≤ ((k / W : Nat) : Int) + dy ∧ ((k / W : Nat) : Int) + dy < surface.h
  · rw [if_pos hvisible] at h
    obtain ⟨hx0, hxw, hy0, hyh⟩ := hvisible
    obtain ⟨x, hx⟩ := Int.eq_ofNat_of_zero_le hx0
    obtain ⟨y, hy⟩ := Int.eq_ofNat_of_zero_le hy0
    have hp := Option.some.inj h
    rw [hx, hy, ← Int.natCast_mul, ← Int.natCast_add, Int.toNat_natCast] at hp
    exact ⟨x, y, by omega, by omega, hx, hy, hp.symm⟩
  · rw [if_neg hvisible] at h
    cases h

/-- A place of the surface is that of one pixel of the bitmap at most. -/
theorem place_eq_some (hfits : surface.Fits) {x y k : Nat} (hx : x < surface.w)
    (hy : y < surface.h) (hW : 0 < W) :
    place surface dx dy W k = some (y * surface.pitch + x) ↔
      0 ≤ (x : Int) - dx ∧ (x : Int) - dx < W ∧ 0 ≤ (y : Int) - dy ∧
        k = (((y : Int) - dy) * W + ((x : Int) - dx)).toNat := by
  have hrow := hfits.row
  apply Iff.intro
  · intro h
    obtain ⟨x', y', hx', hy', hcol, hline, hplace⟩ := place_exists h
    obtain ⟨rfl, rfl⟩ := row_col_unique (by omega) (by omega) hplace
    have hmod := Nat.mod_lt k hW
    have hk := Nat.div_add_mod k W
    have hdiv := Int.natCast_nonneg (k / W)
    have hcol' : (x : Int) - dx = (k % W : Nat) := by omega
    have hline' : (y : Int) - dy = (k / W : Nat) := by omega
    refine ⟨by omega, by omega, by omega, ?_⟩
    rw [hcol', hline', ← Int.natCast_mul, ← Int.natCast_add, Int.toNat_natCast, Nat.mul_comm, hk]
  · rintro ⟨hc0, hcW, hr0, rfl⟩
    obtain ⟨c, hc⟩ := Int.eq_ofNat_of_zero_le hc0
    obtain ⟨r, hr⟩ := Int.eq_ofNat_of_zero_le hr0
    have hk : (((y : Int) - dy) * W + ((x : Int) - dx)).toNat = r * W + c := by
      rw [hc, hr, ← Int.natCast_mul, ← Int.natCast_add, Int.toNat_natCast]
    have hmod : (r * W + c) % W = c := by
      rw [Nat.add_comm, Nat.add_mul_mod_self_right, Nat.mod_eq_of_lt (by omega)]
    have hdiv : (r * W + c) / W = r := by
      rw [Nat.add_comm, Nat.add_mul_div_right _ _ hW, Nat.div_eq_of_lt (by omega), Nat.zero_add]
    have hx' : (c : Int) + dx = x := by omega
    have hy' : (r : Int) + dy = y := by omega
    rw [place, hk, hmod, hdiv, hx', hy', if_pos ⟨by omega, by omega, by omega, by omega⟩, ← Int.natCast_mul,
      ← Int.natCast_add, Int.toNat_natCast]

theorem cellLayer_eq (hfits : surface.Fits) {x y : Nat} (hx : x < surface.w) (hy : y < surface.h)
    (hW : 0 < W) (k : Nat) (c : Option Byte) :
    cellLayer colour surface dx dy W k c (y * surface.pitch + x) =
      if 0 ≤ (x : Int) - dx ∧ (x : Int) - dx < W ∧ 0 ≤ (y : Int) - dy ∧
          k = (((y : Int) - dy) * W + ((x : Int) - dx)).toNat then c.map colour
      else none := by
  cases c with
  | none => rw [Option.map_none, ite_self]; rfl
  | some b =>
      by_cases h : 0 ≤ (x : Int) - dx ∧ (x : Int) - dx < W ∧ 0 ≤ (y : Int) - dy ∧
          k = (((y : Int) - dy) * W + ((x : Int) - dx)).toNat
      · rw [if_pos h, cellLayer_dot ((place_eq_some hfits hx hy hW).mpr h), dot, if_pos rfl]
        rfl
      · rw [if_neg h]
        cases hplace : place surface dx dy W k with
        | none => rw [cellLayer_hidden hplace]; rfl
        | some p =>
            rw [cellLayer_dot hplace, dot]
            refine if_neg fun hp => h ?_
            rw [← hp] at hplace
            exact (place_eq_some hfits hx hy hW).mp hplace

theorem cellsLayer_eq (hfits : surface.Fits) {x y : Nat} (hx : x < surface.w) (hy : y < surface.h)
    (hW : 0 < W) (cs : List (Option Byte)) : ∀ i : Nat,
    cellsLayer colour surface dx dy W i cs (y * surface.pitch + x) =
      if 0 ≤ (x : Int) - dx ∧ (x : Int) - dx < W ∧ 0 ≤ (y : Int) - dy ∧
          i ≤ (((y : Int) - dy) * W + ((x : Int) - dx)).toNat then
        (cs[(((y : Int) - dy) * W + ((x : Int) - dx)).toNat - i]?).join.map colour
      else none := by
  generalize hk : (((y : Int) - dy) * W + ((x : Int) - dx)).toNat = k
  induction cs with
  | nil =>
      intro i
      rw [List.getElem?_nil, Option.join_none, Option.map_none, ite_self]
      rfl
  | cons c cs ih =>
      intro i
      show (cellsLayer colour surface dx dy W (i + 1) cs _).or
        (cellLayer colour surface dx dy W i c _) = _
      rw [ih, cellLayer_eq hfits hx hy hW, hk]
      by_cases hin : 0 ≤ (x : Int) - dx ∧ (x : Int) - dx < W ∧ 0 ≤ (y : Int) - dy
      · obtain ⟨h0, hlt, hr⟩ := hin
        rcases Nat.lt_trichotomy i k with hi | rfl | hi
        · rw [if_pos ⟨h0, hlt, hr, hi⟩, if_neg (by omega), if_pos ⟨h0, hlt, hr, Nat.le_of_lt hi⟩, Option.or_none,
            show k - i = k - (i + 1) + 1 by omega, List.getElem?_cons_succ]
        · rw [if_neg (by omega), if_pos ⟨h0, hlt, hr, rfl⟩, if_pos ⟨h0, hlt, hr, Nat.le_refl _⟩,
            Option.none_or, Nat.sub_self, List.getElem?_cons_zero, Option.join_some]
        · rw [if_neg (by omega), if_neg (by omega), if_neg (by omega), Option.none_or]
      · rw [if_neg fun h => hin ⟨h.1, h.2.1, h.2.2.1⟩, if_neg fun h => hin ⟨h.1, h.2.1, h.2.2.1⟩,
          if_neg fun h => hin ⟨h.1, h.2.1, h.2.2.1⟩, Option.none_or]

/-- Nothing is put beside the surface. -/
theorem cellsLayer_beside {p : Nat} (hp : ¬∃ x y, x < surface.w ∧ y < surface.h ∧ p = y * surface.pitch + x)
    (cs : List (Option Byte)) : ∀ i : Nat, cellsLayer colour surface dx dy W i cs p = none := by
  induction cs with
  | nil => exact fun _ => rfl
  | cons c cs ih =>
      intro i
      show (cellsLayer colour surface dx dy W (i + 1) cs _).or
        (cellLayer colour surface dx dy W i c _) = _
      rw [ih, Option.none_or]
      cases c with
      | none => rfl
      | some b =>
          cases hplace : place surface dx dy W i with
          | none => rw [cellLayer_hidden hplace]; rfl
          | some q =>
              obtain ⟨x, y, hx, hy, -, -, rfl⟩ := place_exists hplace
              rw [cellLayer_dot hplace, dot]
              exact if_neg fun hq => hp ⟨x, y, hx, hy, hq⟩

end Blit

theorem Bitmap.pixel_eq (b : Bitmap) (c r : Int) : b.pixel c r =
    if 0 ≤ c ∧ c < b.width.toNat ∧ 0 ≤ r ∧ 0 ≤ (r * b.width.toNat + c).toNat then
      ((b.runs.flatMap Run.cells)[(r * b.width.toNat + c).toNat - 0]?).join
    else none := by
  rw [Bitmap.pixel, Nat.sub_zero]
  refine if_congr ?_ rfl rfl
  exact ⟨fun h => ⟨h.1, h.2.1, h.2.2, Nat.zero_le _⟩, fun h => ⟨h.1, h.2.1, h.2.2.1⟩⟩

section Blit

variable {colour : Byte → Byte} {surface : Surface}

-- the two bytes of a word of the header
theorem bytes_word (x : BitVec 16) : ((x >>> 8).setWidth 8 ++ x.setWidth 8 : BitVec 16) = x := by
  apply BitVec.eq_of_getLsbD_eq
  intro i hi
  simp only [BitVec.getLsbD_append, BitVec.getLsbD_setWidth, BitVec.getLsbD_ushiftRight]
  grind

theorem length_runs (runs : List Run) : runs.length ≤ (runs.flatMap Run.bytes).length := by
  induction runs with
  | nil => exact Nat.le_refl _
  | cons r runs ih =>
      have hr : 0 < r.bytes.length := by cases r <;> exact Nat.succ_pos _
      rw [List.flatMap_cons, List.length_append, List.length_cons]
      omega

theorem blit_eq (colour : Byte → Byte) (b : Bitmap) (marked : Bool) (hplain : b.Plain marked)
    (rest : List Byte) (hfits : surface.Fits) (pos : BitVec 32) (pixels : Nat → Byte) :
    blit colour (some (b.bytes marked ++ rest)) (some surface) pos pixels =
      .ok (0, overlay (cellsLayer colour surface (palX pos) (palY pos) b.width.toNat 0
        (b.runs.flatMap Run.cells)) pixels) := by
  have hlen : b.runs.length < (b.bytes marked ++ rest).length + 1 := by
    have hruns := length_runs b.runs
    rw [Bitmap.bytes, List.length_append, List.length_append, List.length_append]
    omega
  have hfrom : ∀ ptr, (b.bytes marked ++ rest).drop ptr = b.runs.flatMap Run.bytes ++ rest →
      blitFrom colour (b.bytes marked ++ rest) surface (palX pos) (palY pos) b.width.toNat
        (b.width.toNat * b.height.toNat) ((b.bytes marked ++ rest).length + 1) 0 ptr pixels = _ :=
    fun ptr hdrop => blitFrom_eq hfits b.runs _ 0 ptr pixels hlen b.coded b.inRows
      (by rw [Nat.zero_add, b.full]) hdrop
  have hwidth := congrArg (@Except.ok Fault _) (bytes_word b.width)
  have hheight := congrArg (@Except.ok Fault _) (bytes_word b.height)
  rw [blit]
  cases marked with
  | true =>
      have hw : shortAt (b.bytes true ++ rest) 4 = .ok b.width := hwidth
      have hh : shortAt (b.bytes true ++ rest) 6 = .ok b.height := hheight
      have h0 : byteAt (b.bytes true ++ rest) 0 = .ok 0x02 := rfl
      have h1 : byteAt (b.bytes true ++ rest) 1 = .ok 0x00 := rfl
      have h2 : byteAt (b.bytes true ++ rest) 2 = .ok 0x00 := rfl
      have h3 : byteAt (b.bytes true ++ rest) 3 = .ok 0x00 := rfl
      rw [h0, ok_bind, h1, ok_bind, h2, ok_bind, h3, ok_bind, if_pos ⟨rfl, rfl, rfl, rfl⟩]
      dsimp only
      rw [hw, ok_bind, hh, ok_bind, hfrom _ rfl]
      rfl
  | false =>
      have hw : shortAt (b.bytes false ++ rest) 0 = .ok b.width := hwidth
      have hh : shortAt (b.bytes false ++ rest) 2 = .ok b.height := hheight
      have h0 : byteAt (b.bytes false ++ rest) 0 = .ok (b.width.setWidth 8) := rfl
      have h1 : byteAt (b.bytes false ++ rest) 1 = .ok ((b.width >>> 8).setWidth 8) := rfl
      have h2 : byteAt (b.bytes false ++ rest) 2 = .ok (b.height.setWidth 8) := rfl
      have h3 : byteAt (b.bytes false ++ rest) 3 = .ok ((b.height >>> 8).setWidth 8) := rfl
      have hmark : ¬(b.width.setWidth 8 = (0x02 : Byte) ∧ (b.width >>> 8).setWidth 8 = (0x00 : Byte) ∧
          b.height.setWidth 8 = (0x00 : Byte) ∧ (b.height >>> 8).setWidth 8 = (0x00 : Byte)) := by
        rintro ⟨hlow, hhigh, hlow', hhigh'⟩
        refine hplain.resolve_left Bool.false_ne_true ⟨?_, ?_⟩
        · rw [← bytes_word b.width, hlow, hhigh]
          rfl
        · rw [← bytes_word b.height, hlow', hhigh']
          rfl
      rw [h0, ok_bind, h1, ok_bind, h2, ok_bind, h3, ok_bind, if_neg hmark]
      dsimp only
      rw [hw, ok_bind, hh, ok_bind, hfrom _ rfl]
      rfl

/-- The pixels of a whole bitmap. -/
theorem cellsLayer_pixel (hfits : surface.Fits) (b : Bitmap) {dx dy : Int} {x y : Nat}
    (hx : x < surface.w) (hy : y < surface.h) :
    cellsLayer colour surface dx dy b.width.toNat 0 (b.runs.flatMap Run.cells)
      (y * surface.pitch + x) = (b.pixel (x - dx) (y - dy)).map colour := by
  by_cases hW : 0 < b.width.toNat
  · rw [cellsLayer_eq hfits hx hy hW, Bitmap.pixel_eq]
    split <;> rfl
  · -- there are no columns
    have hnil : b.runs.flatMap Run.cells = [] := by
      refine List.length_eq_zero_iff.mp ?_
      rw [b.full, Nat.eq_zero_of_not_pos hW, Nat.zero_mul]
    rw [Bitmap.pixel, hnil, List.getElem?_nil, Option.join_none, ite_self]
    rfl

/-- **A blit puts the bitmap over the surface.** A place of the surface gets the colour of the
    pixel that comes to lie there, if there is one and it is not left out; all others, and what
    the rows of the surface have behind them, stay as they are. -/
theorem blit_overlay (colour : Byte → Byte) (b : Bitmap) (marked : Bool) (hplain : b.Plain marked)
    (rest : List Byte) (surface : Surface) (hfits : surface.Fits) (pos : BitVec 32)
    (pixels : Nat → Byte) :
    ∃ pixels', blit colour (some (b.bytes marked ++ rest)) (some surface) pos pixels =
        .ok (0, pixels') ∧
      (∀ x y, x < surface.w → y < surface.h →
        pixels' (y * surface.pitch + x) =
          match b.pixel (x - palX pos) (y - palY pos) with
          | some c => colour c
          | none => pixels (y * surface.pitch + x)) ∧
      ∀ p, (¬∃ x y, x < surface.w ∧ y < surface.h ∧ p = y * surface.pitch + x) →
        pixels' p = pixels p := by
  refine ⟨_, blit_eq colour b marked hplain rest hfits pos pixels, fun x y hx hy => ?_, fun p hp => ?_⟩
  · rw [overlay, cellsLayer_pixel hfits b hx hy]
    cases b.pixel (x - palX pos) (y - palY pos) <;> rfl
  · rw [overlay, cellsLayer_beside hp]
    rfl

/-- A bitmap of one pixel. -/
def Bitmap.dot (c : Byte) : Bitmap where
  width := 1
  height := 1
  runs := [.lit [c]]
  coded := List.forall_mem_singleton.mpr
    ⟨show 1 < 0x100 by decide, fun h => absurd h.1 (show ¬0x80 ≤ 1 by decide)⟩
  inRows := ⟨Nat.le_refl 1, trivial⟩
  full := rfl

/-- Onto a surface of one pixel. -/
theorem blit_overlay_dot :
    ∃ pixels', blit id (some ((Bitmap.dot 7).bytes true ++ [])) (some ⟨1, 1, 1, 1⟩) 0 (fun _ => 0) =
        .ok (0, pixels') ∧
      (∀ x y, x < 1 → y < 1 → pixels' (y * 1 + x) =
        match (Bitmap.dot 7).pixel (x - palX 0) (y - palY 0) with
        | some c => id c
        | none => 0) ∧
      ∀ p, (¬∃ x y, x < 1 ∧ y < 1 ∧ p = y * 1 + x) → pixels' p = 0 :=
  blit_overlay id (Bitmap.dot 7) true (.inl rfl) [] ⟨1, 1, 1, 1⟩ ⟨Nat.le_refl _, Nat.le_refl _⟩ 0
    fun _ => 0

end Blit

/-! ## Any bytes -/

section Bytes

variable {colour : Byte → Byte} {rle : List Byte} {surface : Surface} {dx dy : Int} {W : Nat}

/-- `pixels'` differs from `pixels` on the surface only. -/
def Inside (surface : Surface) (pixels pixels' : Nat → Byte) : Prop :=
  ∀ p, (¬∃ x y, x < surface.w ∧ y < surface.h ∧ p = y * surface.pitch + x) → pixels' p = pixels p

theorem Inside.trans {p q r : Nat → Byte} (h : Inside surface p q) (h' : Inside surface q r) :
    Inside surface p r := fun k hk => (h' k hk).trans (h k hk)

/-- The outcome of something that ends, changes the surface only, and faults at a read at most. -/
def Keeps {α : Type} (surface : Surface) (pixels : Nat → Byte) (f : α → Nat → Byte)
    (outcome : Except Fault α) : Prop :=
  (∀ e, outcome = .error e → e = .badRead) ∧
    ∀ a, outcome = .ok a → Inside surface pixels (f a)

theorem Keeps.ok {α : Type} {pixels : Nat → Byte} {f : α → Nat → Byte} {a : α}
    (h : Inside surface pixels (f a)) : Keeps surface pixels f (.ok a) :=
  ⟨nofun, fun _ ha => by cases ha; exact h⟩

theorem Keeps.overrun {α : Type} {pixels : Nat → Byte} {f : α → Nat → Byte} :
    Keeps surface pixels f (.error .badRead) := ⟨fun _ h => by cases h; rfl, nofun⟩

theorem Keeps.mono {α : Type} {pixels pixels' : Nat → Byte} {f : α → Nat → Byte}
    {outcome : Except Fault α} (hin : Inside surface pixels pixels')
    (h : Keeps surface pixels' f outcome) : Keeps surface pixels f outcome :=
  ⟨h.1, fun a ha => hin.trans (h.2 a ha)⟩

/-- A read of the bitmap, which may run out of it. -/
theorem Keeps.read {α β : Type} {pixels : Nat → Byte} {f : α → Nat → Byte} {x : Except Fault β}
    {g : β → Except Fault α} (hx : ∀ e, x = .error e → e = .badRead)
    (h : ∀ b, Keeps surface pixels f (g b)) : Keeps surface pixels f (x >>= g) := by
  cases hout : x with
  | error e =>
      obtain rfl := hx e hout
      exact .overrun
  | ok b => exact h b

theorem byteAt_error (src : List Byte) (i : Nat) (e : Fault) (h : byteAt src i = .error e) :
    e = .badRead := by
  rw [byteAt] at h
  cases hget : src[i]? <;> rw [hget] at h <;> cases h
  rfl

theorem shortAt_error (src : List Byte) (i : Nat) (e : Fault) (h : shortAt src i = .error e) :
    e = .badRead := by
  rw [shortAt] at h
  cases hlow : byteAt src i with
  | error e' =>
      rw [hlow] at h
      cases h
      exact byteAt_error _ _ _ hlow
  | ok low =>
      rw [hlow, ok_bind] at h
      cases hhigh : byteAt src (i + 1) with
      | error e' =>
          rw [hhigh] at h
          cases h
          exact byteAt_error _ _ _ hhigh
      | ok high => rw [hhigh] at h; cases h

theorem putPixel_inside (hfits : surface.Fits) {x y : Int} (hx : 0 ≤ x) (hxw : x < surface.w)
    (hy : 0 ≤ y) (hyh : y < surface.h) (b : Byte) (pixels : Nat → Byte) :
    ∃ pixels', putPixel surface x y b pixels = .ok pixels' ∧ Inside surface pixels pixels' := by
  refine ⟨_, putPixel_eq hfits hx hxw hy hyh b pixels, fun p hp => ?_⟩
  obtain ⟨m, rfl⟩ := Int.eq_ofNat_of_zero_le hx
  obtain ⟨n, rfl⟩ := Int.eq_ofNat_of_zero_le hy
  rw [overlay_dot]
  refine Function.update_of_ne (fun h => hp ⟨m, n, by omega, by omega, ?_⟩) ..
  rw [h, ← Int.natCast_mul, ← Int.natCast_add, Int.toNat_natCast]

theorem putRun_keeps (hfits : surface.Fits) (ptr i T fuel : Nat) :
    ∀ (j : Nat) (pixels : Nat → Byte), T - j < fuel →
      Keeps surface pixels Prod.snd (putRun colour rle surface dx dy W ptr i T fuel j pixels) := by
  induction fuel with
  | zero => exact fun j pixels h => absurd h (Nat.not_lt_zero _)
  | succ fuel ih =>
      intro j pixels hfuel
      rw [putRun]
      by_cases hj : j < T
      · rw [if_neg (not_not_intro hj)]
        dsimp only
        split
        · exact ih _ pixels (by omega)
        split
        · exact ih _ pixels (by omega)
        split
        · exact ih _ pixels (by omega)
        split
        · exact .ok fun _ _ => rfl
        refine .read (byteAt_error _ _) fun b => ?_
        obtain ⟨pixels', hput, hin⟩ := putPixel_inside hfits (x := ((i + j) % W : Nat) + dx)
          (y := ((i + j) / W : Nat) + dy) (by omega) (by omega) (by omega) (by omega) (colour b)
          pixels
        rw [hput, ok_bind]
        exact (ih (j + 1) pixels' (by omega)).mono hin
      · rw [if_pos hj]
        exact .ok fun _ _ => rfl

theorem blitFrom_keeps (hfits : surface.Fits) (uiLen fuel : Nat) :
    ∀ (i ptr : Nat) (pixels : Nat → Byte), rle.length - ptr < fuel →
      Keeps surface pixels id (blitFrom colour rle surface dx dy W uiLen fuel i ptr pixels) := by
  induction fuel with
  | zero => exact fun i ptr pixels h => absurd h (Nat.not_lt_zero _)
  | succ fuel ih =>
      intro i ptr pixels hfuel
      rw [blitFrom]
      by_cases hi : i < uiLen
      · rw [if_neg (not_not_intro hi), byteAt]
        cases hT : rle[ptr]? with
        | none => exact .overrun
        | some T =>
            have hptr := (List.getElem?_eq_some_iff.mp hT).1
            dsimp only
            rw [ok_bind]
            split
            · exact ih _ _ pixels (by omega)
            have hrun := @putRun_keeps colour rle surface dx dy W hfits
              (ptr + 1) i T.toNat (T.toNat + 1) 0 pixels (by omega)
            cases hout : putRun colour rle surface dx dy W (ptr + 1) i T.toNat (T.toNat + 1) 0 pixels with
            | error e =>
                obtain rfl := hrun.1 e hout
                exact .overrun
            | ok p =>
                obtain ⟨stop, pixels'⟩ := p
                have hin : Inside surface pixels pixels' := hrun.2 _ hout
                rw [ok_bind]
                dsimp only
                cases stop with
                | true => exact .ok hin
                | false => exact (ih _ _ pixels' (by omega)).mono hin
      · rw [if_pos hi]
        exact .ok fun _ _ => rfl

/-- **Whatever the bytes of a bitmap are, a blit ends and changes nothing beside the surface**; at
    most it reads past the end of the bitmap, and it never writes outside the pixels. -/
theorem blit_keeps (colour : Byte → Byte) (lpBitmapRLE : Option (List Byte)) (surface : Surface)
    (hfits : surface.Fits) (pos : BitVec 32) (pixels : Nat → Byte) :
    Keeps surface pixels Prod.snd (blit colour lpBitmapRLE (some surface) pos pixels) := by
  cases lpBitmapRLE with
  | none => exact .ok fun _ _ => rfl
  | some rle =>
      rw [blit]
      refine .read (byteAt_error _ _) fun b₀ => .read (byteAt_error _ _) fun b₁ =>
        .read (byteAt_error _ _) fun b₂ => .read (byteAt_error _ _) fun b₃ =>
          .read (shortAt_error _ _) fun uiWidth => .read (shortAt_error _ _) fun uiHeight => ?_
      have hfrom := @blitFrom_keeps colour rle surface (palX pos) (palY pos)
        uiWidth.toNat hfits (uiWidth.toNat * uiHeight.toNat) (rle.length + 1) 0
        ((if b₀ = 0x02 ∧ b₁ = 0x00 ∧ b₂ = 0x00 ∧ b₃ = 0x00 then 4 else 0) + 4) pixels (by omega)
      cases hout : blitFrom colour rle surface (palX pos) (palY pos) uiWidth.toNat
          (uiWidth.toNat * uiHeight.toNat) (rle.length + 1) 0
          ((if b₀ = 0x02 ∧ b₁ = 0x00 ∧ b₂ = 0x00 ∧ b₃ = 0x00 then 4 else 0) + 4) pixels with
      | error e =>
          obtain rfl := hfrom.1 e hout
          exact .overrun
      | ok pixels' => exact .ok (hfrom.2 _ hout)

/-- With a bitmap that ends in its header. -/
theorem blit_keeps_header :
    Keeps ⟨1, 1, 1, 1⟩ (fun _ => 0) Prod.snd
      (blit id (some [5, 0, 5, 0]) (some ⟨1, 1, 1, 1⟩) 0 fun _ => 0) :=
  blit_keeps id (some [5, 0, 5, 0]) ⟨1, 1, 1, 1⟩ ⟨Nat.le_refl _, Nat.le_refl _⟩ 0 fun _ => 0

end Bytes

end Nemu.Pal
