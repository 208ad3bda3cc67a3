/-
  Nemu.Device.Vga

  `nemu/src/device/vga.c` with HAS_DEVICE: the video memory behind `mmio.c`, the handler that
  marks the line a write is on, and `update_screen`, which copies the marked lines.

  The screen is a copy of the video memory that is brought up to date by lines.  The handler
  only marks the line of the first byte of a write.

  SDL is outside of the repository.  `SDL_BlitSurface` is a parameter that copies the pixels of
  its rectangle (`Copies`), a new video surface is black, and the flip behind the blit shows
  `real_screen` as it is.
-/

import Nemu.Device.Mmio
import Nemu.Lib.DirtyCopy

namespace Nemu

open ByteSeq Outcome DetSystem DirtyCopy

/-! ## `vga.h` -/

def CTR_ROW : Nat := 200

def CTR_COL : Nat := 320

theorem CTR_COL_pos : 0 < CTR_COL := Nat.succ_pos _

def SCREEN_ROW : Nat := 400

def SCREEN_COL : Nat := 640

/-- The static variables; `vmem_base` is an index of the pool, `pixel_buf` the pixels of
    `screen`.  Surfaces are indexed by row and column. -/
structure Vga where
  vmem_base : Nat
  vmem_dirty : Bool
  line_dirty : Nat → Bool
  pixel_buf : Nat → Nat → Byte
  real_screen : Nat → Nat → Byte

structure SDL_Rect where
  x : Nat
  y : Nat
  w : Nat
  h : Nat

def SDL_Rect.Inside (rect : SDL_Rect) (y x : Nat) : Prop :=
  rect.y ≤ y ∧ y < rect.y + rect.h ∧ rect.x ≤ x ∧ x < rect.x + rect.w

instance (rect : SDL_Rect) (y x : Nat) : Decidable (rect.Inside y x) :=
  inferInstanceAs (Decidable (_ ∧ _))

/-- `SDL_BlitSurface` with one rectangle for both surfaces: what it leaves in `dst`. -/
abbrev Blit : Type := (src dst : Nat → Nat → Byte) → SDL_Rect → Nat → Nat → Byte

/-- It copies the pixels of the rectangle, and no others. -/
def Copies (blitSurface : Blit) : Prop :=
  ∀ src dst rect y x, blitSurface src dst rect y x = if rect.Inside y x then src y x else dst y x

-- a blit that does so
def copyRect : Blit := fun src dst rect y x => if rect.Inside y x then src y x else dst y x

theorem copies_copyRect : Copies copyRect := fun _ _ _ _ _ => rfl

-- `pixel_buf[y][x] = color_idx`
def setPixel (buf : Nat → Nat → Byte) (x y : Nat) (color_idx : Byte) : Nat → Nat → Byte :=
  fun y' x' => if y' = y ∧ x' = x then color_idx else buf y' x'

namespace Vga

def drawPixel (v : Vga) (x y : Nat) (color_idx : Byte) : Except Abort Vga := do
  cAssert (decide (x < SCREEN_COL ∧ y < SCREEN_ROW))
  return { v with pixel_buf := setPixel v.pixel_buf x y color_idx }

/-! ## `vga.c` -/

def vgaVmemIoHandler (addr : Addr) (_len : Nat) (is_write : Bool) (v : Vga) : Vga :=
  if is_write then
    let line := (addr - 0xa0000).toNat / CTR_COL
    if line < CTR_ROW then
      { v with
        line_dirty := Function.update v.line_dirty line true
        vmem_dirty := true }
    else v
  else v

-- the inner loop of `do_update_screen_graphic_mode`: `n` columns of line `i` from `j` on
def drawLineFrom (vmem : Nat → Byte) (i : Nat) : Nat → Nat → Vga → Except Abort Vga
  | _, 0, v => return v
  | j, n + 1, v => do
      let color_idx := vmem (i * CTR_COL + j)
      let v ← v.drawPixel (2 * j) (2 * i) color_idx
      let v ← v.drawPixel (2 * j) (2 * i + 1) color_idx
      let v ← v.drawPixel (2 * j + 1) (2 * i) color_idx
      let v ← v.drawPixel (2 * j + 1) (2 * i + 1) color_idx
      drawLineFrom vmem i (j + 1) n v

section Update

variable (blitSurface : Blit)

def updateLine (vmem : Nat → Byte) (i : Nat) (v : Vga) : Except Abort Vga := do
  if v.line_dirty i then
    let v ← drawLineFrom vmem i 0 CTR_COL v
    let rect : SDL_Rect := { x := 0, y := i * 2, w := CTR_COL * 2, h := 2 }
    return { v with real_screen := blitSurface v.pixel_buf v.real_screen rect }
  else
    return v

-- the outer loop: `n` lines from `i` on
def updateLinesFrom (vmem : Nat → Byte) : Nat → Nat → Vga → Except Abort Vga
  | _, 0, v => return v
  | i, n + 1, v => do
      let v ← updateLine blitSurface vmem i v
      updateLinesFrom vmem (i + 1) n v

def doUpdateScreenGraphicMode (vmem : Nat → Byte) (v : Vga) : Except Abort Vga :=
  updateLinesFrom blitSurface vmem 0 CTR_ROW v

end Update

/-! ## The loops -/

section Loops

variable {blitSurface : Blit} {vmem : Nat → Byte} {i : Nat}

theorem drawPixel_ok {x y : Nat} (hx : x < SCREEN_COL) (hy : y < SCREEN_ROW) (v : Vga) (c : Byte) :
    v.drawPixel x y c = .ok { v with pixel_buf := setPixel v.pixel_buf x y c } := by
  rw [drawPixel, decide_eq_true ⟨hx, hy⟩, cAssert_true]
  rfl

-- the block of four pixels that stands for one byte
theorem setPixel_block (buf : Nat → Nat → Byte) (i j : Nat) (c : Byte) :
    setPixel (setPixel (setPixel (setPixel buf (2 * j) (2 * i) c) (2 * j) (2 * i + 1) c)
      (2 * j + 1) (2 * i) c) (2 * j + 1) (2 * i + 1) c
        = fun y x => if y / 2 = i ∧ x / 2 = j then c else buf y x := by
  funext y x
  simp only [setPixel]
  by_cases hin : y / 2 = i ∧ x / 2 = j
  · rw [if_pos hin]
    have hrows : y = 2 * i ∨ y = 2 * i + 1 := by omega
    have hcols : x = 2 * j ∨ x = 2 * j + 1 := by omega
    rcases hrows with hy | hy
    · rcases hcols with hx | hx <;> simp [hy, hx]
    · rcases hcols with hx | hx <;> simp [hy, hx]
  · rw [if_neg hin, if_neg (by omega), if_neg (by omega), if_neg (by omega), if_neg (by omega)]

theorem drawBlock_ok {α : Type} {i j : Nat} (hi : i < CTR_ROW) (hj : j < CTR_COL) (v : Vga)
    (c : Byte) (k : Vga → Except Abort α) :
    (do
      let v ← v.drawPixel (2 * j) (2 * i) c
      let v ← v.drawPixel (2 * j) (2 * i + 1) c
      let v ← v.drawPixel (2 * j + 1) (2 * i) c
      let v ← v.drawPixel (2 * j + 1) (2 * i + 1) c
      k v)
      = k { v with
          pixel_buf := fun y x => if y / 2 = i ∧ x / 2 = j then c else v.pixel_buf y x } := by
  have hrow : SCREEN_ROW = 2 * CTR_ROW := rfl
  have hcol : SCREEN_COL = 2 * CTR_COL := rfl
  rw [drawPixel_ok (by omega) (by omega), ok_bind, drawPixel_ok (by omega) (by omega), ok_bind,
    drawPixel_ok (by omega) (by omega), ok_bind, drawPixel_ok (by omega) (by omega), ok_bind]
  exact congrArg (fun buf => k { v with pixel_buf := buf }) (setPixel_block v.pixel_buf i j c)

/-- Columns `j` to `j + n` of a line fill their two rows of the buffer. -/
theorem drawLineFrom_ok (hi : i < CTR_ROW) : ∀ (n j : Nat) (v : Vga), j + n ≤ CTR_COL →
    drawLineFrom vmem i j n v = .ok { v with
      pixel_buf := fun y x =>
        if y / 2 = i ∧ j ≤ x / 2 ∧ x / 2 < j + n then vmem (i * CTR_COL + x / 2)
        else v.pixel_buf y x } := by
  intro n
  induction n with
  | zero =>
      intro j v _
      have hnone : ∀ y x : Nat, ¬ (y / 2 = i ∧ j ≤ x / 2 ∧ x / 2 < j + 0) := by omega
      simp only [drawLineFrom, hnone, if_false]
      rfl
  | succ n ih =>
      intro j v hj
      rw [drawLineFrom, drawBlock_ok hi (by omega), ih (j + 1) _ (by omega)]
      refine congrArg (fun buf => Except.ok { v with pixel_buf := buf }) ?_
      funext y x
      -- the pixel is in a later column, in column `j`, or not drawn
      by_cases hlater : y / 2 = i ∧ j + 1 ≤ x / 2 ∧ x / 2 < j + 1 + n
      · rw [if_pos hlater, if_pos (by omega)]
      · rw [if_neg hlater]
        show (if y / 2 = i ∧ x / 2 = j then _ else _) = _
        by_cases hhere : y / 2 = i ∧ x / 2 = j
        · rw [if_pos hhere, if_pos (by omega), hhere.2]
        · rw [if_neg hhere, if_neg (by omega)]

/-- A line is shown if it is marked. -/
theorem updateLine_ok (hblit : Copies blitSurface) (vmem : Nat → Byte) (hi : i < CTR_ROW) (v : Vga) :
    ∃ v', updateLine blitSurface vmem i v = .ok v' ∧ v'.line_dirty = v.line_dirty ∧
      v'.vmem_base = v.vmem_base ∧ ∀ y x, x < SCREEN_COL → v'.real_screen y x =
        if y / 2 = i ∧ v.line_dirty i then vmem (i * CTR_COL + x / 2) else v.real_screen y x := by
  have hcol : SCREEN_COL = CTR_COL * 2 := rfl
  rw [updateLine]
  by_cases hdirty : v.line_dirty i
  · rw [if_pos hdirty, drawLineFrom_ok hi CTR_COL 0 v (by omega), ok_bind]
    refine ⟨_, rfl, rfl, rfl, fun y x hx => ?_⟩
    have hin : SDL_Rect.Inside { x := 0, y := i * 2, w := CTR_COL * 2, h := 2 } y x ↔
        y / 2 = i := by
      simp only [SDL_Rect.Inside]
      omega
    refine (hblit _ _ _ y x).trans ?_
    by_cases hy : y / 2 = i
    · rw [if_pos (hin.mpr hy), if_pos ⟨hy, hdirty⟩]
      exact if_pos (by omega)
    · rw [if_neg (fun h => hy (hin.mp h)), if_neg (fun h => hy h.1)]
  · rw [if_neg hdirty]
    exact ⟨v, rfl, rfl, rfl, fun y x _ => (if_neg fun h => hdirty h.2).symm⟩

/-- The lines from `i` on are shown if they are marked. -/
theorem updateLinesFrom_ok (hblit : Copies blitSurface) (vmem : Nat → Byte) :
    ∀ (n i : Nat) (v : Vga), i + n ≤ CTR_ROW →
    ∃ v', updateLinesFrom blitSurface vmem i n v = .ok v' ∧ v'.line_dirty = v.line_dirty ∧
      v'.vmem_base = v.vmem_base ∧ ∀ y x, x < SCREEN_COL → v'.real_screen y x =
        if (i ≤ y / 2 ∧ y / 2 < i + n) ∧ v.line_dirty (y / 2) then vmem (y / 2 * CTR_COL + x / 2)
        else v.real_screen y x := by
  intro n
  induction n with
  | zero =>
      intro i v _
      exact ⟨v, rfl, rfl, rfl, fun y x _ => (if_neg (by omega)).symm⟩
  | succ n ih =>
      intro i v hi
      have hlt : i < CTR_ROW := by omega
      obtain ⟨v₁, hline, hdirty₁, hbase₁, hscreen₁⟩ := updateLine_ok hblit vmem hlt v
      obtain ⟨v₂, hlines, hdirty₂, hbase₂, hscreen₂⟩ := ih (i + 1) v₁ (by omega)
      refine ⟨v₂, ?_, hdirty₂.trans hdirty₁, hbase₂.trans hbase₁, fun y x hx => ?_⟩
      · rw [updateLinesFrom, hline, ok_bind, hlines]
      · rw [hscreen₂ y x hx, hscreen₁ y x hx, hdirty₁]
        by_cases hy : y / 2 = i
        · rw [if_neg (by omega), hy]
          have hin : i ≤ i ∧ i < i + (n + 1) := by omega
          simp only [hin, true_and]
        · have hsame : (i + 1 ≤ y / 2 ∧ y / 2 < i + 1 + n) ↔ (i ≤ y / 2 ∧ y / 2 < i + (n + 1)) := by
            omega
          simp only [hsame, hy, false_and, if_false]

end Loops

end Vga

namespace Mmio

/-! ## The video memory on the bus -/

-- the video memory that `vmem_base` points to
def vmem (s : Mmio Vga) (x : Nat) : Byte := s.mmio_space_pool (s.dev.vmem_base + x)

/-- `init_vga`, without the ports. -/
def initVga (s : Mmio Vga) : Except Abort (Mmio Vga) := do
  let (space_base, s) ← s.addMmioMap 0xa0000 0x20000 Vga.vgaVmemIoHandler
  return { s with dev := { s.dev with vmem_base := space_base } }

def updateScreen (blitSurface : Blit) (s : Mmio Vga) : Except Abort (Mmio Vga) := do
  if s.dev.vmem_dirty then
    let v ← s.dev.doUpdateScreenGraphicMode blitSurface s.vmem
    return { s with dev := { v with
      vmem_dirty := false
      line_dirty := fun i => if i < CTR_ROW then false else v.line_dirty i } }
  else
    return s

/-- An address of the video memory. -/
abbrev VmemAddr : Type := { addr : Addr // 0xa0000 ≤ addr ∧ addr ≤ 0xbffff }

/-- The byte of video memory at an address. -/
def VmemAddr.offset (addr : VmemAddr) : Nat := (addr.val - 0xa0000).toNat

inductive VgaOp where
  | mmioRead (addr : VmemAddr) (len : Width)
  | mmioWrite (addr : VmemAddr) (len : Width) (data : BitVec 32)
  | updateScreen

/-- One call, with the map that `is_mmio` finds; a read answers with its value. -/
def vgaStep (blitSurface : Blit) (s : Mmio Vga) : VgaOp → Except Abort (Option (BitVec 32) × Mmio Vga)
  | .mmioRead addr len => do
      let map_NO ← (s.isMmio addr.val).elim (.error .outOfBounds) .ok
      let (data, s) ← s.mmioRead addr.val len.bytes map_NO
      return (some data, s)
  | .mmioWrite addr len data => do
      let map_NO ← (s.isMmio addr.val).elim (.error .outOfBounds) .ok
      let s ← s.mmioWrite addr.val len.bytes data map_NO
      return (none, s)
  | .updateScreen => do
      let s ← s.updateScreen blitSurface
      return (none, s)

/-! ## The screen as a copy -/

/-- A pixel of `real_screen`, row first; a block of four shows one byte. -/
abbrev Pixel : Type := Fin SCREEN_ROW × Fin SCREEN_COL

def Pixel.line (p : Pixel) : Nat := p.1.val / 2

def Pixel.byte (p : Pixel) : Nat := p.line * CTR_COL + p.2.val / 2

-- what a pixel should show, and what it shows
def memory (s : Mmio Vga) (p : Pixel) : Byte := s.vmem p.byte

def shown (s : Mmio Vga) (p : Pixel) : Byte := s.dev.real_screen p.1.val p.2.val

/-- An update would copy line `l`. -/
def Marked (s : Mmio Vga) (l : Nat) : Prop := s.dev.vmem_dirty = true ∧ s.dev.line_dirty l = true

instance (s : Mmio Vga) : DecidablePred s.Marked := fun _ => inferInstanceAs (Decidable (_ ∧ _))

/-- What is not on the screen is on a marked line, and an update brings the whole video memory
    to the screen. -/
structure ScreenRight (blitSurface : Blit) (s : Mmio Vga) : Prop where
  covered : Covered s.Marked Pixel.line s.memory s.shown
  update : ∃ s', s.updateScreen blitSurface = .ok s' ∧ s'.shown = s'.memory

/-- A write changes no byte of the screen that is on another line than its first byte, unless
    that line is marked before. -/
def OneLine (s : Mmio Vga) : VgaOp → Prop
  | .mmioWrite addr len data =>
      ∀ k, k < len.bytes → addr.offset + k < CTR_ROW * CTR_COL →
        leByte data.toNat k ≠ s.vmem (addr.offset + k) →
        (addr.offset + k) / CTR_COL = addr.offset / CTR_COL ∨
          s.dev.line_dirty ((addr.offset + k) / CTR_COL) = true
  | _ => True

/-- What `init_vga` leaves and no call changes. -/
structure Installed (s : Mmio Vga) : Prop where
  maps : s.maps
    = [{ low := 0xa0000, high := 0xbffff, mmio_space := 0, callback := Vga.vgaVmemIoHandler }]
  base : s.dev.vmem_base = 0

section Steps

variable {blitSurface : Blit} {s s' : Mmio Vga} {addr : VmemAddr} {len : Width} {data : BitVec 32} {p : Pixel}

theorem Pixel.line_lt (p : Pixel) : p.line < CTR_ROW := by
  have hrow : SCREEN_ROW = 2 * CTR_ROW := rfl
  have hlt := p.1.isLt
  rw [Pixel.line]
  omega

theorem Pixel.column_lt (p : Pixel) : p.2.val / 2 < CTR_COL := by
  have hcol : SCREEN_COL = 2 * CTR_COL := rfl
  have hlt := p.2.isLt
  omega

theorem Pixel.byte_div (p : Pixel) : p.byte / CTR_COL = p.line := by
  have hcol := p.column_lt
  rw [Pixel.byte, Nat.mul_comm, Nat.mul_add_div CTR_COL_pos, Nat.div_eq_of_lt hcol, Nat.add_zero]

theorem Pixel.byte_lt (p : Pixel) : p.byte < CTR_ROW * CTR_COL := by
  rw [← Nat.div_lt_iff_lt_mul CTR_COL_pos, p.byte_div]
  exact p.line_lt

-- every byte of the screen has a pixel
theorem exists_pixel {b : Nat} (hb : b < CTR_ROW * CTR_COL) : ∃ p : Pixel, p.byte = b := by
  have hrow : SCREEN_ROW = 2 * CTR_ROW := rfl
  have hcol : SCREEN_COL = 2 * CTR_COL := rfl
  have hline := (Nat.div_lt_iff_lt_mul CTR_COL_pos).mpr hb
  have hcolumn : b % CTR_COL < CTR_COL := Nat.mod_lt _ CTR_COL_pos
  refine ⟨(⟨2 * (b / CTR_COL), by omega⟩, ⟨2 * (b % CTR_COL), by omega⟩), ?_⟩
  rw [Pixel.byte, Pixel.line, Nat.mul_div_cancel_left _ Nat.two_pos,
    Nat.mul_div_cancel_left _ Nat.two_pos, Nat.mul_comm, Nat.div_add_mod]

/-- An update is a refresh of the screen. -/
theorem updateScreen_ok (hblit : Copies blitSurface) (hs : s.Installed) :
    ∃ s', s.updateScreen blitSurface = .ok s' ∧ s'.Installed ∧ s'.memory = s.memory ∧ (∀ l, ¬ s'.Marked l) ∧
      s'.shown = refresh s.Marked Pixel.line s.memory s.shown := by
  rw [updateScreen]
  by_cases hdirty : s.dev.vmem_dirty = true
  · obtain ⟨v, hv, hline, hbase, hscreen⟩ :=
      Vga.updateLinesFrom_ok hblit s.vmem CTR_ROW 0 s.dev (Nat.le_of_eq (Nat.zero_add _))
    rw [if_pos hdirty, Vga.doUpdateScreenGraphicMode, hv, ok_bind]
    refine ⟨_, rfl, ⟨hs.maps, hbase.trans hs.base⟩, ?_, fun l hl => (nomatch hl.1), ?_⟩
    · funext p
      rw [memory, vmem, hbase]
      rfl
    · funext p
      have hp := p.line_lt
      rw [shown, hscreen _ _ p.2.isLt, refresh]
      refine if_congr ?_ rfl rfl
      rw [Marked, ← Pixel.line]
      simp only [hdirty, true_and, Nat.zero_le, Nat.zero_add, hp]
  · rw [if_neg hdirty]
    refine ⟨s, rfl, hs, rfl, fun l hl => hdirty hl.1, ?_⟩
    funext p
    rw [refresh, if_neg fun h => hdirty h.1]

/-- With the video memory alone on the bus, an update is right as long as the marks cover the
    bytes that the screen does not show. -/
theorem screenRight_iff (hblit : Copies blitSurface) (hs : s.Installed) :
    s.ScreenRight blitSurface ↔ Covered s.Marked Pixel.line s.memory s.shown := by
  obtain ⟨s', hupdate, -, hmemory, -, hshown⟩ := updateScreen_ok hblit hs
  refine ⟨fun h => h.covered, fun h => ⟨h, s', hupdate, ?_⟩⟩
  rw [hshown, hmemory]
  exact refresh_eq_iff.mpr h

theorem isMmio_vmem (hs : s.Installed) (addr : VmemAddr) : s.isMmio addr.val = some 0 := by
  have hhas := decide_eq_true addr.property
  rw [isMmio, hs.maps, List.findIdx?_cons]
  exact if_pos hhas

/-- A read leaves the screen and the marks alone. -/
theorem vgaStep_read (hs : s.Installed) (addr : VmemAddr) (len : Width) :
    ∃ data, s.vgaStep blitSurface (.mmioRead addr len) = .ok (some data, s) := by
  have hmap : s.maps[0]? = some _ := congrArg (·[0]?) hs.maps
  rw [vgaStep, isMmio_vmem hs, Option.elim_some, ok_bind, mmioRead_run hmap, ok_bind]
  exact ⟨_, rfl⟩

/-- A write puts its bytes in the video memory and calls the handler. -/
theorem vgaStep_write (hs : s.Installed) (addr : VmemAddr) (len : Width) (data : BitVec 32) :
    s.vgaStep blitSurface (.mmioWrite addr len data) = .ok (none, { s with
      mmio_space_pool := patch s.mmio_space_pool addr.offset len.bytes (leByte data.toNat)
      dev := Vga.vgaVmemIoHandler addr.val len.bytes true s.dev }) := by
  have hmap : s.maps[0]? = some _ := congrArg (·[0]?) hs.maps
  rw [vgaStep, isMmio_vmem hs, Option.elim_some, ok_bind, mmioWrite_run hmap, ok_bind]
  rw [MMIO_t.place, Nat.zero_add]
  rfl

/-- The state after a write. -/
def written (s : Mmio Vga) (addr : VmemAddr) (len : Width) (data : BitVec 32) : Mmio Vga := { s with
  mmio_space_pool := patch s.mmio_space_pool addr.offset len.bytes (leByte data.toNat)
  dev := Vga.vgaVmemIoHandler addr.val len.bytes true s.dev }

theorem handler_frame (addr : Addr) (len : Nat) (v : Vga) :
    (Vga.vgaVmemIoHandler addr len true v).vmem_base = v.vmem_base ∧
      (Vga.vgaVmemIoHandler addr len true v).real_screen = v.real_screen := by
  simp only [Vga.vgaVmemIoHandler, if_true]
  split <;> exact ⟨rfl, rfl⟩

-- the handler unmarks nothing
theorem marked_written_of_marked {l : Nat} (h : s.Marked l) :
    (s.written addr len data).Marked l := by
  have hmarks : ((Vga.vgaVmemIoHandler addr.val len.bytes true s.dev).vmem_dirty = true ∧
      (Vga.vgaVmemIoHandler addr.val len.bytes true s.dev).line_dirty l = true) := by
    simp only [Vga.vgaVmemIoHandler, if_true]
    split
    · refine ⟨rfl, ?_⟩
      by_cases hl : l = (addr.val - 0xa0000).toNat / CTR_COL
      · rw [hl]
        exact Function.update_self ..
      · exact (Function.update_of_ne hl ..).trans h.2
    · exact h
  exact hmarks

/-- The handler marks the line of the first byte, if it is on the screen. -/
theorem marked_written_iff (hline : addr.offset / CTR_COL < CTR_ROW) {l : Nat} :
    (s.written addr len data).Marked l ↔
      l = addr.offset / CTR_COL ∨ s.dev.line_dirty l = true := by
  have hdev : (s.written addr len data).dev = { s.dev with
      line_dirty := Function.update s.dev.line_dirty (addr.offset / CTR_COL) true
      vmem_dirty := true } := if_pos hline
  rw [Marked, hdev]
  by_cases hl : l = addr.offset / CTR_COL
  · simp [hl]
  · simp [hl]

-- what a pixel should show after a write
theorem memory_written (hs : s.Installed) (p : Pixel) :
    (s.written addr len data).memory p
      = patch s.mmio_space_pool addr.offset len.bytes (leByte data.toNat) p.byte := by
  have hbase := (handler_frame addr.val len.bytes s.dev).1.trans hs.base
  rw [memory, vmem, written, hbase, Nat.zero_add]

theorem memory_eq (hs : s.Installed) (p : Pixel) : s.memory p = s.mmio_space_pool p.byte := by
  rw [memory, vmem, hs.base, Nat.zero_add]

theorem installed_written (hs : s.Installed) : (s.written addr len data).Installed :=
  ⟨hs.maps, (handler_frame addr.val len.bytes s.dev).1.trans hs.base⟩

/-- A write keeps the screen covered exactly if it stays on one line, or on marked ones. -/
theorem written_covered_iff (hs : s.Installed) (h : Covered s.Marked Pixel.line s.memory s.shown) :
    Covered (s.written addr len data).Marked Pixel.line (s.written addr len data).memory
        (s.written addr len data).shown ↔
      s.OneLine (.mmioWrite addr len data) := by
  have hshown : (s.written addr len data).shown = s.shown := by
    funext p
    rw [shown, written, (handler_frame addr.val len.bytes s.dev).2]
    rfl
  rw [hshown, h.write_iff fun l hl => marked_written_of_marked hl]
  apply Iff.intro
  · intro hmarks k hk hb hne
    obtain ⟨p, hp⟩ := exists_pixel hb
    have hline : p.line = (addr.offset + k) / CTR_COL := by rw [← p.byte_div, hp]
    have hfirst : addr.offset / CTR_COL < CTR_ROW := by
      have hle : addr.offset / CTR_COL ≤ (addr.offset + k) / CTR_COL :=
        Nat.div_le_div_right (Nat.le_add_right _ _)
      have hlt := p.line_lt
      omega
    rw [← hline]
    refine (marked_written_iff hfirst).mp (hmarks p ?_)
    rw [memory_written hs, patch_inside (by omega) (by omega), hp, Nat.add_sub_cancel_left]
    rw [vmem, hs.base, Nat.zero_add] at hne
    rw [memory_eq hs, hp]
    exact hne
  · intro hone p hchanged
    rw [memory_written hs, memory_eq hs] at hchanged
    have hin : addr.offset ≤ p.byte ∧ p.byte < addr.offset + len.bytes := by
      by_contra hout
      exact hchanged (patch_outside (by omega))
    rw [patch_inside hin.1 hin.2] at hchanged
    have hk : addr.offset + (p.byte - addr.offset) = p.byte := Nat.add_sub_cancel' hin.1
    have hor := hone (p.byte - addr.offset) (by omega)
    rw [hk, vmem, hs.base, Nat.zero_add, p.byte_div] at hor
    have hfirst : addr.offset / CTR_COL < CTR_ROW := by
      rw [Nat.div_lt_iff_lt_mul CTR_COL_pos]
      exact Nat.lt_of_le_of_lt hin.1 p.byte_lt
    exact (marked_written_iff hfirst).mpr (hor p.byte_lt hchanged)

/-- One call keeps the screen right iff it stays on one line, or on marked ones. -/
theorem vgaStep_right_iff (hblit : Copies blitSurface) (hs : s.Installed)
    (h : s.ScreenRight blitSurface) (op : VgaOp) :
    ∃ o s', s.vgaStep blitSurface op = .ok (o, s') ∧ s'.Installed ∧
      (s'.ScreenRight blitSurface ↔ s.OneLine op) := by
  cases op with
  | mmioRead addr len =>
      obtain ⟨data, hread⟩ := vgaStep_read hs addr len
      exact ⟨_, s, hread, hs, iff_of_true h trivial⟩
  | mmioWrite addr len data =>
      have hs' : (s.written addr len data).Installed := installed_written hs
      refine ⟨_, s.written addr len data, vgaStep_write hs addr len data, hs', ?_⟩
      rw [screenRight_iff hblit hs', written_covered_iff hs h.covered]
  | updateScreen =>
      obtain ⟨s', hupdate, hs', hmemory, -, hshown⟩ := updateScreen_ok hblit hs
      refine ⟨none, s', ?_, hs', iff_of_true ((screenRight_iff hblit hs').mpr (covered_of_eq ?_)) trivial⟩
      · rw [vgaStep, hupdate, ok_bind]
        rfl
      · rw [hshown, hmemory]
        exact refresh_eq_iff.mpr h.covered

end Steps

/-! ## Runs -/

-- the static variables of `vga.c`, and the surfaces that `init_sdl` makes
def offScreen (pixel_buf real_screen : Nat → Nat → Byte) : Vga :=
  { vmem_base := 0
    vmem_dirty := false
    line_dirty := fun _ => false
    pixel_buf := pixel_buf
    real_screen := real_screen }

-- the state after `init_vga`, with the first map of `mmio.c`
def onBus (v : Vga) : Mmio Vga := { static v with
  maps := [{ low := 0xa0000, high := 0xbffff, mmio_space := 0, callback := Vga.vgaVmemIoHandler }]
  mmio_space_free_index := 0x20000
  dev := { v with vmem_base := 0 } }

theorem initVga_static (v : Vga) : initVga (static v) = .ok (onBus v) := by
  have hhigh : (0xa0000 : Addr) + (0x20000 : BitVec 64).setWidth 32 - 1 = 0xbffff := by decide
  have hfree : (0 : BitVec 32) + (0x20000 : BitVec 64).setWidth 32 = 0x20000 := by decide
  have hfits : ((0 : BitVec 32).setWidth 64 + (0x20000 : BitVec 64)).toNat ≤ MMIO_SPACE_MAX := by
    decide
  rw [initVga, addMmioMap_ok (s := static v) (by decide : 0 < NR_MAP) hfits, hhigh]
  exact congrArg (fun free => Except.ok { onBus v with mmio_space_free_index := free }) hfree

/-- **The screen and the video memory.** From `init_vga` on, with a black screen: no access to
    the video memory and no update fails, what is not on the screen is on a marked line and
    every update shows the whole memory, exactly if no write changes a byte of the screen on
    another line than its first byte that was not marked before. -/
theorem screen_right_iff (blitSurface : Blit) (hblit : Copies blitSurface)
    (pixel_buf real_screen : Nat → Nat → Byte) (hblack : ∀ y x, real_screen y x = 0)
    (ops : List VgaOp) :
    ∃ s, initVga (static (offScreen pixel_buf real_screen)) = .ok s ∧
      (Stays (vgaStep blitSurface) (ScreenRight blitSurface) s ops ↔
        Meets (vgaStep blitSurface) OneLine s ops) := by
  refine ⟨_, initVga_static _, ?_⟩
  have hs : (onBus (offScreen pixel_buf real_screen)).Installed := ⟨rfl, rfl⟩
  have hright : (onBus (offScreen pixel_buf real_screen)).ScreenRight blitSurface := by
    refine (screenRight_iff hblit hs).mpr (covered_of_eq ?_)
    funext p
    exact hblack p.1.val p.2.val
  have hstep : ∀ (s : Mmio Vga) (op : VgaOp), s.Installed → s.ScreenRight blitSurface →
      ∃ o s', s.vgaStep blitSurface op = .ok (o, s') ∧ s'.Installed ∧
        (s'.ScreenRight blitSurface ↔ s.OneLine op) :=
    fun _ op hs h => vgaStep_right_iff hblit hs h op
  exact stays_iff_meets hstep ops _ hs hright

-- four bytes in the first line, and an update
theorem screen_right_first :
    ∃ s, initVga (static (offScreen (fun _ _ => 0) (fun _ _ => 0))) = .ok s ∧
      Stays (vgaStep copyRect) (ScreenRight copyRect) s
        [.mmioWrite ⟨0xa0000, by decide⟩ .long 0x04030201, .updateScreen] := by
  obtain ⟨s, hs, hiff⟩ := screen_right_iff copyRect copies_copyRect (fun _ _ => 0) (fun _ _ => 0)
    (fun _ _ => rfl)
    [.mmioWrite ⟨0xa0000, by decide⟩ .long 0x04030201, .updateScreen]
  refine ⟨s, hs, hiff.mpr ⟨fun k hk _ _ => .inl ?_, fun _ _ _ => ⟨trivial, fun _ _ _ => trivial⟩⟩⟩
  have hk4 : k < 4 := hk
  have hzero : VmemAddr.offset ⟨0xa0000, by decide⟩ = 0 := rfl
  rw [hzero, Nat.zero_add, Nat.zero_div, Nat.div_eq_of_lt (Nat.lt_trans hk4 (by decide))]

-- two bytes at the end of the first line
def staleWrite : VgaOp := .mmioWrite ⟨0xa013f, by decide⟩ .word 0x0101

/-- Two bytes written at the end of the first line: the second is on the next line, which is not
    marked, and an update does not show it. -/
theorem write_leaves_stale_line :
    ∃ s answers s', initVga (static (offScreen (fun _ _ => 0) (fun _ _ => 0))) = .ok s ∧
      DetSystem.run (vgaStep copyRect) s [staleWrite, .updateScreen] = .ok (answers, s') ∧
      s'.shown ≠ s'.memory ∧
      ¬ Stays (vgaStep copyRect) (ScreenRight copyRect) s [staleWrite, .updateScreen] := by
  have hs : (onBus (offScreen (fun _ _ => 0) (fun _ _ => 0))).Installed := ⟨rfl, rfl⟩
  have hwrite := @vgaStep_write copyRect _ hs ⟨0xa013f, by decide⟩ .word 0x0101
  obtain ⟨s', hupdate, -, hmemory, -, hshown⟩ := updateScreen_ok copies_copyRect
    (@installed_written _ ⟨0xa013f, by decide⟩ .word 0x0101 hs)
  -- the first pixel of the second line
  have hstale : s'.shown (⟨2, by decide⟩, ⟨0, by decide⟩) ≠
      s'.memory (⟨2, by decide⟩, ⟨0, by decide⟩) := by
    rw [hshown, hmemory, refresh, if_neg fun h => absurd h.2 (by decide)]
    decide
  refine ⟨_, [none, none], s', initVga_static _, ?_, fun h => hstale (congrFun h _), ?_⟩
  · refine run_cons_ok.mpr ⟨none, _, [none], hwrite, run_cons_ok.mpr ⟨none, s', [], ?_, rfl, rfl⟩, rfl⟩
    exact bind_eq_ok.mpr ⟨s', hupdate, rfl⟩
  · rintro ⟨-, o, s₁, hstep, hright, -⟩
    obtain ⟨-, rfl⟩ := Prod.mk.inj (Except.ok.inj (hwrite.symm.trans hstep))
    have hmarked := hright.covered (⟨2, by decide⟩, ⟨0, by decide⟩) (by decide)
    exact absurd hmarked.2 (by decide)

end Mmio

end Nemu
