/-
  Nemu.Pal.RngFrames

  The programs of frames as lists of commands, what they draw, and what playing an animation
  shows: at every place of the screen what the newest frame that draws there has put.
-/

import Nemu.Pal.MkfArchive
import Nemu.Pal.RleOverlay
import Nemu.Pal.Rng

namespace Nemu.Pal

open Lz77 Outcome Paint

/-! ## Programs -/

/-- Two pixels, one behind the other. -/
abbrev Pair := Byte × Byte

def pairBytes (p : Pair) : List Byte := [p.1, p.2]

def shortBytes (x : BitVec 16) : List Byte := [x.setWidth 8, (x >>> 8).setWidth 8]

/-- A turn of the loop that draws: pairs are left out, copied, or one is repeated; how many
    there are is in the code itself, in a byte or in a word, less one. -/
inductive Command where
  | nothing (code : Byte)
  | skip
  | skipByte (n : Byte)
  | skipShort (n : BitVec 16)
  | copy (ps : List Pair)
  | copyByte (n : Byte) (ps : List Pair)
  | copyShort (n : BitVec 16) (ps : List Pair)
  | rep (n : Nat) (p : Pair)
  | repByte (n : Byte) (p : Pair)
  | repShort (n : BitVec 16) (p : Pair)

namespace Command

def bytes : Command → List Byte
  | nothing code => [code]
  | skip => [0x02]
  | skipByte n => [0x03, n]
  | skipShort n => 0x04 :: shortBytes n
  | copy ps => BitVec.ofNat 8 (0x05 + ps.length) :: ps.flatMap pairBytes
  | copyByte n ps => 0x0b :: n :: ps.flatMap pairBytes
  | copyShort n ps => 0x0c :: (shortBytes n ++ ps.flatMap pairBytes)
  | rep n p => BitVec.ofNat 8 (0x0b + n) :: pairBytes p
  | repByte n p => 0x11 :: n :: pairBytes p
  | repShort n p => 0x12 :: (shortBytes n ++ pairBytes p)

def pairs : Command → List (Option Pair)
  | nothing _ => []
  | skip => [none]
  | skipByte n => List.replicate (n.toNat + 1) none
  | skipShort n => List.replicate (n.toNat + 1) none
  | copy ps | copyByte _ ps | copyShort _ ps => ps.map some
  | rep n p => List.replicate n (some p)
  | repByte n p => List.replicate (n.toNat + 1) (some p)
  | repShort n p => List.replicate (n.toNat + 1) (some p)

/-- The numbers are those that the codes can say. -/
def Coded : Command → Prop
  | nothing code => code.toNat = 0x01 ∨ code.toNat = 0x05 ∨ 0x13 < code.toNat
  | copy ps => 1 ≤ ps.length ∧ ps.length ≤ 5
  | copyByte n ps => ps.length = n.toNat + 1
  | copyShort n ps => ps.length = n.toNat + 1
  | rep n _ => 2 ≤ n ∧ n ≤ 5
  | _ => True

end Command

/-- The two pixels of a pair. -/
def pairCells : Option Pair → List (Option Byte)
  | none => [none, none]
  | some p => [some p.1, some p.2]

def cellsOf (ps : List (Option Pair)) : List (Option Byte) := ps.flatMap pairCells

def programCells (cs : List Command) : List (Option Byte) := cellsOf (cs.flatMap Command.pairs)

/-- What `Decompress` makes of a frame that was read into an empty buffer. -/
def Unpacks (bytes program : List Byte) : Prop :=
  ∃ cs x out, FileAt (bytes ++ callocBuf.drop bytes.length) cs ∧
    intAt (bytes ++ callocBuf.drop bytes.length) 4 = .ok x ∧ ¬x > 65000 ∧
      expand callocBuf cs [] = some out ∧ program = out ++ callocBuf.drop out.length

/-- A frame as it is in an animation, with its program. -/
structure Frame where
  bytes : List Byte
  commands : List Command
  nonempty : bytes ≠ []
  fits : bytes.length ≤ 65000
  coded : ∀ c ∈ commands, c.Coded
  onScreen : 2 * (commands.flatMap Command.pairs).length ≤ 64000
  unpacks : ∃ stop rest, Unpacks bytes (commands.flatMap Command.bytes ++ stop :: rest) ∧
    (stop = 0x00 ∨ stop = 0x13)

def Frame.cells (f : Frame) : List (Option Byte) := programCells f.commands

/-- The file of some animations. -/
def rngFile (anims : List (List Frame)) : List Byte :=
  archive (anims.map fun fs => archive (fs.map Frame.bytes))

/-! ## Drawing -/

section Drawing

variable {rng : List Byte} {surface : Surface}

theorem length_pairCells (p : Option Pair) : (pairCells p).length = 2 := by
  cases p <;> rfl

theorem length_cellsOf (ps : List (Option Pair)) : (cellsOf ps).length = 2 * ps.length :=
  FixedWidth.length_flatMap length_pairCells ps

theorem length_pairBytes (p : Pair) : (pairBytes p).length = 2 := rfl

/-- What pairs from pixel `k` on put on the screen. -/
def pairsLayer (surface : Surface) (k : Nat) (ps : List (Option Pair)) : Layer Nat Byte :=
  cellsLayer id surface 0 0 320 k (cellsOf ps)

theorem pairsLayer_append (k : Nat) (ps qs : List (Option Pair)) :
    pairsLayer surface k (ps ++ qs) =
      stack (pairsLayer surface k ps) (pairsLayer surface (k + 2 * ps.length) qs) := by
  rw [pairsLayer, cellsOf, List.flatMap_append, cellsLayer_append]
  show stack _ (cellsLayer id surface 0 0 320 (k + (cellsOf ps).length) _) = _
  rw [length_cellsOf]
  rfl

theorem pairsLayer_cons (m : Nat) (p : Option Pair) (ps : List (Option Pair)) :
    pairsLayer surface (2 * m) (p :: ps) =
      stack (pairsLayer surface (2 * m) [p]) (pairsLayer surface (2 * (m + 1)) ps) :=
  pairsLayer_append (2 * m) [p] ps

theorem pairsLayer_none (k n : Nat) : pairsLayer surface k (List.replicate n none) = blank := by
  have hcells : cellsOf (List.replicate n none) = List.replicate (2 * n) none := by
    induction n with
    | zero => rfl
    | succ n ih =>
        rw [List.replicate_succ, cellsOf, List.flatMap_cons]
        show [none, none] ++ cellsOf (List.replicate n none) = _
        rw [ih]
        rfl
  rw [pairsLayer, hcells, cellsLayer_replicate]

/-- A pair lies in one row. -/
theorem putPair_eq (hscreen : surface.Screen) {m : Nat} (hm : 2 * m + 2 ≤ 64000) (p : Pair)
    (pixels : Nat → Byte) :
    putPair surface p.1 p.2 (2 * m) pixels =
      .ok (overlay (pairsLayer surface (2 * m) [some p]) pixels) := by
  have hw := hscreen.w
  have hh := hscreen.h
  have hplace : ∀ j, j < 2 → place surface 0 0 320 (2 * m + j) =
      some ((((2 * m) / 320 : Nat) : Int) * surface.pitch + ((2 * m) % 320 + j : Nat)).toNat := by
    intro j hj
    rw [place_row (by omega), if_pos ⟨by omega, by omega, by omega, by omega⟩, Int.add_zero,
      Int.add_zero]
  have hlayer : pairsLayer surface (2 * m) [some p] =
      stack (cellLayer id surface 0 0 320 (2 * m + 0) (some p.1))
        (stack (cellLayer id surface 0 0 320 (2 * m + 1) (some p.2)) blank) := rfl
  have hx : ((2 * m % 320 : Nat) : Int) + 1 = (2 * m % 320 + 1 : Nat) := rfl
  rw [hlayer, cellLayer_dot (hplace 0 Nat.two_pos), cellLayer_dot (hplace 1 Nat.one_lt_two),
    stack_blank, overlay_stack, putPair]
  rw [putPixel_eq hscreen.toFits (by omega) (by omega) (by omega) (by omega), ok_bind,
    if_neg (by omega), putPixel_eq hscreen.toFits (by omega) (by omega) (by omega) (by omega)]
  rfl

theorem copyPairs_eq (hscreen : surface.Screen) {rest : List Byte} (ps : List Pair) :
    ∀ (ptr m : Nat) (pixels : Nat → Byte), rng.drop ptr = ps.flatMap pairBytes ++ rest →
      2 * (m + ps.length) ≤ 64000 →
        copyPairs rng surface ps.length ⟨ptr, 2 * m, pixels⟩ =
          .ok ⟨ptr + 2 * ps.length, 2 * (m + ps.length),
            overlay (pairsLayer surface (2 * m) (ps.map some)) pixels⟩ := by
  induction ps with
  | nil => exact fun ptr m pixels _ _ => rfl
  | cons p ps ih =>
      intro ptr m pixels hdrop hroom
      rw [List.length_cons] at hroom
      have hdrop' : rng.drop (ptr + 1) = p.2 :: (ps.flatMap pairBytes ++ rest) :=
        drop_succ_of_drop hdrop
      have hrest := ih (ptr + 2) (m + 1) (overlay (pairsLayer surface (2 * m) [some p]) pixels)
        (drop_succ_of_drop hdrop') (by omega)
      rw [List.length_cons, copyPairs, byteAt_of_drop hdrop, ok_bind, byteAt_of_drop hdrop', ok_bind,
        putPair_eq hscreen (by omega), ok_bind]
      refine Eq.trans hrest ?_
      rw [List.map_cons, pairsLayer_cons m (some p) (ps.map some), overlay_stack,
        show m + 1 + ps.length = m + (ps.length + 1) by omega,
        show ptr + 2 + 2 * ps.length = ptr + 2 * (ps.length + 1) by omega]

theorem repeatPair_eq (hscreen : surface.Screen) {ptr : Nat} {p : Pair} {rest : List Byte}
    (hdrop : rng.drop ptr = pairBytes p ++ rest) (n : Nat) :
    ∀ (m : Nat) (pixels : Nat → Byte), 2 * (m + n) ≤ 64000 →
      repeatPair' rng surface n ⟨ptr, 2 * m, pixels⟩ =
        .ok ⟨ptr + 2, 2 * (m + n),
          overlay (pairsLayer surface (2 * m) (List.replicate n (some p))) pixels⟩ := by
  have hdrop' : rng.drop (ptr + 1) = p.2 :: rest := drop_succ_of_drop hdrop
  induction n with
  | zero => exact fun m pixels _ => rfl
  | succ n ih =>
      intro m pixels hroom
      have hrest := ih (m + 1) (overlay (pairsLayer surface (2 * m) [some p]) pixels) (by omega)
      rw [repeatPair', repeatPair, byteAt_of_drop hdrop, ok_bind, byteAt_of_drop hdrop', ok_bind,
        putPair_eq hscreen (by omega), ok_bind]
      refine Eq.trans hrest ?_
      rw [List.replicate_succ, pairsLayer_cons m (some p) (List.replicate n (some p)), overlay_stack,
        show m + 1 + n = m + (n + 1) by omega]

theorem shortAt_of_drop {ptr : Nat} {x : BitVec 16} {rest : List Byte}
    (hdrop : rng.drop ptr = shortBytes x ++ rest) : shortAt rng ptr = .ok x := by
  have hdrop' : rng.drop (ptr + 1) = (x >>> 8).setWidth 8 :: rest := drop_succ_of_drop hdrop
  rw [shortAt, byteAt_of_drop hdrop, ok_bind, byteAt_of_drop hdrop']
  exact congrArg Except.ok (bytes_word x)

theorem drop_of_drop {ptr : Nat} {l rest : List Byte} (hdrop : rng.drop ptr = l ++ rest) :
    rng.drop (ptr + l.length) = rest := by
  rw [← List.drop_drop, hdrop, List.drop_left]

theorem frameStep_nothing {ptr dst_ptr : Nat} {code : Byte} {rest : List Byte}
    (hdrop : rng.drop ptr = code :: rest) (hcode : (Command.nothing code).Coded)
    (pixels : Nat → Byte) :
    frameStep rng surface ⟨ptr, dst_ptr, pixels⟩ = .ok (some ⟨ptr + 1, dst_ptr, pixels⟩, pixels) := by
  have hne : ∀ n, n = 0x00 ∨ n = 0x13 ∨ n = 0x02 ∨ n = 0x03 ∨ n = 0x04 ∨ 0x06 ≤ n ∧ n ≤ 0x12 →
      code.toNat ≠ n := by
    rintro n hn rfl
    rw [Command.Coded] at hcode
    omega
  rw [frameStep, byteAt_of_drop hdrop, ok_bind]
  dsimp only
  split
  case h_19 => rfl
  all_goals exact absurd ‹_› (hne _ (by decide))

theorem frameStep_copy {ptr dst_ptr : Nat} {code : Byte} {rest : List Byte}
    (hdrop : rng.drop ptr = code :: rest) (hlow : 0x06 ≤ code.toNat) (hhigh : code.toNat ≤ 0x0a)
    (pixels : Nat → Byte) :
    frameStep rng surface ⟨ptr, dst_ptr, pixels⟩ =
      (do
        let d ← copyPairs rng surface (code.toNat - 0x05) ⟨ptr + 1, dst_ptr, pixels⟩
        return (some d, d.pixels)) := by
  have hcases : code.toNat = 0x06 ∨ code.toNat = 0x07 ∨ code.toNat = 0x08 ∨ code.toNat = 0x09 ∨
      code.toNat = 0x0a := by omega
  rw [frameStep, byteAt_of_drop hdrop, ok_bind]
  rcases hcases with h | h | h | h | h <;> rw [h] <;> rfl

theorem frameStep_rep {ptr dst_ptr : Nat} {code : Byte} {rest : List Byte}
    (hdrop : rng.drop ptr = code :: rest) (hlow : 0x0d ≤ code.toNat) (hhigh : code.toNat ≤ 0x10)
    (pixels : Nat → Byte) :
    frameStep rng surface ⟨ptr, dst_ptr, pixels⟩ =
      (do
        let d ← repeatPair' rng surface (code.toNat - 0x0b) ⟨ptr + 1, dst_ptr, pixels⟩
        return (some d, d.pixels)) := by
  have hcases : code.toNat = 0x0d ∨ code.toNat = 0x0e ∨ code.toNat = 0x0f ∨ code.toNat = 0x10 := by
    omega
  rw [frameStep, byteAt_of_drop hdrop, ok_bind]
  rcases hcases with h | h | h | h <;> rw [h] <;> rfl

theorem frameStep_eq (hscreen : surface.Screen) {c : Command} (hcoded : c.Coded) {ptr m : Nat}
    {rest : List Byte} (hdrop : rng.drop ptr = c.bytes ++ rest)
    (hroom : 2 * (m + c.pairs.length) ≤ 64000) (pixels : Nat → Byte) :
    frameStep rng surface ⟨ptr, 2 * m, pixels⟩ =
      .ok (some ⟨ptr + c.bytes.length, 2 * (m + c.pairs.length),
        overlay (pairsLayer surface (2 * m) c.pairs) pixels⟩,
        overlay (pairsLayer surface (2 * m) c.pairs) pixels) := by
  cases c with
  | nothing code => exact frameStep_nothing hdrop hcoded pixels
  | skip =>
      have hlayer : pairsLayer surface (2 * m) [none] = blank := pairsLayer_none (2 * m) 1
      rw [frameStep, byteAt_of_drop hdrop, ok_bind, Command.pairs, hlayer]
      rfl
  | skipByte n =>
      have hdrop' : rng.drop (ptr + 1) = n :: rest := drop_succ_of_drop hdrop
      rw [frameStep, byteAt_of_drop hdrop, ok_bind]
      show (byteAt rng (ptr + 1) >>= _) = _
      rw [byteAt_of_drop hdrop', Command.pairs, pairsLayer_none, List.length_replicate]
      show Except.ok (some (Drawing.mk (ptr + 2) (2 * m + (n.toNat + 1) * 2) pixels), pixels) = _
      rw [show 2 * m + (n.toNat + 1) * 2 = 2 * (m + (n.toNat + 1)) by omega]
      rfl
  | skipShort n =>
      have hdrop' : rng.drop (ptr + 1) = shortBytes n ++ rest := drop_succ_of_drop hdrop
      rw [frameStep, byteAt_of_drop hdrop, ok_bind]
      show (shortAt rng (ptr + 1) >>= _) = _
      rw [shortAt_of_drop hdrop', Command.pairs, pairsLayer_none, List.length_replicate]
      show Except.ok (some (Drawing.mk (ptr + 3) (2 * m + (n.toNat + 1) * 2) pixels), pixels) = _
      rw [show 2 * m + (n.toNat + 1) * 2 = 2 * (m + (n.toNat + 1)) by omega]
      rfl
  | copy ps =>
      obtain ⟨hpos, hlen⟩ := hcoded
      have hcode : (BitVec.ofNat 8 (0x05 + ps.length)).toNat = 0x05 + ps.length := by
        rw [BitVec.toNat_ofNat]
        omega
      rw [Command.pairs, List.length_map] at hroom
      rw [frameStep_copy hdrop (by omega) (by omega), hcode, Nat.add_sub_cancel_left,
        copyPairs_eq hscreen ps (ptr + 1) m pixels (drop_succ_of_drop hdrop) hroom, ok_bind,
        Command.bytes, Command.pairs, List.length_map, List.length_cons,
        FixedWidth.length_flatMap length_pairBytes, Nat.add_right_comm]
      rfl
  | copyByte n ps =>
      have hdrop' : rng.drop (ptr + 1) = n :: (ps.flatMap pairBytes ++ rest) := drop_succ_of_drop hdrop
      have hlen : ps.length = n.toNat + 1 := hcoded
      rw [Command.pairs, List.length_map] at hroom
      rw [frameStep, byteAt_of_drop hdrop, ok_bind]
      show (byteAt rng (ptr + 1) >>= _) = _
      rw [byteAt_of_drop hdrop', ok_bind]
      show (copyPairs rng surface (n.toNat + 1) ⟨ptr + 1 + 1, 2 * m, pixels⟩ >>= _) = _
      rw [← hlen, copyPairs_eq hscreen ps (ptr + 1 + 1) m pixels (drop_succ_of_drop hdrop') hroom,
        ok_bind, Command.bytes, Command.pairs, List.length_map, List.length_cons, List.length_cons,
        FixedWidth.length_flatMap length_pairBytes,
        show ptr + (2 * ps.length + 1 + 1) = ptr + 1 + 1 + 2 * ps.length by omega]
      rfl
  | copyShort n ps =>
      have hdrop' : rng.drop (ptr + 1) = shortBytes n ++ (ps.flatMap pairBytes ++ rest) := by
        rw [← List.append_assoc]
        exact drop_succ_of_drop hdrop
      have hlen : ps.length = n.toNat + 1 := hcoded
      rw [Command.pairs, List.length_map] at hroom
      rw [frameStep, byteAt_of_drop hdrop, ok_bind]
      show (shortAt rng (ptr + 1) >>= _) = _
      rw [shortAt_of_drop hdrop', ok_bind]
      show (copyPairs rng surface (n.toNat + 1) ⟨ptr + 1 + 2, 2 * m, pixels⟩ >>= _) = _
      rw [← hlen, copyPairs_eq hscreen ps (ptr + 1 + 2) m pixels (drop_of_drop hdrop') hroom,
        ok_bind, Command.bytes, Command.pairs, List.length_map, List.length_cons, List.length_append,
        FixedWidth.length_flatMap length_pairBytes,
        show ptr + ((shortBytes n).length + 2 * ps.length + 1) = ptr + 1 + 2 + 2 * ps.length by
          show ptr + (2 + 2 * ps.length + 1) = _
          omega]
      rfl
  | rep n p =>
      obtain ⟨hlow, hhigh⟩ := hcoded
      have hcode : (BitVec.ofNat 8 (0x0b + n)).toNat = 0x0b + n := by
        rw [BitVec.toNat_ofNat]
        omega
      rw [Command.pairs, List.length_replicate] at hroom
      rw [frameStep_rep hdrop (by omega) (by omega), hcode, Nat.add_sub_cancel_left,
        repeatPair_eq hscreen (drop_succ_of_drop hdrop) n m pixels hroom, ok_bind, Command.pairs,
        List.length_replicate]
      rfl
  | repByte n p =>
      have hdrop' : rng.drop (ptr + 1) = n :: (pairBytes p ++ rest) := drop_succ_of_drop hdrop
      rw [Command.pairs, List.length_replicate] at hroom
      rw [frameStep, byteAt_of_drop hdrop, ok_bind]
      show (byteAt rng (ptr + 1) >>= _) = _
      rw [byteAt_of_drop hdrop', ok_bind]
      show (repeatPair' rng surface (n.toNat + 1) ⟨ptr + 1 + 1, 2 * m, pixels⟩ >>= _) = _
      rw [repeatPair_eq hscreen (drop_succ_of_drop hdrop') _ m pixels hroom, ok_bind, Command.pairs,
        List.length_replicate]
      rfl
  | repShort n p =>
      have hdrop' : rng.drop (ptr + 1) = shortBytes n ++ (pairBytes p ++ rest) := by
        rw [← List.append_assoc]
        exact drop_succ_of_drop hdrop
      have hpair : rng.drop (ptr + 1 + 2) = pairBytes p ++ rest := drop_of_drop hdrop'
      rw [Command.pairs, List.length_replicate] at hroom
      rw [frameStep, byteAt_of_drop hdrop, ok_bind]
      show (shortAt rng (ptr + 1) >>= _) = _
      rw [shortAt_of_drop hdrop', ok_bind]
      show (repeatPair' rng surface (n.toNat + 1) ⟨ptr + 1 + 2, 2 * m, pixels⟩ >>= _) = _
      rw [repeatPair_eq hscreen hpair _ m pixels hroom, ok_bind, Command.pairs,
        List.length_replicate]
      rfl

/-- Any program with an end behind it. -/
theorem frameLoop_eq (hscreen : surface.Screen) {stop : Byte} {rest : List Byte}
    (hstop : stop = 0x00 ∨ stop = 0x13) (cs : List Command) :
    ∀ (fuel ptr m : Nat) (pixels : Nat → Byte), cs.length < fuel → (∀ c ∈ cs, c.Coded) →
      2 * (m + (cs.flatMap Command.pairs).length) ≤ 64000 →
      rng.drop ptr = cs.flatMap Command.bytes ++ stop :: rest →
        frameLoop rng surface fuel ⟨ptr, 2 * m, pixels⟩ =
          .ok (overlay (pairsLayer surface (2 * m) (cs.flatMap Command.pairs)) pixels) := by
  induction cs with
  | nil =>
      intro fuel ptr m pixels hfuel _ _ hdrop
      cases fuel with
      | zero => exact absurd hfuel (Nat.not_lt_zero _)
      | succ fuel =>
          rw [List.flatMap_nil, List.nil_append] at hdrop
          rw [frameLoop, frameStep, byteAt_of_drop hdrop]
          rcases hstop with rfl | rfl <;> rfl
  | cons c cs ih =>
      intro fuel ptr m pixels hfuel hcoded hroom hdrop
      obtain ⟨hc, hcs⟩ := List.forall_mem_cons.mp hcoded
      rw [List.flatMap_cons, List.length_append] at hroom
      rw [List.flatMap_cons, List.append_assoc] at hdrop
      cases fuel with
      | zero => exact absurd hfuel (Nat.not_lt_zero _)
      | succ fuel =>
          rw [frameLoop, frameStep_eq hscreen hc hdrop (by omega), ok_bind, List.flatMap_cons,
            pairsLayer_append, overlay_stack, ← Nat.mul_add]
          exact ih fuel _ _ _ (Nat.lt_of_succ_lt_succ hfuel) hcs (by omega) (drop_of_drop hdrop)

end Drawing

/-! ## Reading a frame -/

section Reading

variable {files cs : List (List Byte)}

/-- An offset of the table of an archive inside a file. -/
theorem readInt_inside {bytes rest : List Byte} {base k : Nat}
    (hfile : bytes.drop base = archive cs ++ rest) (hk : k ≤ cs.length) (old : BitVec 32) :
    readInt ⟨bytes, base + 4 * k⟩ old =
      .ok (BitVec.ofNat 32 (offset cs k), ⟨bytes, base + 4 * (k + 1)⟩) := by
  have hentry := table_entry hk rest
  rw [← hfile, List.drop_drop] at hentry
  exact readInt_eq hentry old

theorem drop_file {n : Nat} (hn : files[n]? = some (archive cs)) :
    (archive files).drop (offset files n) = archive cs ++ (files.drop (n + 1)).flatten := by
  obtain ⟨hlt, hget⟩ := List.getElem?_eq_some_iff.mp hn
  rw [drop_offset, List.drop_eq_getElem_cons hlt, hget, List.flatten_cons]

theorem inside_lt (hsize : (archive files).length < 2 ^ 31) {n : Nat}
    (hn : files[n]? = some (archive cs)) : offset files n + (archive cs).length < 2 ^ 31 := by
  have hle := offset_le files (n + 1)
  rw [offset_succ hn] at hle
  omega

/-- Up to the comparison of the number of the frame with that of the frames. -/
theorem rngReadFrame_head (hsize : (archive files).length < 2 ^ 31) {n : BitVec 32}
    (hn : files[n.toNat]? = some (archive cs)) (k : BitVec 32) (unset : Unset) (pos : Nat) :
    rngReadFrame unset (some callocBuf) 65000 n k (some ⟨archive files, pos⟩) =
      (do
        let fp : FILE := ⟨archive files, offset files n.toNat + 4⟩
        if k ≥ BitVec.ofNat 32 cs.length then return (-1, some callocBuf, some fp)
        let (uiSubOffset, fp) ← readInt (fp.seek (BitVec.ofNat 32 (offset files n.toNat) + 4 * k)) 0
        let (uiNextOffset, fp) ← readInt fp (BitVec.ofNat 32 (offset files (n.toNat + 1)))
        let iChunkLen := uiNextOffset - uiSubOffset
        if iChunkLen > 65000 then return (-2, some callocBuf, some fp)
        if iChunkLen ≠ 0 then
          let (buf, fp) ← (fp.seek (BitVec.ofNat 32 (offset files n.toNat) + uiSubOffset)).read
            callocBuf iChunkLen.toNat
          return (iChunkLen, some buf, some fp)
        else
          return (-1, some callocBuf, some fp)) := by
  have hlt := (List.getElem?_eq_some_iff.mp hn).1
  have hinside := inside_lt hsize hn
  have hlen := length_archive cs
  have hoffset : 4 * (cs.length + 1) ≤ offset cs cs.length := Nat.le_add_right ..
  have hsome := ofNat_ne_zero (n := (archive cs).length) (by omega) (by omega)
  have hcount := readInt_inside (drop_file hn) (Nat.zero_le cs.length)
    (BitVec.ofNat 32 files.length)
  rw [rngReadFrame, if_neg (by decide), mkfGetChunkCount_eq hsize]
  simp only [ok_bind]
  rw [if_neg (not_ge_count hsize hlt), seek_entry hsize hlt, readInt_table hlt.le]
  simp only [ok_bind]
  rw [readInt_table hlt]
  simp only [ok_bind]
  rw [chunkLen hn, if_neg hsome, seek_chunk hsize]
  rw [Nat.mul_zero, Nat.add_zero] at hcount
  rw [hcount]
  simp only [ok_bind]
  rw [@first_offset cs (by omega), @count_div cs (by omega)]

theorem rngReadFrame_none (hsize : (archive files).length < 2 ^ 31) {n k : BitVec 32}
    (hn : files[n.toNat]? = some (archive cs)) (hk : cs.length ≤ k.toNat) (unset : Unset) (pos : Nat) :
    ∃ pos', rngReadFrame unset (some callocBuf) 65000 n k (some ⟨archive files, pos⟩) =
      .ok (-1, some callocBuf, some ⟨archive files, pos'⟩) := by
  have hinside := inside_lt hsize hn
  rw [rngReadFrame_head hsize hn]
  dsimp only
  rw [if_pos (@ge_count cs (by omega) _ hk)]
  exact ⟨_, rfl⟩

theorem rngReadFrame_some (hsize : (archive files).length < 2 ^ 31) {n k : BitVec 32} {c : List Byte}
    (hn : files[n.toNat]? = some (archive cs)) (hk : cs[k.toNat]? = some c) (hsome : c ≠ [])
    (hfits : c.length ≤ 65000) (unset : Unset) (pos : Nat) :
    ∃ pos', rngReadFrame unset (some callocBuf) 65000 n k (some ⟨archive files, pos⟩) =
      .ok (BitVec.ofNat 32 c.length, some (c ++ callocBuf.drop c.length),
        some ⟨archive files, pos'⟩) := by
  have hinside := inside_lt hsize hn
  obtain ⟨hlt, hget⟩ := List.getElem?_eq_some_iff.mp hk
  rw [rngReadFrame_head hsize hn]
  dsimp only
  have hfile := drop_file hn
  have hle := offset_le cs (k.toNat + 1)
  have hsucc := offset_succ hk
  have hlen : (BitVec.ofNat 32 c.length).toNat = c.length := by
    rw [BitVec.toNat_ofNat]
    exact Nat.mod_eq_of_lt (by omega)
  have hbase : (BitVec.ofNat 32 (offset files n.toNat)).toNat = offset files n.toNat :=
    toNat_offset hsize _
  have hsub : (BitVec.ofNat 32 (offset cs k.toNat)).toNat = offset cs k.toNat :=
    @toNat_offset cs (by omega) _
  have htable : 4 * (cs.length + 1) ≤ offset cs k.toNat := Nat.le_add_right ..
  have hentry : (BitVec.ofNat 32 (offset files n.toNat) + 4 * k).toNat =
      offset files n.toNat + 4 * k.toNat := by
    rw [BitVec.toNat_add, BitVec.toNat_mul, hbase, toNat_four]
    omega
  have hchunk : (BitVec.ofNat 32 (offset files n.toNat) + BitVec.ofNat 32 (offset cs k.toNat)).toNat =
      offset files n.toNat + offset cs k.toNat := by
    rw [BitVec.toNat_add, hbase, hsub]
    omega
  have hgot : ((archive files).drop (offset files n.toNat + offset cs k.toNat)).take c.length = c := by
    rw [← List.drop_drop, hfile, List.drop_append_of_le_length (by omega), drop_offset,
      List.drop_eq_getElem_cons hlt, hget, List.flatten_cons, List.append_assoc, List.take_left]
  rw [if_neg (@not_ge_count cs (by omega) _ hlt), seek_eq (by omega) hentry,
    readInt_inside hfile hlt.le]
  simp only [ok_bind]
  rw [readInt_inside hfile hlt]
  simp only [ok_bind]
  rw [chunkLen hk, if_neg (by rw [gt_iff_lt, BitVec.lt_def, hlen]; exact not_lt.mpr hfits),
    if_pos (ofNat_ne_zero (List.length_pos_of_ne_nil hsome) (by omega)),
    seek_eq (by omega) hchunk, hlen, FILE.read]
  dsimp only
  rw [hgot, if_pos (by rw [callocBuf, List.length_replicate]; exact hfits)]
  exact ⟨_, rfl⟩

end Reading

/-! ## Frames in stored blocks -/

/-- A file with one block, which is stored, and no tree. -/
def storedFile (program : List Byte) : List Byte :=
  [0x59, 0x4a, 0x5f, 0x31] ++ intBytes (BitVec.ofNat 32 program.length) ++
    intBytes (BitVec.ofNat 32 (program.length + 20)) ++ [1, 0, 0, 0] ++
      shortBytes (BitVec.ofNat 16 program.length) ++ [0, 0] ++ program

theorem length_storedFile (program : List Byte) :
    (storedFile program).length = program.length + 20 := rfl

theorem unpacks_storedFile {program : List Byte} (hlen : program.length ≤ 64980) :
    Unpacks (storedFile program) (program ++ callocBuf.drop program.length) := by
  have hcalloc : callocBuf.length = 65000 := List.length_replicate
  have hsize : (BitVec.ofNat 32 program.length).toNat = program.length := by
    rw [BitVec.toNat_ofNat]
    omega
  have hul : (BitVec.ofNat 16 program.length).toNat = program.length := by
    rw [BitVec.toNat_ofNat]
    omega
  generalize hrest : callocBuf.drop (storedFile program).length = rest
  refine ⟨program.map .lit ++ [], BitVec.ofNat 32 program.length, program, ⟨?_, ?_⟩, ?_, ?_, ?_, rfl⟩
  · rw [hrest]
    rfl
  · refine ⟨0, [{ value := 0, leaf := false, left := some 1, right := some 2 }], 1, ?_, ?_, ?_, ?_⟩
    · rw [hrest]
      rfl
    · exact ⟨rfl, rfl, fun i hi => absurd hi (Nat.not_lt_zero i)⟩
    · rw [hrest]
      rfl
    · rw [hrest]
      have hhul : shortAt (storedFile program ++ rest) 16 = .ok (BitVec.ofNat 16 program.length) :=
        congrArg Except.ok (bytes_word _)
      refine .stored rfl hhul hul.symm ?_ .nil
      rw [hul]
      exact List.take_left
  · rw [hrest]
    exact intAt_intBytes _ []
  · rw [gt_iff_lt, BitVec.lt_def, hsize, not_lt]
    exact hlen.trans (by decide)
  · rw [List.append_nil]
    exact expand_lits program (by rw [List.length_nil, hcalloc]; omega)

/-- Any program that is short enough is one of a frame. -/
def Frame.stored (commands : List Command) (coded : ∀ c ∈ commands, c.Coded)
    (onScreen : 2 * (commands.flatMap Command.pairs).length ≤ 64000)
    (short : (commands.flatMap Command.bytes).length < 64980) : Frame where
  bytes := storedFile (commands.flatMap Command.bytes ++ [0x00])
  commands := commands
  nonempty := List.cons_ne_nil _ _
  fits := by
    rw [length_storedFile, List.length_append, List.length_singleton]
    omega
  coded := coded
  onScreen := onScreen
  unpacks := by
    have hunpacks := @unpacks_storedFile (commands.flatMap Command.bytes ++ [0x00])
      (by rw [List.length_append, List.length_singleton]; omega)
    rw [List.append_assoc, List.singleton_append] at hunpacks
    exact ⟨_, _, hunpacks, .inl rfl⟩

/-! ## Playing -/

section Playing

variable {anims : List (List Frame)} {fs : List Frame} {surface : Surface}

def frameLayer (surface : Surface) (f : Frame) : Layer Nat Byte :=
  pairsLayer surface 0 (f.commands.flatMap Command.pairs)

theorem file_of_anim {n : Nat} (hn : anims[n]? = some fs) :
    (anims.map fun fs => archive (fs.map Frame.bytes))[n]? = some (archive (fs.map Frame.bytes)) := by
  rw [List.getElem?_map, hn, Option.map_some]

theorem length_commands (cs : List Command) : cs.length ≤ (cs.flatMap Command.bytes).length := by
  induction cs with
  | nil => exact Nat.le_refl _
  | cons c cs ih =>
      have hc : 0 < c.bytes.length := by cases c <;> exact Nat.succ_pos _
      rw [List.flatMap_cons, List.length_append, List.length_cons]
      omega

-- the numbers of animations and of frames are not negative
theorem toInt_nonneg {n : BitVec 32} (hn : n.toNat < 2 ^ 31) : ¬n.toInt < 0 := by
  rw [BitVec.toInt_eq_toNat_of_lt (by omega)]
  omega

theorem anims_lt (hsize : (rngFile anims).length < 2 ^ 31) : anims.length < 2 ^ 31 := by
  have hlt := length_lt hsize
  rw [List.length_map] at hlt
  omega

theorem frames_lt (hsize : (rngFile anims).length < 2 ^ 31) {n : Nat} (hn : anims[n]? = some fs) :
    fs.length < 2 ^ 31 - 1 := by
  have hinside := inside_lt hsize (file_of_anim hn)
  have hlt := @length_lt (fs.map Frame.bytes) (by omega)
  rw [List.length_map] at hlt
  omega

theorem rngBlitToSurface_none (hsize : (rngFile anims).length < 2 ^ 31) {n k : BitVec 32}
    (hn : anims[n.toNat]? = some fs) (hk : fs.length ≤ k.toNat) (hk31 : k.toNat < 2 ^ 31)
    (unset : Unset) (pos : Nat) (pixels : Nat → Byte) :
    ∃ pos', rngBlitToSurface unset ⟨true, true, true⟩ n k (some surface)
        (some ⟨rngFile anims, pos⟩) pixels = .ok (-1, pixels, some ⟨rngFile anims, pos'⟩) := by
  have hnlt := (List.getElem?_eq_some_iff.mp hn).1
  have hanims := anims_lt hsize
  obtain ⟨pos', hread⟩ := rngReadFrame_none hsize (file_of_anim hn)
    (by rw [List.length_map]; exact hk) unset pos
  refine ⟨pos', ?_⟩
  rw [rngBlitToSurface, if_neg (not_or.mpr ⟨toInt_nonneg (by omega), toInt_nonneg hk31⟩)]
  rw [rngFile, hread]
  rfl

theorem rngBlitToSurface_some (hscreen : surface.Screen) (hsize : (rngFile anims).length < 2 ^ 31)
    {n k : BitVec 32} {f : Frame} (hn : anims[n.toNat]? = some fs) (hk : fs[k.toNat]? = some f)
    (unset : Unset) (pos : Nat) (pixels : Nat → Byte) :
    ∃ pos', rngBlitToSurface unset ⟨true, true, true⟩ n k (some surface)
        (some ⟨rngFile anims, pos⟩) pixels =
      .ok (0, overlay (frameLayer surface f) pixels, some ⟨rngFile anims, pos'⟩) := by
  have hnlt := (List.getElem?_eq_some_iff.mp hn).1
  have hklt := (List.getElem?_eq_some_iff.mp hk).1
  have hanims := anims_lt hsize
  have hframes := frames_lt hsize hn
  obtain ⟨stop, rest, ⟨cs, x, out, hfile, hx, hxfits, hout, hprogram⟩, hstop⟩ := f.unpacks
  obtain ⟨pos', hread⟩ := rngReadFrame_some hsize (file_of_anim hn)
    (by rw [List.getElem?_map, hk, Option.map_some]) f.nonempty f.fits unset pos
  have hlen : (BitVec.ofNat 32 f.bytes.length).toNat < 2 ^ 31 := by
    have hfits := f.fits
    rw [BitVec.toNat_ofNat]
    omega
  have hdraw := @frameLoop_eq (out ++ callocBuf.drop out.length) surface hscreen stop rest hstop f.commands
    ((out ++ callocBuf.drop out.length).length + 1) 0 0 pixels
    (by
      have hcommands := length_commands f.commands
      rw [← hprogram, List.length_append]
      omega)
    f.coded (by rw [Nat.zero_add]; exact f.onScreen) (by rw [← hprogram]; rfl)
  refine ⟨pos', ?_⟩
  rw [rngBlitToSurface, if_neg (not_or.mpr ⟨toInt_nonneg (by omega), toInt_nonneg (by omega)⟩)]
  rw [rngFile, hread]
  simp only [Bool.not_true, Bool.false_eq_true, if_false, ok_bind]
  rw [if_neg (toInt_nonneg hlen), decompress_file hfile hx hxfits hout]
  simp only [ok_bind]
  rw [hdraw]
  rfl

/-- What is on `gpScreen` at the `j`th update: the canvas under the first `j + 1` frames. -/
def canvases (surface : Surface) (fs : List Frame) (pixels : Nat → Byte) (n : Nat) :
    List (Nat → Nat → Byte) :=
  (List.range n).map fun j =>
    surface.picture (overlay (picture ((fs.take (j + 1)).map (frameLayer surface))) pixels)

theorem canvases_cons (surface : Surface) (f : Frame) (fs : List Frame) (pixels : Nat → Byte) (n : Nat) :
    canvases surface (f :: fs) pixels (n + 1) =
      surface.picture (overlay (frameLayer surface f) pixels) ::
        canvases surface fs (overlay (frameLayer surface f) pixels) n := by
  rw [canvases, canvases, List.range_succ_eq_map, List.map_cons, List.map_map]
  refine congrArg₂ List.cons ?_ (List.map_congr_left fun j _ => ?_)
  · rw [List.take_succ_cons, List.take_zero, List.map_singleton, picture_singleton]
  · show surface.picture (overlay (picture ((List.take (j + 1 + 1) _).map _)) pixels) = _
    rw [List.take_succ_cons, List.map_cons, picture, overlay_stack]

/-- The frames are drawn and shown, one after the other. -/
theorem playFrom_eq {hal : Hal} (hhal : hal.Done) {real : Surface} (hscreen : surface.Screen)
    (hreal : real.Screen) (hpitch : real.pitch = 320) {level : BitVec 16} (hlevel : level.toNat ≤ 200)
    (hsize : (rngFile anims).length < 2 ^ 31) {n last : BitVec 32} (hn : anims[n.toNat]? = some fs)
    (unset : BitVec 32 → Unset) (fuel : Nat) :
    ∀ (k : BitVec 32) (pos : Nat) (pixels : Nat → Byte) (d : Display), k.toNat < 2 ^ 31 →
      (last.toInt + 1 - k.toInt).toNat < fuel →
        let count := min (last.toInt + 1).toNat fs.length - k.toNat
        playFrom hal unset (fun _ => ⟨true, true, true⟩) n last surface real level fuel k
            (some ⟨rngFile anims, pos⟩) pixels d =
          .ok (seen level.toNat d.pixels d.g_wShakeTime.toNat
              (canvases surface (fs.drop k.toNat) pixels count),
            overlay (picture (((fs.drop k.toNat).take count).map (frameLayer surface))) pixels) := by
  have hframes := frames_lt hsize hn
  induction fuel with
  | zero => exact fun k pos pixels d _ h => absurd h (Nat.not_lt_zero _)
  | succ fuel ih =>
      intro k pos pixels d hk hfuel
      have hkint : k.toInt = k.toNat := BitVec.toInt_eq_toNat_of_lt (by omega)
      dsimp only
      rw [playFrom]
      by_cases hlast : k.toInt ≤ last.toInt
      · rw [if_neg (not_not_intro hlast)]
        by_cases hkfs : k.toNat < fs.length
        · have hget := List.getElem?_eq_getElem hkfs
          obtain ⟨pos', hblit⟩ := rngBlitToSurface_some hscreen hsize hn hget (unset k) pos pixels
          have hnext : (k + 1).toNat = k.toNat + 1 := by
            rw [BitVec.toNat_add]
            show (k.toNat + 1) % 2 ^ 32 = _
            omega
          have hnextint : (k + 1).toInt = (k + 1).toNat := BitVec.toInt_eq_toNat_of_lt (by omega)
          have htime : (BitVec.ofNat 16 (d.g_wShakeTime.toNat - 1)).toNat = d.g_wShakeTime.toNat - 1 := by
            have hlt := d.g_wShakeTime.isLt
            rw [BitVec.toNat_ofNat]
            omega
          have hdraw := drawSurface_eq hhal hscreen hreal hpitch hlevel
            (overlay (frameLayer surface fs[k.toNat]) pixels) d
          have hrest := ih (k + 1) pos' (overlay (frameLayer surface fs[k.toNat]) pixels)
            ⟨onScreen (shaken level.toNat d.g_wShakeTime.toNat
                (surface.picture (overlay (frameLayer surface fs[k.toNat]) pixels))) d.pixels,
              .ofNat 16 (d.g_wShakeTime.toNat - 1)⟩ (by omega) (by omega)
          obtain ⟨m, hm⟩ : ∃ m, min (last.toInt + 1).toNat fs.length - k.toNat = m + 1 :=
            ⟨_, (Nat.succ_pred_eq_of_pos (by omega)).symm⟩
          have hm' : min (last.toInt + 1).toNat fs.length - (k + 1).toNat = m := by omega
          rw [hm', htime, hnext] at hrest
          rw [hblit, ok_bind, hm, List.drop_eq_getElem_cons hkfs, canvases_cons, seen_cons,
            List.take_succ_cons, List.map_cons, picture, overlay_stack]
          dsimp only
          rw [if_neg (by decide), videoUpdateScreen, hdraw, ok_bind, hrest]
          rfl
        · obtain ⟨pos', hblit⟩ := @rngBlitToSurface_none anims fs surface hsize n k hn (not_lt.mp hkfs) hk
            (unset k) pos pixels
          rw [hblit, ok_bind, show min (last.toInt + 1).toNat fs.length - k.toNat = 0 by omega]
          rfl
      · rw [if_pos hlast, show min (last.toInt + 1).toNat fs.length - k.toNat = 0 by omega]
        rfl

/-- What the newest frame that draws pixel `i` puts there. -/
def newest : List Frame → Nat → Option Byte
  | [], _ => none
  | f :: fs, i => (newest fs i).or (f.cells[i]?).join

theorem frameLayer_eq (hscreen : surface.Screen) {x y : Nat} (hx : x < 320) (hy : y < 200)
    (f : Frame) : frameLayer surface f (y * surface.pitch + x) = (f.cells[y * 320 + x]?).join := by
  have hw := hscreen.w
  have hh := hscreen.h
  have hat : (((y : Int) - 0) * (320 : Nat) + ((x : Int) - 0)).toNat = y * 320 + x := by omega
  have hlayer := @cellsLayer_eq id surface 0 0 320 hscreen.toFits x y
    (by omega) (by omega) (by omega) f.cells 0
  rw [hat, if_pos ⟨by omega, by omega, by omega, Nat.zero_le _⟩, Nat.sub_zero, Option.map_id] at hlayer
  exact hlayer

theorem picture_newest (hscreen : surface.Screen) {x y : Nat} (hx : x < 320) (hy : y < 200)
    (fs : List Frame) :
    picture (fs.map (frameLayer surface)) (y * surface.pitch + x) = newest fs (y * 320 + x) := by
  induction fs with
  | nil => rfl
  | cons f fs ih =>
      show (picture (fs.map (frameLayer surface)) _).or (frameLayer surface f _) = _
      rw [ih, frameLayer_eq hscreen hx hy]
      rfl

/-- The pixels of a surface under some frames. -/
def covered (surface : Surface) (fs : List Frame) (pixels : Nat → Byte) : Nat → Nat → Byte := fun x y =>
  (newest fs (y * 320 + x)).getD (surface.picture pixels x y)

theorem overlay_covered (hscreen : surface.Screen) (fs : List Frame) (pixels : Nat → Byte) {x y : Nat}
    (hx : x < 320) (hy : y < 200) :
    surface.picture (overlay (picture (fs.map (frameLayer surface))) pixels) x y =
      covered surface fs pixels x y := by
  rw [Surface.picture, overlay, picture_newest hscreen hx hy]
  rfl

theorem overlay_beside (hscreen : surface.Screen) (fs : List Frame) (pixels : Nat → Byte) {p : Nat}
    (hp : ¬∃ x y, x < 320 ∧ y < 200 ∧ p = y * surface.pitch + x) :
    overlay (picture (fs.map (frameLayer surface))) pixels p = pixels p := by
  have hblank : picture (fs.map (frameLayer surface)) p = none := by
    refine picture_eq_none.mpr fun l hl => ?_
    obtain ⟨f, -, rfl⟩ := List.mem_map.mp hl
    exact cellsLayer_beside (by rw [hscreen.w, hscreen.h]; exact hp) _ _
  rw [overlay, hblank]
  rfl

/-- **What playing an animation shows.** From frame `iStartFrame` on every frame up to
    `iEndFrame`, or the last one, is shown once. Picture by picture, a place of the screen has
    the pixel that the newest frame that draws there has put, and what it had before where none
    has, and the picture is shaken as long as it is its time. On `gpScreen` all frames are left,
    and nothing beside it changes. -/
theorem rngPlay_shows (hal : Hal) (hhal : hal.Done) (gpScreen gpScreenReal : Surface)
    (hscreen : gpScreen.Screen) (hreal : gpScreenReal.Screen) (hpitch : gpScreenReal.pitch = 320)
    (g_wShakeLevel : BitVec 16) (hlevel : g_wShakeLevel.toNat ≤ 200) (anims : List (List Frame))
    (hsize : (rngFile anims).length < 2 ^ 31) (fs : List Frame)
    (iNumRNG iStartFrame iEndFrame : BitVec 32) (hn : anims[iNumRNG.toNat]? = some fs)
    (hstart : 0 ≤ iStartFrame.toInt) (unset : BitVec 32 → Unset) (pixels : Nat → Byte) (d : Display) :
    ∃ shown left, rngPlay hal unset (fun _ => ⟨true, true, true⟩) iNumRNG iEndFrame gpScreen
        gpScreenReal g_wShakeLevel (rngFile anims) iStartFrame pixels d = .ok (shown, left) ∧
      shown.length = min (iEndFrame.toInt + 1).toNat fs.length - iStartFrame.toNat ∧
      (∀ j picture, shown[j]? = some picture →
        (∀ x y, x < 320 → y < 200 → picture (y * 320 + x) =
          shaken g_wShakeLevel.toNat (d.g_wShakeTime.toNat - j)
            (covered gpScreen ((fs.drop iStartFrame.toNat).take (j + 1)) pixels) x y) ∧
        ∀ p, 64000 ≤ p → picture p = d.pixels p) ∧
      (∀ x y, x < 320 → y < 200 → gpScreen.picture left x y =
        covered gpScreen ((fs.drop iStartFrame.toNat).take shown.length) pixels x y) ∧
      ∀ p, (¬∃ x y, x < 320 ∧ y < 200 ∧ p = y * gpScreen.pitch + x) → left p = pixels p := by
  have hstart31 : iStartFrame.toNat < 2 ^ 31 := by
    have hpos := BitVec.toInt_pos_iff.mp hstart
    omega
  refine ⟨_, _, playFrom_eq hhal hscreen hreal hpitch hlevel hsize hn unset _ iStartFrame 0 pixels d
    hstart31 (by omega), ?_, ?_, fun x y hx hy => ?_, fun p hp => overlay_beside hscreen _ pixels hp⟩
  · rw [length_seen, canvases, List.length_map, List.length_range]
  · intro j shown hshown
    obtain ⟨canvas, hcanvas, rfl⟩ := seen_getElem? hshown
    rw [canvases, List.getElem?_map] at hcanvas
    obtain ⟨_, hj, rfl⟩ := Option.map_eq_some_iff.mp hcanvas
    obtain ⟨hlt, rfl⟩ := List.getElem?_eq_some_iff.mp hj
    rw [List.getElem_range]
    refine ⟨fun x y hx hy => ?_, fun p hp => if_neg (Nat.not_lt.mpr hp)⟩
    rw [onScreen_pixel hx hy]
    exact shaken_congr (fun x y hx hy => overlay_covered hscreen _ pixels hx hy) hx hy
  · rw [length_seen, canvases, List.length_map, List.length_range]
    exact overlay_covered hscreen _ pixels hx hy

/-- A frame that draws two pixels. -/
def Frame.pair : Frame :=
  .stored [.copy [(7, 9)]] (List.forall_mem_singleton.mpr ⟨by decide, by decide⟩) (by decide)
    (by decide)

/-- In an animation of this frame alone, while the screen is shaken. -/
theorem rngPlay_shows_pair :
    ∃ shown left, rngPlay .plain (fun _ => ⟨0, 0, 0, 0⟩) (fun _ => ⟨true, true, true⟩) 0 5
        ⟨320, 200, 320, 64000⟩ ⟨320, 200, 320, 64000⟩ 4 (rngFile [[.pair]]) 0 (fun _ => 0)
        ⟨fun _ => 0, 3⟩ = .ok (shown, left) ∧
      shown.length = min ((5 : BitVec 32).toInt + 1).toNat 1 - (0 : BitVec 32).toNat ∧
      (∀ j picture, shown[j]? = some picture →
        (∀ x y, x < 320 → y < 200 → picture (y * 320 + x) =
          shaken (4 : BitVec 16).toNat ((3 : BitVec 16).toNat - j)
            (covered ⟨320, 200, 320, 64000⟩
              (([.pair] : List Frame).drop (0 : BitVec 32).toNat |>.take (j + 1)) fun _ => 0) x y) ∧
        ∀ p, 64000 ≤ p → picture p = 0) ∧
      (∀ x y, x < 320 → y < 200 → Surface.picture ⟨320, 200, 320, 64000⟩ left x y =
        covered ⟨320, 200, 320, 64000⟩
          (([.pair] : List Frame).drop (0 : BitVec 32).toNat |>.take shown.length) (fun _ => 0) x y) ∧
      ∀ p, (¬∃ x y, x < 320 ∧ y < 200 ∧ p = y * 320 + x) → left p = 0 :=
  rngPlay_shows .plain Hal.plain_done ⟨320, 200, 320, 64000⟩ ⟨320, 200, 320, 64000⟩
    ⟨⟨Nat.le_refl _, Nat.le_refl _⟩, rfl, rfl⟩ ⟨⟨Nat.le_refl _, Nat.le_refl _⟩, rfl, rfl⟩ rfl 4
    (by decide) [[.pair]] (by decide) [.pair] 0 0 5 rfl (by decide) _ _ ⟨fun _ => 0, 3⟩

example : newest [.pair] 1 = some 9 := by decide

end Playing

end Nemu.Pal
