/-
  Nemu.Pal.MkfArchive

  The file that an archive of chunks is, and that the functions of `Nemu.Pal.Mkf` see the
  chunks through it.
-/

import Mathlib.Algebra.BigOperators.Group.List.Basic
import Nemu.Lib.DetSystem
import Nemu.Lib.FixedWidth
import Nemu.Pal.Mkf
import Nemu.Pal.Yj1Format

namespace Nemu.Pal

open DetSystem Outcome

/-! ## The file -/

/-- Where chunk `k` begins: behind the table, which has an offset for every chunk and one for
    the end, and behind the chunks before it. -/
def offset (cs : List (List Byte)) (k : Nat) : Nat :=
  4 * (cs.length + 1) + ((cs.map List.length).take k).sum

def archive (cs : List (List Byte)) : List Byte :=
  (List.range (cs.length + 1)).flatMap (fun k => intBytes (BitVec.ofNat 32 (offset cs k))) ++
    cs.flatten

/-! ## What the calls are to answer -/

inductive Call where
  | count (unset : Unset)
  | size (unset : Unset) (uiChunkNum : BitVec 32)
  | read (unset : Unset) (lpBuffer : Option (List Byte)) (uiBufferSize uiChunkNum : BitVec 32)
  | decompressedSize (unset : Unset) (uiChunkNum : BitVec 32)
  | decompress (unset : Unset) (malloc : Nat → Option (Nat → Byte)) (mallocs : Bool)
      (lpBuffer : List Byte) (uiBufferSize uiChunkNum : BitVec 32)

/-- The result and the buffer of the caller. -/
abbrev Answer := BitVec 32 × Option (List Byte)

def call (fp : Option FILE) : Call → Except Fault (Answer × Option FILE)
  | .count unset => do
      let (n, fp) ← mkfGetChunkCount unset fp
      return ((n, none), fp)
  | .size unset k => do
      let (n, fp) ← mkfGetChunkSize unset k fp
      return ((n, none), fp)
  | .read unset buf size k => do
      let (n, buf, fp) ← mkfReadChunk unset buf size k fp
      return ((n, buf), fp)
  | .decompressedSize unset k => do
      let (n, fp) ← mkfGetDecompressedSize unset k fp
      return ((n, none), fp)
  | .decompress unset malloc mallocs buf size k => do
      let (n, buf, fp) ← mkfDecompressChunk unset malloc mallocs buf size k fp
      return ((n, some buf), fp)

/-- A chunk is copied to the front of the buffer. -/
def readChunk (c buf : List Byte) (size : BitVec 32) : Except Fault Answer :=
  if c.length > size.toNat then .ok (-2, some buf)
  else if c = [] then .ok (-1, some buf)
  else if c.length ≤ buf.length then .ok (BitVec.ofNat 32 c.length, some (c ++ buf.drop c.length))
  else .error .badWrite

/-- The first eight bytes from a chunk on; where it is shorter, they reach into those behind it. -/
def sizeField (unset : Unset) (bytes : List Byte) : Except Fault (BitVec 32) := do
  let got := bytes.take 8
  let buf := got ++ (intBytes unset.buf₀ ++ intBytes unset.buf₁).drop got.length
  let buf₀ ← intAt buf 0
  let buf₁ ← intAt buf 4
  return if buf₀ ≠ 0x315f4a59 then -1 else buf₁

def answer (cs : List (List Byte)) : Call → Except Fault Answer
  | .count _ => .ok (BitVec.ofNat 32 cs.length, none)
  | .size _ k =>
      match cs[k.toNat]? with
      | some c => .ok (BitVec.ofNat 32 c.length, none)
      | none => .ok (-1, none)
  | .read _ none _ _ => .ok (-1, none)
  | .read _ (some buf) size k =>
      if size = 0 then .ok (-1, some buf)
      else
        match cs[k.toNat]? with
        | some c => readChunk c buf size
        | none => .ok (-1, some buf)
  | .decompressedSize unset k =>
      match cs[k.toNat]? with
      | some _ => do return (← sizeField unset (cs.drop k.toNat).flatten, none)
      | none => .ok (-1, none)
  | .decompress _ malloc mallocs buf size k =>
      match cs[k.toNat]? with
      | some [] => .ok (0, some buf)
      | some c =>
          match malloc c.length with
          | none => .ok (-3, some buf)
          | some _ => do
              let (len, buf) ← Decompress mallocs (some c) buf size
              return (len, some buf)
      | none => .ok (-1, some buf)

namespace Call

/-- The same call, where other values are left in its variables. -/
def withUnset (unset : Unset) : Call → Call
  | count _ => count unset
  | size _ k => size unset k
  | read _ buf n k => read unset buf n k
  | decompressedSize _ k => decompressedSize unset k
  | decompress _ malloc mallocs buf n k => decompress unset malloc mallocs buf n k

/-- A size is read from eight bytes of the file, if the chunk is there at all. -/
def Whole (cs : List (List Byte)) : Call → Prop
  | decompressedSize _ k => k.toNat < cs.length → 8 ≤ (cs.drop k.toNat).flatten.length
  | _ => True

end Call

/-- Then what unset variables hold does not matter. -/
theorem answer_unset {cs : List (List Byte)} {c : Call} (hwhole : c.Whole cs) (unset : Unset) :
    answer cs (c.withUnset unset) = answer cs c := by
  cases c with
  | count | size => rfl
  | decompress => rfl
  | read _ buf => cases buf <;> rfl
  | decompressedSize old k =>
      rw [Call.withUnset, answer, answer]
      cases hk : cs[k.toNat]? with
      | none => rfl
      | some c =>
          have hlen : ((cs.drop k.toNat).flatten.take 8).length = 8 := by
            rw [List.length_take]
            exact Nat.min_eq_left (hwhole (List.getElem?_eq_some_iff.mp hk).1)
          have hdrop : ∀ u : Unset, (intBytes u.buf₀ ++ intBytes u.buf₁).drop 8 = [] := fun _ => rfl
          simp only [sizeField, hlen, hdrop]

/-! ## The calls on an archive -/

section Archive

variable {cs : List (List Byte)}

theorem length_intBytes (x : BitVec 32) : (intBytes x).length = 4 := rfl

theorem length_table (cs : List (List Byte)) :
    ((List.range (cs.length + 1)).flatMap fun k => intBytes (BitVec.ofNat 32 (offset cs k))).length =
      4 * (cs.length + 1) := by
  rw [FixedWidth.length_flatMap fun _ => length_intBytes _, List.length_range]

theorem length_archive (cs : List (List Byte)) : (archive cs).length = offset cs cs.length := by
  rw [archive, List.length_append, length_table, offset, List.length_flatten,
    List.take_of_length_le (by rw [List.length_map])]

theorem offset_le (cs : List (List Byte)) (k : Nat) : offset cs k ≤ (archive cs).length := by
  rw [length_archive, offset, offset]
  have htake := List.take_append_drop k (cs.map List.length)
  have hsum := congrArg List.sum htake
  rw [List.sum_append] at hsum
  rw [List.take_of_length_le (i := cs.length) (by rw [List.length_map])]
  omega

/-- An offset of the table, of an archive in front of anything. -/
theorem table_entry {k : Nat} (hk : k ≤ cs.length) (rest : List Byte) :
    ((archive cs ++ rest).drop (4 * k)).take 4 = intBytes (BitVec.ofNat 32 (offset cs k)) := by
  rw [archive, List.append_assoc]
  exact FixedWidth.take_drop_append (fun _ => length_intBytes _)
    (List.getElem?_range (Nat.lt_succ_of_le hk)) _

/-- The file from the beginning of a chunk on. -/
theorem drop_offset (cs : List (List Byte)) (k : Nat) :
    (archive cs).drop (offset cs k) = (cs.drop k).flatten := by
  rw [archive, offset, ← List.drop_drop, List.drop_left' (length_table cs), List.drop_sum_flatten]

theorem offset_succ {k : Nat} {c : List Byte} (hc : cs[k]? = some c) :
    offset cs (k + 1) = offset cs k + c.length := by
  have hlen : (cs.map List.length)[k]? = some c.length := by rw [List.getElem?_map, hc, Option.map_some]
  rw [offset, offset, List.take_add_one, hlen, Option.toList_some, List.sum_append, List.sum_singleton]
  omega

theorem intAt_intBytes (x : BitVec 32) (rest : List Byte) : intAt (intBytes x ++ rest) 0 = .ok x := by
  have hx : ((x >>> 24).setWidth 8 ++ (x >>> 16).setWidth 8 : BitVec 16) ++
      ((x >>> 8).setWidth 8 ++ x.setWidth 8 : BitVec 16) = x := by
    apply BitVec.eq_of_getLsbD_eq
    intro i hi
    simp only [BitVec.getLsbD_append, BitVec.getLsbD_setWidth, BitVec.getLsbD_ushiftRight]
    grind
  exact congrArg Except.ok hx

theorem readInt_eq {bytes : List Byte} {pos : Nat} {x : BitVec 32}
    (h : (bytes.drop pos).take 4 = intBytes x) (old : BitVec 32) :
    readInt { bytes := bytes, pos := pos } old = .ok (x, { bytes := bytes, pos := pos + 4 }) := by
  have hint := intAt_intBytes x []
  rw [List.append_nil] at hint
  rw [readInt, FILE.read]
  dsimp only
  rw [h, if_pos (by rw [length_intBytes, length_intBytes]), ok_bind]
  dsimp only
  rw [length_intBytes, List.drop_of_length_le (by rw [length_intBytes]), List.append_nil, hint]
  rfl

theorem readInt_table {k : Nat} (hk : k ≤ cs.length) (old : BitVec 32) :
    readInt { bytes := archive cs, pos := 4 * k } old =
      .ok (BitVec.ofNat 32 (offset cs k), { bytes := archive cs, pos := 4 * (k + 1) }) := by
  have hentry := table_entry hk []
  rw [List.append_nil] at hentry
  exact readInt_eq hentry old

theorem ofNat_ne_zero {n : Nat} (hpos : 0 < n) (hn : n < 2 ^ 32) : BitVec.ofNat 32 n ≠ 0 := by
  intro h
  have hzero : n % 2 ^ 32 = 0 := congrArg BitVec.toNat h
  rw [Nat.mod_eq_of_lt hn] at hzero
  omega

theorem seek_eq {fp : FILE} {x : BitVec 32} {n : Nat} (hn : n < 2 ^ 31) (hx : x.toNat = n) :
    fp.seek x = { fp with pos := n } := by
  have hint : ¬x.toInt < 0 := by
    rw [BitVec.toInt_eq_toNat_of_lt (by omega)]
    omega
  rw [FILE.seek, if_neg hint, hx]

theorem chunkLen {k : Nat} {c : List Byte} (hc : cs[k]? = some c) :
    BitVec.ofNat 32 (offset cs (k + 1)) - BitVec.ofNat 32 (offset cs k) = BitVec.ofNat 32 c.length := by
  rw [offset_succ hc]
  apply BitVec.eq_of_toNat_eq
  simp only [BitVec.toNat_sub, BitVec.toNat_ofNat]
  omega

theorem toNat_four : (4 : BitVec 32).toNat = 4 := rfl

section Calls

variable (hsize : (archive cs).length < 2 ^ 31) (pos : Nat)

include hsize

theorem length_lt : 4 * (cs.length + 1) < 2 ^ 31 := by
  have hlen := length_archive cs
  rw [offset] at hlen
  omega

theorem first_offset :
    BitVec.ofNat 32 (offset cs 0) - 4 = BitVec.ofNat 32 (4 * cs.length) := by
  have hlt := length_lt hsize
  have hfirst : offset cs 0 = 4 * (cs.length + 1) := by
    rw [offset, List.take_zero, List.sum_nil, Nat.add_zero]
  apply BitVec.eq_of_toNat_eq
  rw [hfirst, BitVec.toNat_sub, BitVec.toNat_ofNat, BitVec.toNat_ofNat, toNat_four]
  omega

theorem count_div : BitVec.ofNat 32 (4 * cs.length) / 4 = BitVec.ofNat 32 cs.length := by
  have hlt := length_lt hsize
  apply BitVec.eq_of_toNat_eq
  rw [BitVec.toNat_udiv, BitVec.toNat_ofNat, BitVec.toNat_ofNat, toNat_four]
  omega

theorem mkfGetChunkCount_eq (unset : Unset) :
    mkfGetChunkCount unset (some { bytes := archive cs, pos := pos }) =
      .ok (BitVec.ofNat 32 cs.length, some { bytes := archive cs, pos := 4 }) := by
  have hlt := length_lt hsize
  have hseek : FILE.seek { bytes := archive cs, pos := pos } 0 = { bytes := archive cs, pos := 4 * 0 } := rfl
  have hcount : (BitVec.ofNat 32 (4 * cs.length)).sdiv 4 = BitVec.ofNat 32 cs.length := by
    have hmsb : (BitVec.ofNat 32 (4 * cs.length)).msb = false := by
      rw [BitVec.msb_eq_false_iff_two_mul_lt, BitVec.toNat_ofNat]
      omega
    rw [BitVec.sdiv_eq, hmsb]
    exact count_div hsize
  rw [mkfGetChunkCount, hseek, readInt_table (Nat.zero_le _), ok_bind]
  dsimp only
  rw [first_offset hsize, hcount]
  rfl

-- the comparison of `uiChunkNum` with the count
theorem not_ge_count {k : BitVec 32} (hk : k.toNat < cs.length) :
    ¬k ≥ BitVec.ofNat 32 cs.length := by
  have hlt := length_lt hsize
  rw [ge_iff_le, BitVec.le_def, BitVec.toNat_ofNat]
  omega

theorem ge_count {k : BitVec 32} (hk : cs.length ≤ k.toNat) : k ≥ BitVec.ofNat 32 cs.length := by
  have hlt := length_lt hsize
  rw [ge_iff_le, BitVec.le_def, BitVec.toNat_ofNat]
  omega

theorem seek_entry {k : BitVec 32} (hk : k.toNat < cs.length) (pos : Nat) :
    FILE.seek { bytes := archive cs, pos := pos } (4 * k) =
      { bytes := archive cs, pos := 4 * k.toNat } := by
  have hlt := length_lt hsize
  have hnat : (4 * k).toNat = 4 * k.toNat := by
    rw [BitVec.toNat_mul, toNat_four]
    exact Nat.mod_eq_of_lt (by omega)
  exact seek_eq (by omega) hnat

theorem toNat_offset (k : Nat) : (BitVec.ofNat 32 (offset cs k)).toNat = offset cs k := by
  have hle := offset_le cs k
  rw [BitVec.toNat_ofNat]
  exact Nat.mod_eq_of_lt (by omega)

theorem seek_chunk (k pos : Nat) :
    FILE.seek { bytes := archive cs, pos := pos } (BitVec.ofNat 32 (offset cs k)) =
      { bytes := archive cs, pos := offset cs k } := by
  have hle := offset_le cs k
  exact seek_eq (by omega) (toNat_offset hsize k)

theorem mkfGetChunkSize_none {k : BitVec 32} (hk : cs[k.toNat]? = none) (unset : Unset) :
    mkfGetChunkSize unset k (some { bytes := archive cs, pos := pos }) =
      .ok (-1, some { bytes := archive cs, pos := 4 }) := by
  have hge := ge_count hsize (List.getElem?_eq_none_iff.mp hk)
  rw [mkfGetChunkSize, mkfGetChunkCount_eq hsize, ok_bind]
  dsimp only
  rw [if_pos hge]
  rfl

theorem mkfGetChunkSize_some {k : BitVec 32} {c : List Byte} (hc : cs[k.toNat]? = some c)
    (unset : Unset) :
    mkfGetChunkSize unset k (some { bytes := archive cs, pos := pos }) =
      .ok (BitVec.ofNat 32 c.length, some { bytes := archive cs, pos := 4 * (k.toNat + 2) }) := by
  have hk := (List.getElem?_eq_some_iff.mp hc).1
  rw [mkfGetChunkSize, mkfGetChunkCount_eq hsize, ok_bind]
  dsimp only
  rw [if_neg (not_ge_count hsize hk), seek_entry hsize hk, readInt_table hk.le, ok_bind]
  dsimp only
  rw [readInt_table hk, ok_bind]
  dsimp only
  rw [chunkLen hc]
  rfl

theorem mkfReadChunk_none {k size : BitVec 32} (hk : cs[k.toNat]? = none) (hsize0 : size ≠ 0)
    (unset : Unset) (buf : List Byte) :
    mkfReadChunk unset (some buf) size k (some { bytes := archive cs, pos := pos }) =
      .ok (-1, some buf, some { bytes := archive cs, pos := 4 }) := by
  have hge := ge_count hsize (List.getElem?_eq_none_iff.mp hk)
  rw [mkfReadChunk, if_neg hsize0, mkfGetChunkCount_eq hsize]
  simp only [ok_bind]
  rw [if_pos hge]
  rfl

theorem mkfReadChunk_some {k size : BitVec 32} {c : List Byte} (hc : cs[k.toNat]? = some c)
    (hsize0 : size ≠ 0) (unset : Unset) (buf : List Byte) :
    (∃ e, mkfReadChunk unset (some buf) size k (some { bytes := archive cs, pos := pos }) = .error e ∧
        readChunk c buf size = .error e) ∨
      ∃ n buf' pos', mkfReadChunk unset (some buf) size k
          (some { bytes := archive cs, pos := pos }) =
            .ok (n, some buf', some { bytes := archive cs, pos := pos' }) ∧
        readChunk c buf size = .ok (n, some buf') := by
  obtain ⟨hk, hget⟩ := List.getElem?_eq_some_iff.mp hc
  have hle := offset_le cs (k.toNat + 1)
  have hsucc := offset_succ hc
  have hlen : (BitVec.ofNat 32 c.length).toNat = c.length := by
    rw [BitVec.toNat_ofNat]
    exact Nat.mod_eq_of_lt (by omega)
  have hrun : mkfReadChunk unset (some buf) size k (some { bytes := archive cs, pos := pos }) =
      (if BitVec.ofNat 32 c.length > size then
        .ok (-2, some buf, some { bytes := archive cs, pos := 4 * (k.toNat + 2) })
      else if BitVec.ofNat 32 c.length ≠ 0 then do
        let r ← FILE.read { bytes := archive cs, pos := offset cs k.toNat } buf c.length
        return (BitVec.ofNat 32 c.length, some r.1, some r.2)
      else .ok (-1, some buf, some { bytes := archive cs, pos := 4 * (k.toNat + 2) })) := by
    rw [mkfReadChunk, if_neg hsize0, mkfGetChunkCount_eq hsize]
    simp only [ok_bind]
    rw [if_neg (not_ge_count hsize hk), seek_entry hsize hk, readInt_table hk.le]
    simp only [ok_bind]
    rw [readInt_table hk]
    simp only [ok_bind]
    rw [chunkLen hc, seek_chunk hsize, hlen]
    rfl
  have hgot : ((archive cs).drop (offset cs k.toNat)).take c.length = c := by
    rw [drop_offset, List.drop_eq_getElem_cons hk, hget, List.flatten_cons, List.take_left]
  rw [hrun, readChunk]
  by_cases hbig : c.length > size.toNat
  · rw [if_pos hbig, if_pos (by rw [gt_iff_lt, BitVec.lt_def, hlen]; exact hbig)]
    exact .inr ⟨_, _, _, rfl, rfl⟩
  rw [if_neg hbig, if_neg (by rw [gt_iff_lt, BitVec.lt_def, hlen]; exact hbig)]
  by_cases hnil : c = []
  · subst hnil
    exact .inr ⟨_, _, _, rfl, rfl⟩
  have hne := ofNat_ne_zero (List.length_pos_of_ne_nil hnil) (by omega)
  rw [if_neg hnil, if_pos hne, FILE.read]
  dsimp only
  rw [hgot]
  by_cases hroom : c.length ≤ buf.length
  · rw [if_pos hroom, if_pos hroom]
    exact .inr ⟨_, _, _, rfl, rfl⟩
  · rw [if_neg hroom, if_neg hroom]
    exact .inl ⟨_, rfl, rfl⟩

theorem mkfGetDecompressedSize_none {k : BitVec 32} (hk : cs[k.toNat]? = none) (unset : Unset) :
    mkfGetDecompressedSize unset k (some { bytes := archive cs, pos := pos }) =
      .ok (-1, some { bytes := archive cs, pos := 4 }) := by
  have hge := ge_count hsize (List.getElem?_eq_none_iff.mp hk)
  rw [mkfGetDecompressedSize, mkfGetChunkCount_eq hsize, ok_bind]
  dsimp only
  rw [if_pos hge]
  rfl

theorem mkfGetDecompressedSize_some {k : BitVec 32} {c : List Byte} (hc : cs[k.toNat]? = some c)
    (unset : Unset) :
    ∃ pos', mkfGetDecompressedSize unset k (some { bytes := archive cs, pos := pos }) = do
      return (← sizeField unset (cs.drop k.toNat).flatten,
        some { bytes := archive cs, pos := pos' }) := by
  have hk := (List.getElem?_eq_some_iff.mp hc).1
  have hgot : (((cs.drop k.toNat).flatten).take 8).length ≤
      (intBytes unset.buf₀ ++ intBytes unset.buf₁).length := List.length_take_le ..
  refine ⟨offset cs k.toNat + (((cs.drop k.toNat).flatten).take 8).length, ?_⟩
  rw [mkfGetDecompressedSize, mkfGetChunkCount_eq hsize, ok_bind]
  dsimp only
  rw [if_neg (not_ge_count hsize hk), seek_entry hsize hk, readInt_table hk.le, ok_bind]
  dsimp only
  rw [seek_chunk hsize, FILE.read]
  dsimp only
  rw [drop_offset, if_pos hgot, ok_bind, sizeField]
  simp only [bind_assoc, pure_bind]

/-- A chunk is read back in full and goes through `Decompress`. -/
theorem mkfDecompressChunk_some {k : BitVec 32} {c : List Byte} (hc : cs[k.toNat]? = some c)
    (hne : c ≠ []) (unset : Unset) (malloc : Nat → Option (Nat → Byte)) (mallocs : Bool)
    (buf : List Byte) (size : BitVec 32) :
    ∃ pos', mkfDecompressChunk unset malloc mallocs buf size k
        (some { bytes := archive cs, pos := pos }) =
      match malloc c.length with
      | none => .ok (-3, buf, some { bytes := archive cs, pos := pos' })
      | some _ => do
          let (len, buf) ← Decompress mallocs (some c) buf size
          return (len, buf, some { bytes := archive cs, pos := pos' }) := by
  have hle := offset_le cs (k.toNat + 1)
  have hsucc := offset_succ hc
  have hpos : 0 < c.length := List.length_pos_iff.mpr hne
  have hlen : (BitVec.ofNat 32 c.length).toNat = c.length := by
    rw [BitVec.toNat_ofNat]
    exact Nat.mod_eq_of_lt (by omega)
  have hint : ¬(BitVec.ofNat 32 c.length).toInt ≤ 0 := by
    rw [BitVec.toInt_eq_toNat_of_lt (by omega)]
    omega
  have hne0 : BitVec.ofNat 32 c.length ≠ 0 := by
    intro h
    have h0 := congrArg BitVec.toNat h
    rw [hlen] at h0
    exact absurd h0 (by show ¬c.length = 0; omega)
  rw [mkfDecompressChunk, mkfGetChunkSize_some hsize pos hc, ok_bind]
  dsimp only
  rw [if_neg hint, hlen]
  cases malloc c.length with
  | none => exact ⟨_, rfl⟩
  | some fresh =>
      dsimp only
      have hfits : readChunk c ((List.range c.length).map fresh) (BitVec.ofNat 32 c.length) =
          .ok (BitVec.ofNat 32 c.length, some c) := by
        rw [readChunk, hlen, if_neg (Nat.lt_irrefl _), if_neg hne, if_pos (by simp),
          List.drop_of_length_le (by simp), List.append_nil]
      rcases mkfReadChunk_some hsize (4 * (k.toNat + 2)) hc hne0 unset
        ((List.range c.length).map fresh) with ⟨e, -, herror⟩ | ⟨n, buf', pos', hread, hok⟩
      · rw [hfits] at herror
        cases herror
      · rw [hfits] at hok
        cases hok
        refine ⟨pos', ?_⟩
        rw [hread]
        rfl

theorem mkfDecompressChunk_refused {k : BitVec 32} (hk : cs[k.toNat]? = none ∨ cs[k.toNat]? = some [])
    (unset : Unset) (malloc : Nat → Option (Nat → Byte)) (mallocs : Bool) (buf : List Byte)
    (size : BitVec 32) :
    ∃ pos', mkfDecompressChunk unset malloc mallocs buf size k
        (some { bytes := archive cs, pos := pos }) =
      .ok (if cs[k.toNat]? = none then -1 else 0, buf, some { bytes := archive cs, pos := pos' }) := by
  rcases hk with hk | hk
  · refine ⟨4, ?_⟩
    rw [mkfDecompressChunk, mkfGetChunkSize_none hsize pos hk, ok_bind]
    dsimp only
    rw [if_pos (by decide), if_pos hk]
    rfl
  · refine ⟨4 * (k.toNat + 2), ?_⟩
    rw [mkfDecompressChunk, mkfGetChunkSize_some hsize pos hk, ok_bind]
    dsimp only
    rw [if_pos (by decide), if_neg (by rw [hk]; exact nofun)]
    rfl

theorem call_agrees (c : Call) :
    Agree (fun fp _ => ∃ pos, fp = some { bytes := archive cs, pos := pos })
      (call (some { bytes := archive cs, pos := pos }) c)
      (do return (← answer cs c, ()) : Except Fault (Answer × Unit)) := by
  cases c with
  | count unset =>
      rw [call, mkfGetChunkCount_eq hsize, answer]
      exact .ok ⟨_, rfl⟩
  | size unset k =>
      rw [call, answer]
      cases hk : cs[k.toNat]? with
      | none =>
          rw [mkfGetChunkSize_none hsize pos hk]
          exact .ok ⟨_, rfl⟩
      | some c =>
          rw [mkfGetChunkSize_some hsize pos hk]
          exact .ok ⟨_, rfl⟩
  | read unset lpBuffer size k =>
      rw [call]
      cases lpBuffer with
      | none => exact .ok ⟨_, rfl⟩
      | some buf =>
          rw [answer]
          by_cases hsize0 : size = 0
          · rw [if_pos hsize0, mkfReadChunk, if_pos hsize0]
            exact .ok ⟨_, rfl⟩
          rw [if_neg hsize0]
          cases hk : cs[k.toNat]? with
          | none =>
              rw [mkfReadChunk_none hsize pos hk hsize0]
              exact .ok ⟨_, rfl⟩
          | some c =>
              rcases mkfReadChunk_some hsize pos hk hsize0 unset buf with
                ⟨e, hrun, hanswer⟩ | ⟨n, buf', pos', hrun, hanswer⟩
              · rw [hrun]
                show Agree _ _ (do return (← readChunk c buf size, ()))
                rw [hanswer]
                exact .error e
              · rw [hrun]
                show Agree _ _ (do return (← readChunk c buf size, ()))
                rw [hanswer]
                exact .ok ⟨_, rfl⟩
  | decompressedSize unset k =>
      rw [call, answer]
      cases hk : cs[k.toNat]? with
      | none =>
          rw [mkfGetDecompressedSize_none hsize pos hk]
          exact .ok ⟨_, rfl⟩
      | some c =>
          obtain ⟨pos', hrun⟩ := mkfGetDecompressedSize_some hsize pos hk unset
          rw [hrun]
          dsimp only
          cases sizeField unset (cs.drop k.toNat).flatten with
          | error e => exact .error e
          | ok x => exact .ok ⟨_, rfl⟩
  | decompress unset malloc mallocs buf size k =>
      rw [call]
      cases hk : cs[k.toNat]? with
      | none =>
          obtain ⟨pos', hrun⟩ :=
            mkfDecompressChunk_refused hsize pos (.inl hk) unset malloc mallocs buf size
          rw [hrun, answer, hk]
          exact .ok ⟨_, rfl⟩
      | some c =>
          by_cases hnil : c = []
          · subst hnil
            obtain ⟨pos', hrun⟩ :=
              mkfDecompressChunk_refused hsize pos (.inr hk) unset malloc mallocs buf size
            rw [hrun, answer, hk]
            exact .ok ⟨_, rfl⟩
          · obtain ⟨pos', hrun⟩ :=
              mkfDecompressChunk_some hsize pos hk hnil unset malloc mallocs buf size
            obtain ⟨x, c, rfl⟩ := List.exists_cons_of_ne_nil hnil
            rw [hrun, answer, hk]
            dsimp only
            cases malloc (x :: c).length with
            | none => exact .ok ⟨_, rfl⟩
            | some fresh =>
                dsimp only
                cases Decompress mallocs (some (x :: c)) buf size with
                | error e => exact .error e
                | ok r => exact .ok ⟨_, rfl⟩

end Calls

end Archive

/-- **An archive is its list of chunks.** On the file of an archive every sequence of calls
    gives the answers that the chunks determine, wherever the stream stands and whichever memory
    is handed out; the file does not change. What unset variables hold matters to the
    decompressed size alone, of a chunk from which on there are fewer than eight bytes. -/
theorem run_archive (cs : List (List Byte)) (hsize : (archive cs).length < 2 ^ 31) (pos : Nat)
    (calls : List Call) :
    Agree (fun fp _ => ∃ pos, fp = some { bytes := archive cs, pos := pos })
        (run call (some { bytes := archive cs, pos := pos }) calls)
        (run (fun _ c => do return (← answer cs c, ())) () calls) ∧
      ∀ c ∈ calls, c.Whole cs → ∀ unset, answer cs (c.withUnset unset) = answer cs c := by
  have hstep : ∀ (fp : Option FILE) (u : Unit) (c : Call),
      (∃ pos, fp = some { bytes := archive cs, pos := pos }) → True →
        Agree (fun fp _ => ∃ pos, fp = some { bytes := archive cs, pos := pos }) (call fp c)
          (do return (← answer cs c, ())) := by
    rintro _ _ c ⟨pos, rfl⟩ -
    exact call_agrees hsize pos c
  exact ⟨run_agree hstep calls _ () ⟨pos, rfl⟩ fun _ _ => trivial,
    fun _ _ hwhole unset => answer_unset hwhole unset⟩

/-- An empty chunk, and a compressed one with a stored block of two bytes. -/
def twoChunks : List (List Byte) :=
  [[], [0x59, 0x4a, 0x5f, 0x31, 2, 0, 0, 0, 24, 0, 0, 0, 1, 0, 0, 0, 2, 0, 0, 0, 8, 9]]

def twoCalls : List Call :=
  [.count ⟨0, 0, 0, 0⟩, .size ⟨0, 0, 0, 0⟩ 0, .read ⟨0, 0, 0, 0⟩ (some [5, 6, 7]) 3 1,
    .decompressedSize ⟨0, 0, 0, 0⟩ 1,
    .decompress ⟨0, 0, 0, 0⟩ (fun _ => some fun _ => 0) true [5, 6, 7] 3 1]

/-- The second is counted, found too long for a buffer, measured and decompressed. -/
theorem run_archive_two :
    Agree (fun fp _ => ∃ pos, fp = some { bytes := archive twoChunks, pos := pos })
        (run call (some { bytes := archive twoChunks, pos := 7 }) twoCalls)
        (run (fun _ c => do return (← answer twoChunks c, ())) () twoCalls) ∧
      ∀ c ∈ twoCalls, c.Whole twoChunks →
        ∀ unset, answer twoChunks (c.withUnset unset) = answer twoChunks c :=
  run_archive twoChunks (by decide) 7 twoCalls

example : twoCalls.map (answer twoChunks) = [.ok (2, none), .ok (0, none), .ok (-2, some [5, 6, 7]),
    .ok (2, none), .ok (2, some [8, 9, 7])] := by decide

end Nemu.Pal
