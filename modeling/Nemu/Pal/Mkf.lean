/-
  Nemu.Pal.Mkf

  The MKF archives of `global/palcommon.c`: `PAL_MKFGetChunkCount`, `PAL_MKFGetChunkSize`,
  `PAL_MKFReadChunk`, `PAL_MKFGetDecompressedSize` and `PAL_MKFDecompressChunk`.

  Where `fread` runs into the end of the file, it leaves the rest of its buffer alone; what
  a variable held before it was read into is a parameter.
-/

import Nemu.Pal.Yj1

namespace Nemu.Pal

/-- A stream that was opened for reading. -/
structure FILE where
  bytes : List Byte
  pos : Nat

namespace FILE

-- `fseek(fp, offset, SEEK_SET)`, where a negative offset is an error
def seek (fp : FILE) (offset : BitVec 32) : FILE :=
  if offset.toInt < 0 then fp else { fp with pos := offset.toNat }

/-- `fread` of `n` bytes into the front of `buf`. -/
def read (fp : FILE) (buf : List Byte) (n : Nat) : Except Fault (List Byte × FILE) :=
  let got := (fp.bytes.drop fp.pos).take n
  if got.length ≤ buf.length then
    .ok (got ++ buf.drop got.length, { fp with pos := fp.pos + got.length })
  else .error .badWrite

end FILE

def intBytes (x : BitVec 32) : List Byte :=
  [x.setWidth 8, (x >>> 8).setWidth 8, (x >>> 16).setWidth 8, (x >>> 24).setWidth 8]

-- `fread` of four bytes into an integer that held `old`
def readInt (fp : FILE) (old : BitVec 32) : Except Fault (BitVec 32 × FILE) := do
  let (buf, fp) ← fp.read (intBytes old) 4
  return (← intAt buf 0, fp)

/-- What the variables of one call hold before they are set. -/
structure Unset where
  iNumChunk : BitVec 32
  uiOffset : BitVec 32
  buf₀ : BitVec 32
  buf₁ : BitVec 32

def mkfGetChunkCount (unset : Unset) : Option FILE → Except Fault (BitVec 32 × Option FILE)
  | none => .ok (0, none)
  | some fp => do
      let (iNumChunk, fp) ← readInt (fp.seek 0) unset.iNumChunk
      return ((iNumChunk - 4).sdiv 4, some fp)

def mkfGetChunkSize (unset : Unset) (uiChunkNum : BitVec 32) (fp : Option FILE) :
    Except Fault (BitVec 32 × Option FILE) := do
  let (uiChunkCount, fp) ← mkfGetChunkCount unset fp
  match fp with
  | none => return (-1, none)
  | some fp =>
      if uiChunkNum ≥ uiChunkCount then return (-1, some fp)
      let (uiOffset, fp) ← readInt (fp.seek (4 * uiChunkNum)) 0
      let (uiNextOffset, fp) ← readInt fp 0
      return (uiNextOffset - uiOffset, some fp)

/-- The result, `lpBuffer` and the stream. -/
def mkfReadChunk (unset : Unset) (lpBuffer : Option (List Byte)) (uiBufferSize uiChunkNum : BitVec 32)
    (fp : Option FILE) : Except Fault (BitVec 32 × Option (List Byte) × Option FILE) :=
  match lpBuffer, fp with
  | some buf, some file => do
      if uiBufferSize = 0 then return (-1, some buf, some file)
      let (uiChunkCount, fp) ← mkfGetChunkCount unset (some file)
      match fp with
      | none => return (-1, some buf, none)
      | some fp =>
          if uiChunkNum ≥ uiChunkCount then return (-1, some buf, some fp)
          let (uiOffset, fp) ← readInt (fp.seek (4 * uiChunkNum)) 0
          let (uiNextOffset, fp) ← readInt fp 0
          let uiChunkLen := uiNextOffset - uiOffset
          if uiChunkLen > uiBufferSize then return (-2, some buf, some fp)
          if uiChunkLen ≠ 0 then
            let (buf, fp) ← (fp.seek uiOffset).read buf uiChunkLen.toNat
            return (uiChunkLen, some buf, some fp)
          else
            return (-1, some buf, some fp)
  | _, _ => .ok (-1, lpBuffer, fp)

def mkfGetDecompressedSize (unset : Unset) (uiChunkNum : BitVec 32) :
    Option FILE → Except Fault (BitVec 32 × Option FILE)
  | none => .ok (-1, none)
  | some fp => do
      let (uiChunkCount, fp) ← mkfGetChunkCount unset (some fp)
      match fp with
      | none => return (-1, none)
      | some fp =>
          if uiChunkNum ≥ uiChunkCount then return (-1, some fp)
          let (uiOffset, fp) ← readInt (fp.seek (4 * uiChunkNum)) unset.uiOffset
          let (buf, fp) ← (fp.seek uiOffset).read (intBytes unset.buf₀ ++ intBytes unset.buf₁) 8
          let buf₀ ← intAt buf 0
          let buf₁ ← intAt buf 4
          return (if buf₀ ≠ 0x315f4a59 then -1 else buf₁, some fp)

/-- `malloc` finds bytes for the chunk or not, and `mallocs` is whether it finds room for the
    tree. -/
def mkfDecompressChunk (unset : Unset) (malloc : Nat → Option (Nat → Byte)) (mallocs : Bool)
    (lpBuffer : List Byte) (uiBufferSize uiChunkNum : BitVec 32) (fp : Option FILE) :
    Except Fault (BitVec 32 × List Byte × Option FILE) := do
  let (len, fp) ← mkfGetChunkSize unset uiChunkNum fp
  if len.toInt ≤ 0 then return (len, lpBuffer, fp)
  match malloc len.toNat with
  | none => return (-3, lpBuffer, fp)
  | some fresh =>
      let buf := (List.range len.toNat).map fresh
      let (_, buf, fp) ← mkfReadChunk unset (some buf) len uiChunkNum fp
      let (len, lpBuffer) ← Decompress mallocs buf lpBuffer uiBufferSize
      return (len, lpBuffer, fp)

end Nemu.Pal
