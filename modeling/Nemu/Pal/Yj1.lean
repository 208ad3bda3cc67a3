/-
  Nemu.Pal.Yj1

  The decompressor of the YJ_1 format, `misc/yj1.c` as it is compiled without `PAL_WIN95`.

  A buffer is the list of its bytes and a pointer into it an index; an access outside the
  buffer is a fault.  `SWAP16` and `SWAP32` do nothing on this machine.  A bit pointer,
  an `unsigned int` in C, is a number: buffers are below `2 ^ 29` bytes, and it stays below the
  bits of its buffer.
-/

import Nemu.Common

namespace Nemu.Pal

/-- What C leaves undefined, a failed assertion, and the loop bound of the model. -/
inductive Fault where
  /-- A read outside a buffer. -/
  | badRead
  /-- A write outside one. -/
  | badWrite
  /-- A shift by more bits than there are. -/
  | shiftCount
  | assertion
  | outOfFuel
deriving DecidableEq, Repr

def byteAt (src : List Byte) (i : Nat) : Except Fault Byte :=
  match src[i]? with
  | some b => .ok b
  | none => .error .badRead

-- fields of the structures that the headers are
def shortAt (src : List Byte) (i : Nat) : Except Fault (BitVec 16) := do
  let low ← byteAt src i
  let high ← byteAt src (i + 1)
  return high ++ low

def intAt (src : List Byte) (i : Nat) : Except Fault (BitVec 32) := do
  let low ← shortAt src i
  let high ← shortAt src (i + 2)
  return high ++ low

/-! ## Reading bits -/

-- `temp[0] | (temp[1] << 8)`
def pairAt (src : List Byte) (temp : Nat) : Except Fault (BitVec 32) := do
  let t₀ ← byteAt src temp
  let t₁ ← byteAt src (temp + 1)
  return t₀.setWidth 32 ||| t₁.setWidth 32 <<< 8

/-- `get_bits(src + base, &bitptr, count)`, with the new bit pointer. -/
def getBits (src : List Byte) (base bitptr count : Nat) : Except Fault (BitVec 32 × Nat) := do
  let temp := base + (bitptr >>> 4) <<< 1
  let bptr := bitptr &&& 0xf
  if count > 16 - bptr then
    let rest := count + bptr - 16
    let mask := (0xffff : BitVec 16) >>> bptr
    let t₀ ← pairAt src temp
    let t₂ ← pairAt src (temp + 2)
    -- `16 - count` is unsigned
    if rest > 16 then throw .shiftCount
    return ((t₀ &&& mask.setWidth 32) <<< rest ||| t₂ >>> (16 - rest), bitptr + count)
  else
    let t₀ ← pairAt src temp
    return (((t₀ <<< bptr).setWidth 16).setWidth 32 >>> (16 - count), bitptr + count)

-- the tables of the block header
def LZSSRepeatTable (header i : Nat) : Nat := header + 4 + 2 * i

def LZSSOffsetCodeLengthTable (header i : Nat) : Nat := header + 12 + i

def LZSSRepeatCodeLengthTable (header i : Nat) : Nat := header + 16 + i

def CodeCountCodeLengthTable (header i : Nat) : Nat := header + 19 + i

def CodeCountTable (header i : Nat) : Nat := header + 22 + i

section

variable (src : List Byte) (header : Nat)

-- the codes of a block begin behind its header
def codesAt : Nat := header + 24

def getLoop (bitptr : Nat) : Except Fault (BitVec 16 × Nat) := do
  let (bit, bitptr) ← getBits src (codesAt header) bitptr 1
  if bit ≠ 0 then
    return ((← byteAt src (CodeCountTable header 0)).setWidth 16, bitptr)
  else
    let (temp, bitptr) ← getBits src (codesAt header) bitptr 2
    if temp ≠ 0 then
      let length ← byteAt src (CodeCountCodeLengthTable header (temp.toNat - 1))
      let (v, bitptr) ← getBits src (codesAt header) bitptr length.toNat
      return (v.setWidth 16, bitptr)
    else
      return ((← byteAt src (CodeCountTable header 1)).setWidth 16, bitptr)

def getCount (bitptr : Nat) : Except Fault (BitVec 16 × Nat) := do
  let (temp, bitptr) ← getBits src (codesAt header) bitptr 2
  if temp ≠ 0 then
    let (bit, bitptr) ← getBits src (codesAt header) bitptr 1
    if bit ≠ 0 then
      let length ← byteAt src (LZSSRepeatCodeLengthTable header (temp.toNat - 1))
      let (v, bitptr) ← getBits src (codesAt header) bitptr length.toNat
      return (v.setWidth 16, bitptr)
    else
      return (← shortAt src (LZSSRepeatTable header temp.toNat), bitptr)
  else
    return (← shortAt src (LZSSRepeatTable header 0), bitptr)

end

/-! ## The tree -/

/-- `TreeNode`; a child is its index in the array `root`.  Nothing reads `level`, `weight`
    and `parent`. -/
structure TreeNode where
  value : Byte
  leaf : Bool
  left : Option Nat
  right : Option Nat
deriving DecidableEq

-- what the loop of `Decompress` makes of a value and its flag
def TreeNode.of (value : Byte) (flag : BitVec 32) : TreeNode :=
  if flag = 0 then { value := value, leaf := true, left := none, right := none }
  else
    { value := value, leaf := false, left := some (value.toNat <<< 1 + 1),
      right := some (value.toNat <<< 1 + 2) }

def treeFrom (src : List Byte) (tree_len : Nat) : Nat → Nat → Nat → Except Fault (List TreeNode)
  | 0, _, _ => .ok []
  | n + 1, i, bitptr => do
      let (flag, bitptr) ← getBits src (16 + tree_len) bitptr 1
      let value ← byteAt src (15 + i)
      let rest ← treeFrom src tree_len n (i + 1) bitptr
      return .of value flag :: rest

def tree (src : List Byte) (tree_len : Nat) : Except Fault (List TreeNode) := do
  let rest ← treeFrom src tree_len tree_len 1 0
  return { value := 0, leaf := false, left := some 1, right := some 2 } :: rest

def nodeAt (root : List TreeNode) (node : Option Nat) : Except Fault TreeNode :=
  match node.bind (root[·]?) with
  | some n => .ok n
  | none => .error .badRead

/-- `for(; !node->leaf;)`, with the value of the leaf. -/
def walk (src : List Byte) (header : Nat) (root : List TreeNode) :
    Nat → Option Nat → Nat → Except Fault (Byte × Nat)
  | 0, _, _ => .error .outOfFuel
  | fuel + 1, node, bitptr => do
      let n ← nodeAt root node
      if n.leaf then
        return (n.value, bitptr)
      else
        let (bit, bitptr) ← getBits src (codesAt header) bitptr 1
        walk src header root fuel (if bit ≠ 0 then n.right else n.left) bitptr

/-! ## Writing -/

/-- The buffer `Destination` with the pointer `dest` into it. -/
structure Output where
  bytes : List Byte
  dest : Nat

namespace Output

-- `*dest++ = b`
def put (o : Output) (b : Byte) : Except Fault Output :=
  if o.dest < o.bytes.length then .ok { bytes := o.bytes.set o.dest b, dest := o.dest + 1 }
  else .error .badWrite

-- `*(dest - pos)`
def back (o : Output) (pos : Nat) : Except Fault Byte :=
  if pos ≤ o.dest then byteAt o.bytes (o.dest - pos) else .error .badRead

/-- `while (hul--)` of a stored block. -/
def stored (src : List Byte) : Nat → Nat → Output → Except Fault Output
  | 0, _, o => .ok o
  | hul + 1, ptr, o => do
      let b ← byteAt src ptr
      let o ← o.put b
      stored src hul (ptr + 1) o

/-- `while (count--)`. -/
def repeated (pos : Nat) : Nat → Output → Except Fault Output
  | 0, o => .ok o
  | count + 1, o => do
      let b ← o.back pos
      let o ← o.put b
      repeated pos count o

end Output

/-! ## Blocks -/

section

variable (src : List Byte) (header : Nat) (root : List TreeNode)

-- either endless loop takes a bit at every turn
def bound : Nat := 8 * src.length + 1

/-- `while (loop--)` over bytes of the tree. -/
def literals : Nat → Nat → Output → Except Fault (Nat × Output)
  | 0, bitptr, o => .ok (bitptr, o)
  | loop + 1, bitptr, o => do
      let (value, bitptr) ← walk src header root (bound src) (some 0) bitptr
      let o ← o.put value
      literals loop bitptr o

/-- `while (loop--)` over repetitions of what came before. -/
def copies : Nat → Nat → Output → Except Fault (Nat × Output)
  | 0, bitptr, o => .ok (bitptr, o)
  | loop + 1, bitptr, o => do
      let (count, bitptr) ← getCount src header bitptr
      let (pos, bitptr) ← getBits src (codesAt header) bitptr 2
      let length ← byteAt src (LZSSOffsetCodeLengthTable header pos.toNat)
      let (pos, bitptr) ← getBits src (codesAt header) bitptr length.toNat
      let o ← Output.repeated pos.toNat count.toNat o
      copies loop bitptr o

/-- `for (;;)` of a block. -/
def codes : Nat → Nat → Output → Except Fault Output
  | 0, _, _ => .error .outOfFuel
  | fuel + 1, bitptr, o => do
      let (loop, bitptr) ← getLoop src header bitptr
      if loop = 0 then return o
      let (bitptr, o) ← literals src header root loop.toNat bitptr o
      let (loop, bitptr) ← getLoop src header bitptr
      if loop = 0 then return o
      let (bitptr, o) ← copies src header loop.toNat bitptr o
      codes fuel bitptr o

end

/-- `for (i = 0; i < SWAP16(hdr->BlockCount); i++)`, with the pointer `src` of the source. -/
def blocks (src : List Byte) (root : List TreeNode) : Nat → Nat → Output → Except Fault Output
  | 0, _, o => .ok o
  | n + 1, header, o => do
      let CompressedLength ← shortAt src (header + 2)
      if CompressedLength = 0 then
        let hul ← shortAt src header
        let o ← Output.stored src hul.toNat (header + 4) o
        blocks src root n (header + 4 + hul.toNat) o
      else
        let o ← codes src header root (bound src) 0 o
        blocks src root n (header + CompressedLength.toNat) o

-- the flags of the tree fill whole words
def blocksStart (tree_len : Nat) : Nat :=
  16 + tree_len + (if tree_len &&& 0xf ≠ 0 then tree_len >>> 4 + 1 else tree_len >>> 4) <<< 1

/-- `Decompress`, with what it leaves in `Destination`; `mallocs` is whether `malloc` finds
    room for the tree. -/
def Decompress (mallocs : Bool) (Source : Option (List Byte)) (Destination : List Byte)
    (DestSize : BitVec 32) : Except Fault (BitVec 32 × List Byte) :=
  match Source with
  | none => .ok (-1, Destination)
  | some src => do
      let Signature ← intAt src 0
      if Signature ≠ 0x315f4a59 then return (-1, Destination)
      let UncompressedLength ← intAt src 4
      if UncompressedLength > DestSize then return (-1, Destination)
      let HuffmanTreeLength ← byteAt src 15
      let tree_len := 2 * HuffmanTreeLength.toNat
      if !mallocs then return (-1, Destination)
      let root ← tree src tree_len
      let BlockCount ← shortAt src 12
      let o ← blocks src root BlockCount.toNat (blocksStart tree_len) ⟨Destination, 0⟩
      return (UncompressedLength, o.bytes)

end Nemu.Pal
