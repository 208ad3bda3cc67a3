/-
  Nemu.Memory.Dram

  `nemu/src/memory/dram.c` and `nemu/src/memory/memory.c`: the simulated DDR3
  memory with one row buffer per rank and bank, 8-byte bursts with a byte mask,
  and the physical / linear / virtual access functions on top of it.

  The C array `dram[NR_RANK][NR_BANK][NR_ROW][NR_COL]` is also visible as the
  flat byte array `hw_mem`; here it is the flat array, and `dramRow` is the
  offset of one row inside it.  Buffers on the C stack that are not initialised
  (`temp` in `dram_read` and `dram_write`) start with the contents given by the
  argument `stack`.
-/

import Nemu.Common
import Nemu.Lib.ByteSeq

namespace Nemu

open ByteSeq

/-! ## `burst.h`, `dram.c`: geometry -/

def BURST_LEN : Nat := 8

def BURST_MASK : BitVec 32 := 7#32

def NR_COL : Nat := 1024

def NR_ROW : Nat := 1024

def NR_BANK : Nat := 8

def NR_RANK : Nat := 16

/-- The bit-fields of `union dram_addr`, lowest first: 10 bits of column, 10 of
    row, 3 of bank, 4 of rank. -/
structure DramAddr where
  col : Nat
  row : Nat
  bank : Nat
  rank : Nat

def DramAddr.ofAddr (addr : Addr) : DramAddr where
  col := (addr.extractLsb' 0 10).toNat
  row := (addr.extractLsb' 10 10).toNat
  bank := (addr.extractLsb' 20 3).toNat
  rank := (addr.extractLsb' 23 4).toNat

/-- Offset of `dram[rank][bank][row]` in `hw_mem`. -/
def dramRow (rank bank row : Nat) : Nat := ((rank * NR_BANK + bank) * NR_ROW + row) * NR_COL

/-- A row buffer, `RB`. -/
structure RB where
  buf : Nat → Byte
  row_idx : BitVec 32
  valid : Bool

/-- `dram` (equivalently `hw_mem`) and `rowbufs`. -/
structure Ddr3 where
  dram : Nat → Byte
  rowbufs : Nat → Nat → RB

-- Assignment to `rowbufs[rank][bank]`.
def Ddr3.setRb (s : Ddr3) (rank bank : Nat) (rb : RB) : Ddr3 :=
  { s with rowbufs := fun i j => if i = rank ∧ j = bank then rb else s.rowbufs i j }

def initDdr3 (s : Ddr3) : Ddr3 :=
  { s with rowbufs := fun i j =>
      if i < NR_RANK ∧ j < NR_BANK then { s.rowbufs i j with valid := false }
      else s.rowbufs i j }

/-! ## Bursts -/

/-- `memcpy_with_mask`, the loop of `misc.h` from index `i` on. -/
def memcpyWithMaskFrom (dest : Nat → Byte) (off : Nat) (src : Nat → Byte)
    (mask : Nat → Byte) (i : Nat) : Nat → Nat → Byte
  | 0 => dest
  | n + 1 =>
      let dest' := if mask i ≠ 0 then patch dest (off + i) 1 (fun _ => src i) else dest
      memcpyWithMaskFrom dest' off src mask (i + 1) n

def memcpyWithMask (dest : Nat → Byte) (off : Nat) (src : Nat → Byte) (len : Nat)
    (mask : Nat → Byte) : Nat → Byte :=
  memcpyWithMaskFrom dest off src mask 0 len

/-- The common head of `ddr3_read` and `ddr3_write`: make the row of `t` the one
    held by its row buffer. -/
def openRow (s : Ddr3) (t : DramAddr) : Ddr3 :=
  let rb := s.rowbufs t.rank t.bank
  if rb.valid && rb.row_idx == BitVec.ofNat 32 t.row then s
  else
    -- read a row into row buffer
    s.setRb t.rank t.bank
      { buf := patch rb.buf 0 NR_COL (fun i => s.dram (dramRow t.rank t.bank t.row + i))
        row_idx := BitVec.ofNat 32 t.row
        valid := true }

namespace Ddr3

/-- `ddr3_read`: the burst is returned as a function of its byte index. -/
def ddr3Read (s : Ddr3) (addr : Addr) : Except Abort ((Nat → Byte) × Ddr3) := do
  cAssert (addr.toNat < HW_MEM_SIZE)
  let t := DramAddr.ofAddr (addr &&& ~~~BURST_MASK)
  let s := openRow s t
  return (fun i => (s.rowbufs t.rank t.bank).buf (t.col + i), s)

def ddr3Write (s : Ddr3) (addr : Addr) (data mask : Nat → Byte) : Except Abort Ddr3 := do
  cAssert (addr.toNat < HW_MEM_SIZE)
  let t := DramAddr.ofAddr (addr &&& ~~~BURST_MASK)
  let s := openRow s t
  let rb := s.rowbufs t.rank t.bank
  -- burst write
  let rb := { rb with buf := memcpyWithMask rb.buf t.col data BURST_LEN mask }
  let s := s.setRb t.rank t.bank rb
  -- write back to dram
  return { s with dram := patch s.dram (dramRow t.rank t.bank t.row) NR_COL rb.buf }

-- `unalign_rw(p, 4)` as an rvalue.
def unalignRead4 (p : Nat → Byte) : BitVec 32 := BitVec.ofNat 32 (leNat p 4)

def dramRead (s : Ddr3) (stack : Nat → Byte) (addr : Addr) (len : Nat) :
    Except Abort (BitVec 32 × Ddr3) := do
  let offset := (addr &&& BURST_MASK).toNat
  let (burst, s) ← ddr3Read s addr
  let temp := patch stack 0 BURST_LEN burst
  if offset + len > BURST_LEN then
    -- data cross the burst boundary
    let (burst, s) ← ddr3Read s (addr + BitVec.ofNat 32 BURST_LEN)
    let temp := patch temp BURST_LEN BURST_LEN burst
    return (unalignRead4 (fun i => temp (offset + i)), s)
  else
    return (unalignRead4 (fun i => temp (offset + i)), s)

def dramWrite (s : Ddr3) (stack : Nat → Byte) (addr : Addr) (len : Nat) (data : BitVec 32) :
    Except Abort Ddr3 := do
  let offset := (addr &&& BURST_MASK).toNat
  let mask : Nat → Byte := fun _ => 0
  let temp := patch stack offset 4 (leByte data.toNat)
  let mask := patch mask offset len (fun _ => 1)
  let s ← ddr3Write s addr temp mask
  if offset + len > BURST_LEN then
    -- data cross the burst boundary
    ddr3Write s (addr + BitVec.ofNat 32 BURST_LEN)
      (fun i => temp (BURST_LEN + i)) (fun i => mask (BURST_LEN + i))
  else
    return s

/-! ## `memory.c`: the access interfaces -/

def hwaddrRead (s : Ddr3) (stack : Nat → Byte) (addr : Addr) (len : Nat) :
    Except Abort (BitVec 32 × Ddr3) := do
  let (v, s) ← dramRead s stack addr len
  return (v &&& (0xffffffff#32 >>> ((4 - len) <<< 3)), s)

def hwaddrWrite (s : Ddr3) (stack : Nat → Byte) (addr : Addr) (len : Nat) (data : BitVec 32) :
    Except Abort Ddr3 :=
  dramWrite s stack addr len data

def lnaddrRead (s : Ddr3) (stack : Nat → Byte) (addr : Addr) (len : Nat) :
    Except Abort (BitVec 32 × Ddr3) :=
  hwaddrRead s stack addr len

def lnaddrWrite (s : Ddr3) (stack : Nat → Byte) (addr : Addr) (len : Nat) (data : BitVec 32) :
    Except Abort Ddr3 :=
  hwaddrWrite s stack addr len data

-- `swaddr_read` and `swaddr_write` check the length (`DEBUG` is defined).
def swaddrRead (s : Ddr3) (stack : Nat → Byte) (addr : Addr) (len : Nat) :
    Except Abort (BitVec 32 × Ddr3) := do
  cAssert (len == 1 || len == 2 || len == 4)
  lnaddrRead s stack addr len

def swaddrWrite (s : Ddr3) (stack : Nat → Byte) (addr : Addr) (len : Nat) (data : BitVec 32) :
    Except Abort Ddr3 := do
  cAssert (len == 1 || len == 2 || len == 4)
  lnaddrWrite s stack addr len data

end Ddr3

end Nemu
