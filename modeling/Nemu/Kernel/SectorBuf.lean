/-
  Nemu.Kernel.SectorBuf

  `kernel/src/driver/ide/buffer.c` and `ide.c`: the kernel reads and writes its disk
  byte by byte through a table of sector buffers.  `disk_do_read` and
  `disk_do_write` transfer the 512 bytes of the sector they are given; what the
  disk holds is the field `disk` of the state.
-/

import Nemu.Common
import Nemu.Lib.BlockCache

namespace Nemu.Kernel

open BlockCache

def NR_SEC_BUF : Nat := 128

/-- `content`, and the data of one sector. -/
abbrev Sector := Fin 512 → Byte

/-- `struct SectorBuf`. -/
abbrev SectorBuf := Slot (BitVec 32) Sector

/-- The disk and the static table `buf`. -/
abbrev SectorCache := Cache (BitVec 32) (Fin NR_SEC_BUF) Sector

-- the sector buffer is a direct address hash: `sector % NR_SEC_BUF`
def slotOf (sector : BitVec 32) : Fin NR_SEC_BUF :=
  ⟨sector.toNat % NR_SEC_BUF, Nat.mod_lt _ (by decide)⟩

-- `offset >> 9` and `offset & 511`
def sectorOf (offset : BitVec 32) : BitVec 32 := offset >>> 9

def byteOf (offset : BitVec 32) : Fin 512 :=
  ⟨(offset &&& 511#32).toNat, by
    rw [BitVec.toNat_and]
    exact Nat.lt_of_le_of_lt Nat.and_le_right (by decide)⟩

-- contents of the disk with one byte replaced
def setByte (d : BitVec 32 → Sector) (offset : BitVec 32) (data : Byte) : BitVec 32 → Sector :=
  Function.update d (sectorOf offset) (Function.update (d (sectorOf offset)) (byteOf offset) data)

/-! ## `disk.c`, as `buffer.c` uses it -/

def diskDoRead (c : SectorCache) (sector : BitVec 32) : Sector := c.disk sector

def diskDoWrite (c : SectorCache) (content : Sector) (sector : BitVec 32) : SectorCache :=
  c.writeDisk sector content

/-! ## `buffer.c` -/

/-- The table as the static variable of the program starts, before any disk. -/
def staticBuf (disk : BitVec 32 → Sector) : SectorCache where
  disk := disk
  buf := fun _ => { sector := 0, used := false, dirty := false, content := fun _ => 0 }

def bufInit (c : SectorCache) : SectorCache :=
  { c with buf := fun i => { c.buf i with used := false } }

def bufWriteback (c : SectorCache) : SectorCache :=
  (List.finRange NR_SEC_BUF).foldl (fun c i =>
    if (c.buf i).dirty = true then
      let c := diskDoWrite c (c.buf i).content (c.buf i).sector
      c.setSlot i { c.buf i with dirty := false }
    else c) c

/-- `buf_fetch`; the pointer it returns is an index into the table. -/
def bufFetch (c : SectorCache) (sector : BitVec 32) : Fin NR_SEC_BUF × SectorCache :=
  let ptr := slotOf sector
  if (c.buf ptr).used = true ∧ (c.buf ptr).sector = sector then
    -- buf hit, do nothing
    (ptr, c)
  else
    let c :=
      if (c.buf ptr).used = true ∧ (c.buf ptr).dirty = true then
        -- write back
        diskDoWrite c (c.buf ptr).content (c.buf ptr).sector
      else c
    -- issue a read command
    let c := c.setSlot ptr { c.buf ptr with content := diskDoRead c sector }
    let c := c.setSlot ptr { c.buf ptr with used := true }
    let c := c.setSlot ptr { c.buf ptr with sector := sector }
    let c := c.setSlot ptr { c.buf ptr with dirty := false }
    (ptr, c)

def readByte (c : SectorCache) (offset : BitVec 32) : Byte × SectorCache :=
  let (ptr, c) := bufFetch c (sectorOf offset)
  ((c.buf ptr).content (byteOf offset), c)

def writeByte (c : SectorCache) (offset : BitVec 32) (data : Byte) : SectorCache :=
  let (ptr, c) := bufFetch c (sectorOf offset)
  let c := c.setSlot ptr
    { c.buf ptr with content := Function.update (c.buf ptr).content (byteOf offset) data }
  c.setSlot ptr { c.buf ptr with dirty := true }

/-! ## `ide.c` -/

/-- The loop of `ide_read` with `n` bytes to go; the bytes it stores to `buf[i]` on. -/
def ideReadFrom (c : SectorCache) (offset : BitVec 32) (i : Nat) : Nat → List Byte × SectorCache
  | 0 => ([], c)
  | n + 1 =>
      let (b, c) := readByte c (offset + BitVec.ofNat 32 i)
      let (bs, c) := ideReadFrom c offset (i + 1) n
      (b :: bs, c)

def ideRead (c : SectorCache) (offset len : BitVec 32) : List Byte × SectorCache :=
  ideReadFrom c offset 0 len.toNat

/-- The loop of `ide_write` with `n` bytes to go. -/
def ideWriteFrom (c : SectorCache) (buf : Nat → Byte) (offset : BitVec 32) (i : Nat) :
    Nat → SectorCache
  | 0 => c
  | n + 1 => ideWriteFrom (writeByte c (offset + BitVec.ofNat 32 i) (buf i)) buf offset (i + 1) n

def ideWrite (c : SectorCache) (buf : Nat → Byte) (offset len : BitVec 32) : SectorCache :=
  ideWriteFrom c buf offset 0 len.toNat

end Nemu.Kernel
