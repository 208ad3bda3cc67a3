/-
  Nemu.Kernel.DiskDriver

  `kernel/src/driver/ide/disk.c` without `USE_DMA_READ`: the kernel's side of the
  disk ports.  An `in` or `out` instruction is a call of `pio_read` or `pio_write`
  of the emulator; `stack` is what uninitialised buffers there happen to hold.
-/

import Nemu.Device.PortIo

namespace Nemu.Kernel.Driver

open ByteSeq

def IDE_PORT_BASE : BitVec 16 := 0x1f0

section

variable (stack : Nat → Byte)

/-! ## `x86/io.h` -/

def inByte (s : Devices) (port : BitVec 16) : Except Abort (Byte × Devices) := do
  let (data, s) ← s.pioRead stack port 1
  return (data.setWidth 8, s)

def inLong (s : Devices) (port : BitVec 16) : Except Abort (BitVec 32 × Devices) :=
  s.pioRead stack port 4

def outByte (s : Devices) (port : BitVec 16) (data : Byte) : Except Abort Devices :=
  s.pioWrite stack port 1 (data.setWidth 32)

def outLong (s : Devices) (port : BitVec 16) (data : BitVec 32) : Except Abort Devices :=
  s.pioWrite stack port 4 data

/-! ## `disk.c` -/

/-- `waitdisk`, cut off after the given number of polls. -/
def waitdisk : Nat → Devices → Except Abort Devices
  | 0, _ => .error .outOfFuel
  | polls + 1, s => do
      let (b, s) ← inByte stack s (IDE_PORT_BASE + 7)
      if b &&& (0x80 ||| 0x40) ≠ 0x40 then waitdisk polls s else return s

def idePrepare (polls : Nat) (s : Devices) (sector : BitVec 32) : Except Abort Devices := do
  let s ← waitdisk stack polls s
  let s ← outByte stack s (IDE_PORT_BASE + 1) 0
  let s ← outByte stack s (IDE_PORT_BASE + 2) 1
  let s ← outByte stack s (IDE_PORT_BASE + 3) ((sector &&& 0xff).setWidth 8)
  let s ← outByte stack s (IDE_PORT_BASE + 4) ((sector >>> 8 &&& 0xff).setWidth 8)
  let s ← outByte stack s (IDE_PORT_BASE + 5) ((sector >>> 16 &&& 0xff).setWidth 8)
  outByte stack s (IDE_PORT_BASE + 6) ((0xe0#32 ||| (sector >>> 24 &&& 0xff)).setWidth 8)

def issueRead (s : Devices) : Except Abort Devices := outByte stack s (IDE_PORT_BASE + 7) 0x20

def issueWrite (s : Devices) : Except Abort Devices := outByte stack s (IDE_PORT_BASE + 7) 0x30

/-- The loop of `disk_do_read` from word `i` on, with `n` words to go; `buf` is the memory at
    the pointer. -/
def readWords (s : Devices) (buf : Nat → Byte) (i : Nat) :
    Nat → Except Abort ((Nat → Byte) × Devices)
  | 0 => .ok (buf, s)
  | n + 1 => do
      let (v, s) ← inLong stack s IDE_PORT_BASE
      readWords s (patch buf (4 * i) 4 (leByte v.toNat)) (i + 1) n

def diskDoRead (polls : Nat) (s : Devices) (buf : Nat → Byte) (sector : BitVec 32) :
    Except Abort ((Nat → Byte) × Devices) := do
  let s ← idePrepare stack polls s sector
  let s ← issueRead stack s
  readWords stack s buf 0 (512 / 4)

/-- The loop of `disk_do_write`. -/
def writeWords (s : Devices) (buf : Nat → Byte) (i : Nat) : Nat → Except Abort Devices
  | 0 => .ok s
  | n + 1 => do
      let s ← outLong stack s IDE_PORT_BASE (BitVec.ofNat 32 (load buf (4 * i) 4))
      writeWords s buf (i + 1) n

def diskDoWrite (polls : Nat) (s : Devices) (buf : Nat → Byte) (sector : BitVec 32) :
    Except Abort Devices := do
  let s ← idePrepare stack polls s sector
  let s ← issueWrite stack s
  writeWords stack s buf 0 (512 / 4)

end

end Nemu.Kernel.Driver
