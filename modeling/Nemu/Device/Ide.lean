/-
  Nemu.Device.Ide

  `nemu/src/device/ide.c`: the emulated disk.  Its registers are the bytes of the
  port space at `IDE_PORT` and, for the bus master, at `BMR_PORT`; the disk is a
  file of the host.

  A DMA read stores to `hw_mem` directly, past the row buffers of the DDR3 model.
-/

import Nemu.Device.I8259
import Nemu.Memory.Dram

namespace Nemu

open ByteSeq

def IDE_PORT : BitVec 16 := 0x1f0

def BMR_PORT : BitVec 16 := 0xc040

def IDE_IRQ : Int := 14

/-! ## The disk file -/

/-- A `FILE` of the host opened for reading and writing. -/
structure DiskFile where
  size : Nat
  bytes : Nat → Byte
  pos : Nat
  eof : Bool

namespace DiskFile

-- `fseek(fp, idx, SEEK_SET)`; a `long` of the host holds every 32-bit index
def fseek (f : DiskFile) (idx : BitVec 32) : DiskFile := { f with pos := idx.toNat, eof := false }

-- the bytes that a read of `n` bytes transfers
def avail (f : DiskFile) (n : Nat) : Nat := min n (f.size - f.pos)

/-- `fread(ptr, n, 1, fp)`: its result and the file behind it. The bytes it stores are the
    first `f.avail n` of `f.bytes (f.pos + i)`. -/
def fread (f : DiskFile) (n : Nat) : Nat × DiskFile :=
  (if 0 < n ∧ f.avail n = n then 1 else 0,
    { f with pos := f.pos + f.avail n, eof := f.eof || decide (f.avail n < n) })

/-- `fwrite(ptr, n, 1, fp)` with `0 < n`; what lies between the old end and the position is
    filled with zeros. -/
def fwrite (f : DiskFile) (n : Nat) (src : Nat → Byte) : Nat × DiskFile :=
  (1,
    { f with
      size := max f.size (f.pos + n)
      bytes := patch (fun i => if f.size ≤ i ∧ i < f.pos then 0 else f.bytes i) f.pos n src
      pos := f.pos + n })

end DiskFile

/-! ## The state of the devices -/

/-- The functions registered with `add_pio_map`. -/
inductive Callback where
  | ide_io_handler
  | bmr_io_handler
deriving DecidableEq, Repr

/-- `PIO_t`. -/
structure PIO where
  low : BitVec 16
  high : BitVec 16
  callback : Callback
deriving DecidableEq, Repr

/-- The port space with its map, the static variables of `ide.c`, the interrupt controllers,
    and the memory that DMA reads reach. -/
structure Devices where
  pio_space : Nat → Byte
  maps : List PIO
  sector : BitVec 32
  disk_idx : BitVec 32
  byte_cnt : BitVec 32
  ide_write : Bool
  disk_fp : DiskFile
  pic : I8259Pair
  ddr3 : Ddr3

namespace Devices

-- `ide_port_base[i]` and `bmr_base[i]`
def idePort (s : Devices) (i : Nat) : Byte := s.pio_space (IDE_PORT.toNat + i)

def bmr (s : Devices) (i : Nat) : Byte := s.pio_space (BMR_PORT.toNat + i)

def setIdePort (s : Devices) (i : Nat) (b : Byte) : Devices :=
  { s with pio_space := patch s.pio_space (IDE_PORT.toNat + i) 1 (fun _ => b) }

-- the sector number that the registers 3 to 6 hold
def portSector (s : Devices) : BitVec 32 :=
  (s.idePort 6 &&& 0x1f).setWidth 32 <<< 24 ||| (s.idePort 5).setWidth 32 <<< 16
    ||| (s.idePort 4).setWidth 32 <<< 8 ||| (s.idePort 3).setWidth 32

/-- `sector = ...; disk_idx = sector << 9; fseek(disk_fp, disk_idx, SEEK_SET);` -/
def seekSector (s : Devices) : Devices :=
  { s with
    sector := s.portSector
    disk_idx := s.portSector <<< 9
    disk_fp := s.disk_fp.fseek (s.portSector <<< 9) }

@[simp] theorem idePort_setIdePort_same (s : Devices) (i : Nat) (b : Byte) :
    (s.setIdePort i b).idePort i = b := by
  show patch s.pio_space (IDE_PORT.toNat + i) 1 (fun _ => b) (IDE_PORT.toNat + i) = b
  rw [patch_inside (Nat.le_refl _) (by omega)]

theorem idePort_setIdePort_ne (s : Devices) (i j : Nat) (b : Byte) (h : j ≠ i) :
    (s.setIdePort i b).idePort j = s.idePort j := by
  show patch s.pio_space (IDE_PORT.toNat + i) 1 (fun _ => b) (IDE_PORT.toNat + j) = _
  rw [patch_outside (by omega)]
  rfl

def raiseIde (s : Devices) : Except Abort Devices := do
  let pic ← s.pic.raiseIntr IDE_IRQ
  return { s with pic := pic }

/-! ## `ide_io_handler` -/

-- `byte_cnt += 4;` and the test for the end of the sector
def countTransfer (s : Devices) : Devices :=
  let s := { s with byte_cnt := s.byte_cnt + 4 }
  if s.byte_cnt = 512 then
    -- finish
    s.setIdePort 7 0x40
  else s

/-- Write 4 bytes of data to the disk. -/
def writeData (s : Devices) : Except Abort Devices := do
  cAssert s.ide_write
  let (ret, fp) := s.disk_fp.fwrite 4 s.idePort
  cAssert (ret == 1)
  return { s with disk_fp := fp }.countTransfer

/-- Read 4 bytes of data from the disk. -/
def readData (s : Devices) : Except Abort Devices := do
  cAssert (!s.ide_write)
  let (ret, fp) := s.disk_fp.fread 4
  let space := patch s.pio_space IDE_PORT.toNat (s.disk_fp.avail 4)
    (fun i => s.disk_fp.bytes (s.disk_fp.pos + i))
  cAssert (ret == 1 || fp.eof)
  return { s with pio_space := space, disk_fp := fp }.countTransfer

/-- A write to the command register. -/
def command (s : Devices) : Except Abort Devices := do
  if s.idePort 7 = 0x20 ∨ s.idePort 7 = 0x30 then
    -- command: read/write
    let s := { s.seekSector with byte_cnt := 0 }
    if s.idePort 7 = 0x20 then
      -- command: read from disk
      raiseIde ({ s with ide_write := false }.setIdePort 7 0x40)
    else
      -- command: write to disk
      return { s with ide_write := true }
  else if s.idePort 7 = 0xc8 then
    -- command: DMA read, issued by the bus master register
    return s
  else
    throw .assertion

-- the two commands of the driver
theorem command_read {s : Devices} (h : s.idePort 7 = 0x20) :
    s.command = raiseIde
      ({ s.seekSector with byte_cnt := 0, ide_write := false }.setIdePort 7 0x40) := by
  rw [command, if_pos (.inl h)]
  exact if_pos h

theorem command_write {s : Devices} (h : s.idePort 7 = 0x30) :
    s.command = .ok { s.seekSector with byte_cnt := 0, ide_write := true } := by
  have hne : ¬ s.idePort 7 = 0x20 := by
    rw [h]
    decide
  rw [command, if_pos (.inr h)]
  exact if_neg hne

def ideIoHandler (s : Devices) (addr : BitVec 16) (len : Nat) (is_write : Bool) :
    Except Abort Devices := do
  cAssert (decide (s.byte_cnt ≤ 512))
  if is_write then
    if addr = IDE_PORT ∧ len = 4 then writeData s
    else if addr = IDE_PORT + 7 then command s
    else return s
  else
    if addr = IDE_PORT ∧ len = 4 then readData s
    else return s

/-! ## `bmr_io_handler` -/

/-- The entry of the Physical Region Descriptor Table: address and second word. -/
def readPrdt (s : Devices) (stack : Nat → Byte) :
    Except Abort (Addr × BitVec 32 × Devices) := do
  let prdt_addr := BitVec.ofNat 32 (load s.pio_space (BMR_PORT.toNat + 4) 4)
  let (addr, ddr3) ← s.ddr3.hwaddrRead stack prdt_addr 4
  let (hi_entry, ddr3) ← ddr3.hwaddrRead stack (prdt_addr + 4) 4
  return (addr, hi_entry, { s with ddr3 := ddr3 })

-- `fread` to `hwa_to_va(addr)`; a store outside `hw_mem` is no run of the program
def freadToMem (s : Devices) (addr : Addr) (n : Nat) : Except Abort (Nat × Devices) :=
  let k := s.disk_fp.avail n
  if k = 0 ∨ addr.toNat + k ≤ HW_MEM_SIZE then
    let dram := patch s.ddr3.dram addr.toNat k (fun i => s.disk_fp.bytes (s.disk_fp.pos + i))
    let (ret, fp) := s.disk_fp.fread n
    .ok (ret, { s with ddr3 := { s.ddr3 with dram := dram }, disk_fp := fp })
  else .error .outOfBounds

/-- A DMA read; its arguments are the uninitialised stack buffers of the two memory reads. -/
def dmaRead (s : Devices) (stack : Nat → Byte) : Except Abort Devices := do
  let (addr, hi_entry, s) ← s.readPrdt stack
  let byte_cnt : BitVec 16 := hi_entry.setWidth 16
  let (ret, s) ← s.seekSector.freadToMem addr byte_cnt.toNat
  cAssert (ret == 1 || s.disk_fp.eof)
  -- We only implement PRDT of single entry.
  cAssert (decide (hi_entry &&& 0x80000000 ≠ 0))
  -- finish
  raiseIde (s.setIdePort 7 0x40)

def bmrIoHandler (s : Devices) (stack : Nat → Byte) (addr : BitVec 16) (is_write : Bool) :
    Except Abort Devices := do
  if is_write then
    if addr = BMR_PORT then
      if s.bmr 0 &&& 0x1 ≠ 0 then
        -- DMA start command
        if s.bmr 0 &&& 0x8 ≠ 0 then dmaRead s stack
        -- DMA write is not implemented
        else throw .assertion
      else return s
    else return s
  else return s

end Devices

end Nemu
