/-
  Nemu.Device.PortIo

  `nemu/src/device/io/port-io.c`: the port space and the devices behind it, and
  `init_ide`, which puts the disk there.  The other devices register ports of
  their own; none of the functions here is called for them.
-/

import Nemu.Device.Ide

namespace Nemu

open ByteSeq

def PORT_IO_SPACE_MAX : Nat := 65536

def NR_MAP : Nat := 8

namespace Devices

def Callback.run (c : Callback) (s : Devices) (stack : Nat → Byte) (addr : BitVec 16) (len : Nat)
    (is_write : Bool) : Except Abort Devices :=
  match c with
  | .ide_io_handler => s.ideIoHandler addr len is_write
  | .bmr_io_handler => s.bmrIoHandler stack addr is_write

/-- The loop of `pio_callback` over the maps left: the first one that has the ports. -/
def pioCallbackFrom (s : Devices) (stack : Nat → Byte) (addr : BitVec 16) (len : Nat)
    (is_write : Bool) : List PIO → Except Abort Devices
  | [] => .ok s
  | m :: ms =>
      if m.low ≤ addr ∧ addr.toNat + len - 1 ≤ m.high.toNat then
        Callback.run m.callback s stack addr len is_write
      else pioCallbackFrom s stack addr len is_write ms

def pioCallback (s : Devices) (stack : Nat → Byte) (addr : BitVec 16) (len : Nat)
    (is_write : Bool) : Except Abort Devices :=
  pioCallbackFrom s stack addr len is_write s.maps

def addPioMap (s : Devices) (addr : BitVec 16) (len : Nat) (callback : Callback) :
    Except Abort Devices := do
  cAssert (decide (s.maps.length < NR_MAP))
  cAssert (decide (addr.toNat + len ≤ PORT_IO_SPACE_MAX))
  return { s with maps := s.maps ++ [⟨addr, BitVec.ofNat 16 (addr.toNat + len - 1), callback⟩] }

/-! ## CPU interface -/

def pioRead (s : Devices) (stack : Nat → Byte) (addr : BitVec 16) (len : Nat) :
    Except Abort (BitVec 32 × Devices) := do
  cAssert (len == 1 || len == 2 || len == 4)
  cAssert (decide (addr.toNat + len - 1 < PORT_IO_SPACE_MAX))
  let s ← s.pioCallback stack addr len false  -- prepare data to read
  let data := BitVec.ofNat 32 (load s.pio_space addr.toNat 4)
  return (data &&& (0xffffffff#32 >>> ((4 - len) <<< 3)), s)

def pioWrite (s : Devices) (stack : Nat → Byte) (addr : BitVec 16) (len : Nat)
    (data : BitVec 32) : Except Abort Devices := do
  cAssert (len == 1 || len == 2 || len == 4)
  cAssert (decide (addr.toNat + len - 1 < PORT_IO_SPACE_MAX))
  let s := { s with pio_space := patch s.pio_space addr.toNat len (leByte data.toNat) }
  s.pioCallback stack addr len true

/-! ## Initialisation -/

/-- The static variables as the program starts, with memory as `init_ddr3` leaves it. -/
def static (ddr3 : Ddr3) (disk_fp : DiskFile) : Devices where
  pio_space := fun _ => 0
  maps := []
  sector := 0
  disk_idx := 0
  byte_cnt := 0
  ide_write := false
  disk_fp := disk_fp
  pic := .init
  ddr3 := initDdr3 ddr3

/-- `init_ide`, once the disk file has been opened. -/
def initIde (s : Devices) : Except Abort Devices := do
  let s ← s.addPioMap IDE_PORT 8 .ide_io_handler
  let s := s.setIdePort 7 0x40
  let s ← s.addPioMap BMR_PORT 8 .bmr_io_handler
  return { s with pio_space := patch s.pio_space BMR_PORT.toNat 1 (fun _ => 0) }

/-- The port map as `init_ide` leaves it. -/
def ideMaps : List PIO :=
  [⟨IDE_PORT, 0x1f7, .ide_io_handler⟩, ⟨BMR_PORT, 0xc047, .bmr_io_handler⟩]

end Devices

end Nemu
