/-
  Nemu.Kernel.BufferedIde

  `buffer.c` and `ide.c` over the driver of `disk.c` and the emulated disk behind its
  ports: what `Nemu.Kernel.SectorBuf` has as the field `disk` of its state is here the
  file of the emulator, reached word by word.

  The handler `ide_writeback` runs between two calls; inside a call it is the subject of
  `Nemu.Kernel.Interleaving`.
-/

import Nemu.Kernel.DiskDriver
import Nemu.Kernel.Interleaving

namespace Nemu.Kernel.Buffered

/-- The static table `buf`, the static `counter` of `ide_writeback`, and the devices. -/
structure Ide where
  buf : Fin NR_SEC_BUF → SectorBuf
  counter : BitVec 32
  devices : Devices

namespace Ide

def setSlot (s : Ide) (i : Fin NR_SEC_BUF) (slot : SectorBuf) : Ide :=
  { s with buf := Function.update s.buf i slot }

@[simp] theorem setSlot_same (s : Ide) (i : Fin NR_SEC_BUF) (slot : SectorBuf) :
    (s.setSlot i slot).buf i = slot := Function.update_self ..

@[simp] theorem setSlot_setSlot (s : Ide) (i : Fin NR_SEC_BUF) (slot slot' : SectorBuf) :
    (s.setSlot i slot).setSlot i slot' = s.setSlot i slot' := by
  rw [setSlot, setSlot, setSlot, Function.update_idem]

-- the memory at `&ptr->content`; no transfer reaches past its 512 bytes
def contentMem (content : Sector) : Nat → Byte := fun i => if h : i < 512 then content ⟨i, h⟩ else 0

def memContent (mem : Nat → Byte) : Sector := fun i => mem i

section

variable (stack : Nat → Byte) (polls : Nat)

/-- `disk_do_write(&buf[i].content, buf[i].sector)`. -/
def writeSlot (s : Ide) (i : Fin NR_SEC_BUF) : Except Abort Ide := do
  let devices ← Driver.diskDoWrite stack polls s.devices (contentMem (s.buf i).content) (s.buf i).sector
  return { s with devices := devices }

/-- `disk_do_read(&buf[i].content, sector)`. -/
def readSlot (s : Ide) (i : Fin NR_SEC_BUF) (sector : BitVec 32) : Except Abort Ide := do
  let (mem, devices) ← Driver.diskDoRead stack polls s.devices (contentMem (s.buf i).content) sector
  return { s with devices := devices }.setSlot i { s.buf i with content := memContent mem }

/-! ## `buffer.c` -/

def bufInit (s : Ide) : Ide := { s with buf := fun i => { s.buf i with used := false } }

/-- The loop of `buf_writeback` over the slots left. -/
def bufWritebackFrom (s : Ide) : List (Fin NR_SEC_BUF) → Except Abort Ide
  | [] => .ok s
  | i :: is => do
      if (s.buf i).dirty = true then
        let s ← s.writeSlot stack polls i
        bufWritebackFrom (s.setSlot i { s.buf i with dirty := false }) is
      else bufWritebackFrom s is

def bufWriteback (s : Ide) : Except Abort Ide :=
  s.bufWritebackFrom stack polls (List.finRange NR_SEC_BUF)

/-- The first half of a miss. -/
def evict (s : Ide) (ptr : Fin NR_SEC_BUF) : Except Abort Ide :=
  if (s.buf ptr).used = true ∧ (s.buf ptr).dirty = true then
    -- write back
    s.writeSlot stack polls ptr
  else .ok s

def bufFetch (s : Ide) (sector : BitVec 32) : Except Abort (Fin NR_SEC_BUF × Ide) := do
  let ptr := slotOf sector
  if (s.buf ptr).used = true ∧ (s.buf ptr).sector = sector then
    -- buf hit, do nothing
    return (ptr, s)
  else
    let s ← s.evict stack polls ptr
    -- issue a read command
    let s ← s.readSlot stack polls ptr sector
    let s := s.setSlot ptr { s.buf ptr with used := true }
    let s := s.setSlot ptr { s.buf ptr with sector := sector }
    let s := s.setSlot ptr { s.buf ptr with dirty := false }
    return (ptr, s)

def readByte (s : Ide) (offset : BitVec 32) : Except Abort (Byte × Ide) := do
  let (ptr, s) ← s.bufFetch stack polls (sectorOf offset)
  return ((s.buf ptr).content (byteOf offset), s)

def writeByte (s : Ide) (offset : BitVec 32) (data : Byte) : Except Abort Ide := do
  let (ptr, s) ← s.bufFetch stack polls (sectorOf offset)
  let s := s.setSlot ptr
    { s.buf ptr with content := Function.update (s.buf ptr).content (byteOf offset) data }
  return s.setSlot ptr { s.buf ptr with dirty := true }

/-! ## `ide.c` -/

/-- The loop of `ide_read` with `n` bytes to go; the bytes it stores to `buf[i]` on. -/
def ideReadFrom (s : Ide) (offset : BitVec 32) (i : Nat) : Nat → Except Abort (List Byte × Ide)
  | 0 => .ok ([], s)
  | n + 1 => do
      let (b, s) ← s.readByte stack polls (offset + BitVec.ofNat 32 i)
      let (bs, s) ← ideReadFrom s offset (i + 1) n
      return (b :: bs, s)

def ideRead (s : Ide) (offset len : BitVec 32) : Except Abort (List Byte × Ide) :=
  s.ideReadFrom stack polls offset 0 len.toNat

/-- The loop of `ide_write` with `n` bytes to go. -/
def ideWriteFrom (s : Ide) (buf : Nat → Byte) (offset : BitVec 32) (i : Nat) :
    Nat → Except Abort Ide
  | 0 => .ok s
  | n + 1 => do
      let s ← s.writeByte stack polls (offset + BitVec.ofNat 32 i) (buf i)
      ideWriteFrom s buf offset (i + 1) n

def ideWrite (s : Ide) (buf : Nat → Byte) (offset len : BitVec 32) : Except Abort Ide :=
  s.ideWriteFrom stack polls buf offset 0 len.toNat

/-- The handler of the timer. -/
def ideWriteback (s : Ide) : Except Abort Ide := do
  let s := { s with counter := s.counter + 1 }
  if s.counter = WRITEBACK_TICKS then
    let s ← s.bufWriteback stack polls
    return { s with counter := 0 }
  else return s

end

/-- The kernel's `init_ide`, on its static variables as they start. -/
def initIde (devices : Devices) : Ide :=
  bufInit
    { buf := fun _ => { sector := 0, used := false, dirty := false, content := fun _ => 0 }
      counter := 0
      devices := devices }

end Ide

/-- The calls of a run, and the interrupts between them. -/
inductive Op where
  | ideRead (offset len : BitVec 32)
  | ideWrite (buf : Nat → Byte) (offset len : BitVec 32)
  | timer

/-- The bytes that a call answers, and the state after it. -/
def step (stack : Nat → Byte) (polls : Nat) (s : Ide) : Op → Except Abort (List Byte × Ide)
  | .ideRead offset len => s.ideRead stack polls offset len
  | .ideWrite buf offset len => do
      let s ← s.ideWrite stack polls buf offset len
      return ([], s)
  | .timer => do
      let s ← s.ideWriteback stack polls
      return ([], s)

end Nemu.Kernel.Buffered
