/-
  Nemu.Kernel.Interleaving

  `read_byte` and `write_byte` statement by statement, with the timer handler
  `ide_writeback` between any two statements.  `disk_do_read` and `disk_do_write`
  are one statement each, and the handler runs to completion.

  `data` is not in the source: it is what the bytes written so far make of each
  sector, to be compared with what the disk receives.
-/

import Nemu.Kernel.SectorBuf

namespace Nemu.Kernel

open BlockCache

/-- Which of the two functions runs. -/
inductive Access where
  | read
  | write (data : Byte)
deriving DecidableEq, Repr

/-- The local variables of `read_byte` or `write_byte` and of the `buf_fetch` it calls. -/
structure Frame where
  access : Access
  offset : BitVec 32
  sector : BitVec 32
  ptr : Fin NR_SEC_BUF
deriving DecidableEq, Repr

/-- The statement to be executed next. -/
inductive Stmt where
  /-- `sector = offset >> 9` -/
  | sector
  /-- `ptr = &buf[sector % NR_SEC_BUF]` -/
  | ptr
  /-- `if (ptr->used == true && ptr->sector == sector)` -/
  | hitTest
  /-- `if (ptr->used == true && ptr->dirty == true)` -/
  | dirtyTest
  /-- `disk_do_write(&ptr->content, ptr->sector)` -/
  | writeBack
  /-- `disk_do_read(&ptr->content, sector)` -/
  | diskRead
  /-- `ptr->used = true` -/
  | setUsed
  /-- `ptr->sector = sector` -/
  | setSector
  /-- `ptr->dirty = false` -/
  | clearDirty
  /-- `return ptr->content[offset & 511]`, or `ptr->content[offset & 511] = data` -/
  | content
  /-- `ptr->dirty = true` -/
  | setDirty
deriving DecidableEq, Repr

/-- The kernel between two statements: `pc` is `none` outside the two functions, and
    `answer` is what `read_byte` returned last. -/
structure Machine where
  cache : SectorCache
  counter : BitVec 32
  pc : Option (Stmt × Frame)
  answer : Byte
  data : BitVec 32 → Sector

-- `WRITEBACK_TIME * HZ`
def WRITEBACK_TICKS : BitVec 32 := 1 * 100

namespace Machine

/-- After `init_ide`, on the static variables as they start. -/
def start (disk : BitVec 32 → Sector) : Machine where
  cache := bufInit (staticBuf disk)
  counter := 0
  pc := none
  answer := 0
  data := disk

def slot (m : Machine) (f : Frame) : SectorBuf := m.cache.buf f.ptr

def setSlot (m : Machine) (f : Frame) (s : SectorBuf) : Machine :=
  { m with cache := m.cache.setSlot f.ptr s }

def goto (m : Machine) (stmt : Stmt) (f : Frame) : Machine := { m with pc := some (stmt, f) }

/-- Execute one statement. -/
def exec (m : Machine) (f : Frame) : Stmt → Machine
  | .sector => m.goto .ptr { f with sector := sectorOf f.offset }
  | .ptr => m.goto .hitTest { f with ptr := slotOf f.sector }
  | .hitTest =>
      if (m.slot f).used = true ∧ (m.slot f).sector = f.sector then m.goto .content f
      else m.goto .dirtyTest f
  | .dirtyTest =>
      if (m.slot f).used = true ∧ (m.slot f).dirty = true then m.goto .writeBack f
      else m.goto .diskRead f
  | .writeBack =>
      { m with cache := diskDoWrite m.cache (m.slot f).content (m.slot f).sector }.goto .diskRead f
  | .diskRead =>
      (m.setSlot f { m.slot f with content := diskDoRead m.cache f.sector }).goto .setUsed f
  | .setUsed => (m.setSlot f { m.slot f with used := true }).goto .setSector f
  | .setSector => (m.setSlot f { m.slot f with sector := f.sector }).goto .clearDirty f
  | .clearDirty => (m.setSlot f { m.slot f with dirty := false }).goto .content f
  | .content =>
      match f.access with
      | .read => { m with answer := (m.slot f).content (byteOf f.offset), pc := none }
      | .write b =>
          let m := m.setSlot f
            { m.slot f with content := Function.update (m.slot f).content (byteOf f.offset) b }
          -- from here on the byte is written
          { m with data := setByte m.data f.offset b }.goto .setDirty f
  | .setDirty => { m.setSlot f { m.slot f with dirty := true } with pc := none }

/-- Does the next tick write the buffers back? -/
def flushes (m : Machine) : Bool := m.counter + 1 == WRITEBACK_TICKS

/-- `ide_writeback`, the timer handler. -/
def ideWriteback (m : Machine) : Machine :=
  let m := { m with counter := m.counter + 1 }
  if m.counter = WRITEBACK_TICKS then { m with cache := bufWriteback m.cache, counter := 0 }
  else m

end Machine

/-- What happens next: a call, one statement, or a timer interrupt. -/
inductive Event where
  | call (access : Access) (offset : BitVec 32)
  | stmt
  | timer
deriving DecidableEq, Repr

/-- One step of the kernel; nothing happens where there is no statement to execute, or where
    a call has not returned. The other local variables have no value yet at a call. -/
def Machine.step (m : Machine) : Event → Machine
  | .call access offset =>
      match m.pc with
      | none => m.goto .sector { access := access, offset := offset, sector := 0, ptr := slotOf 0 }
      | some _ => m
  | .stmt =>
      match m.pc with
      | none => m
      | some (stmt, f) => m.exec f stmt
  | .timer => m.ideWriteback

end Nemu.Kernel
