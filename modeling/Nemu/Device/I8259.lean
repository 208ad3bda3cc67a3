/-
  Nemu.Device.I8259

  `nemu/src/device/i8259.c`: two cascaded interrupt controllers.  The slave hangs
  on line 2 of the master; lines 8 to 15 are the slave's.

  Where the source has `panic("uncomment the line above")`, the model makes the
  assignment to `cpu.INTR` that stands commented out above it.
-/

import Nemu.Common

namespace Nemu

def IRQ_BASE : Int := 32

def NO_INTR : Int := -1

-- `MASK(n)` as an operand of an 8-bit register
def irqMask (n : Int) : BitVec 8 := 1#8 <<< n.toNat

/-- One controller. `highest_irq` is an `int8_t`: a line, or `NO_INTR`. -/
structure I8259 where
  IRR : BitVec 8
  IMR : BitVec 8
  highest_irq : Int
deriving DecidableEq, Repr

/-- `master`, `slave`, `intr_NO`, and the INTR pin of the CPU. -/
structure I8259Pair where
  master : I8259
  slave : I8259
  intr_NO : BitVec 8
  INTR : Bool
deriving DecidableEq, Repr

-- find first '1'
def ffo_table : List Int := [
  -1, 0, 1, 0, 2, 0, 1, 0, 3, 0, 1, 0, 2, 0, 1, 0,
  4, 0, 1, 0, 2, 0, 1, 0, 3, 0, 1, 0, 2, 0, 1, 0,
  5, 0, 1, 0, 2, 0, 1, 0, 3, 0, 1, 0, 2, 0, 1, 0,
  4, 0, 1, 0, 2, 0, 1, 0, 3, 0, 1, 0, 2, 0, 1, 0,
  6, 0, 1, 0, 2, 0, 1, 0, 3, 0, 1, 0, 2, 0, 1, 0,
  4, 0, 1, 0, 2, 0, 1, 0, 3, 0, 1, 0, 2, 0, 1, 0,
  5, 0, 1, 0, 2, 0, 1, 0, 3, 0, 1, 0, 2, 0, 1, 0,
  4, 0, 1, 0, 2, 0, 1, 0, 3, 0, 1, 0, 2, 0, 1, 0,
  7, 0, 1, 0, 2, 0, 1, 0, 3, 0, 1, 0, 2, 0, 1, 0,
  4, 0, 1, 0, 2, 0, 1, 0, 3, 0, 1, 0, 2, 0, 1, 0,
  5, 0, 1, 0, 2, 0, 1, 0, 3, 0, 1, 0, 2, 0, 1, 0,
  4, 0, 1, 0, 2, 0, 1, 0, 3, 0, 1, 0, 2, 0, 1, 0,
  6, 0, 1, 0, 2, 0, 1, 0, 3, 0, 1, 0, 2, 0, 1, 0,
  4, 0, 1, 0, 2, 0, 1, 0, 3, 0, 1, 0, 2, 0, 1, 0,
  5, 0, 1, 0, 2, 0, 1, 0, 3, 0, 1, 0, 2, 0, 1, 0,
  4, 0, 1, 0, 2, 0, 1, 0, 3, 0, 1, 0, 2, 0, 1, 0]

-- `ffo_table[x]` at an 8-bit index
def ffo (x : BitVec 8) : Int := ffo_table.getD x.toNat NO_INTR

namespace I8259Pair

/-- The controllers as the static variables of the program start. -/
def init : I8259Pair where
  master := { IRR := 0, IMR := 0, highest_irq := 0 }
  slave := { IRR := 0, IMR := 0, highest_irq := 0 }
  intr_NO := 0
  INTR := false

/-- `do_i8259`: tell the CPU. -/
def doI8259 (p : I8259Pair) : Except Abort I8259Pair := do
  let master_irq := p.master.highest_irq
  if master_irq = NO_INTR then
    return { p with INTR := false }
  else if master_irq = 2 then
    cAssert (decide (p.slave.highest_irq ≠ NO_INTR))
    let master_irq := 8 + p.slave.highest_irq
    return { p with intr_NO := BitVec.ofInt 8 (master_irq + IRQ_BASE), INTR := true }
  else
    return { p with intr_NO := BitVec.ofInt 8 (master_irq + IRQ_BASE), INTR := true }

-- `slave.highest_irq = ffo_table[slave.IRR & ~slave.IMR]`, and the same of the master
def findSlave (p : I8259Pair) : I8259Pair :=
  { p with slave := { p.slave with highest_irq := ffo (p.slave.IRR &&& ~~~p.slave.IMR) } }

def findMaster (p : I8259Pair) : I8259Pair :=
  { p with master := { p.master with highest_irq := ffo (p.master.IRR &&& ~~~p.master.IMR) } }

-- assignments to the request registers
def setMasterIRR (p : I8259Pair) (x : BitVec 8) : I8259Pair :=
  { p with master := { p.master with IRR := x } }

def setSlaveIRR (p : I8259Pair) (x : BitVec 8) : I8259Pair :=
  { p with slave := { p.slave with IRR := x } }

/-- `i8259_raise_intr`, the device interface. -/
def raiseIntr (p : I8259Pair) (n : Int) : Except Abort I8259Pair := do
  cAssert (decide (0 ≤ n ∧ n < 16))
  if n < 8 then
    doI8259 (p.setMasterIRR (p.master.IRR ||| irqMask n)).findMaster
  else
    let n := n - 8
    let p := p.setSlaveIRR (p.slave.IRR ||| irqMask n)
    let p := p.setMasterIRR (p.master.IRR ||| irqMask 2)
    doI8259 p.findSlave.findMaster

/-- `i8259_query_intr`, what the CPU reads. -/
def queryIntr (p : I8259Pair) : BitVec 8 := p.intr_NO

/-- `i8259_ack_intr`. The comparison with `NO_INTR` is one of integers; a line below zero
    would be shifted by, which C leaves undefined. -/
def ackIntr (p : I8259Pair) : Except Abort I8259Pair := do
  if (p.intr_NO.toNat : Int) = NO_INTR then
    return p
  else
    let n := (p.intr_NO.toNat : Int) - IRQ_BASE
    if n < 0 then
      throw .outOfBounds
    else if n < 8 then
      doI8259 (p.setMasterIRR (p.master.IRR &&& ~~~irqMask n)).findMaster
    else
      let n := n - 8
      let p := p.setSlaveIRR (p.slave.IRR &&& ~~~irqMask n)
      let p := p.setMasterIRR (p.master.IRR &&& ~~~irqMask 2)
      doI8259 p.findSlave.findMaster

end I8259Pair

end Nemu
