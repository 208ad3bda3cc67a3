/-
  Nemu.Common

  What every part of the emulator shares: the ways in which the C program
  stops instead of returning.  A model function returns `Except Abort α`; an
  `error` is a run that the process does not survive (or, for `outOfFuel`, one
  that the bound given to a loop of the model cut short).
-/

import Mathlib.Algebra.Group.Nat.Defs

namespace Nemu

/-- Why a run of the C program does not return. -/
inductive Abort where
  /-- `assert`, `Assert` or `panic` failed. -/
  | assertion
  /-- A null pointer was dereferenced. -/
  | nullPointer
  /-- The host divide instruction faulted (`SIGFPE`). -/
  | divideError
  /-- An array was accessed outside its bounds. -/
  | outOfBounds
  /-- The loop bound of the model was reached. -/
  | outOfFuel
deriving DecidableEq, Repr

-- `assert(cond)`, `Assert(cond, ...)`; `panic` is `cAssert false`.
def cAssert (cond : Bool) : Except Abort Unit := if cond then .ok () else .error .assertion

@[simp] theorem cAssert_true : cAssert true = .ok () := rfl

@[simp] theorem cAssert_false : cAssert false = .error .assertion := rfl

theorem cAssert_eq_ok {b : Bool} {u : Unit} : cAssert b = .ok u ↔ b = true := by
  cases b <;> simp

/-! ## Addresses -/

-- `hwaddr_t`, `lnaddr_t`, `swaddr_t`.
abbrev Addr := BitVec 32

abbrev Byte := BitVec 8

-- `1 << (COL_WIDTH + ROW_WIDTH + BANK_WIDTH + RANK_WIDTH)`, 128 MiB
def HW_MEM_SIZE : Nat := 2 ^ 27

/-! ## Operand widths -/

/-- `DATA_BYTE` of an instruction template: the instances with suffix `b`, `w`
    and `l`. -/
inductive Width where
  | byte
  | word
  | long
deriving DecidableEq, Repr

namespace Width

def bytes : Width → Nat
  | byte => 1
  | word => 2
  | long => 4

-- `DATA_BYTE << 3`, the number of bits of `DATA_TYPE`
def bits : Width → Nat
  | byte => 8
  | word => 16
  | long => 32

theorem bytes_pos (w : Width) : 0 < w.bytes := by cases w <;> decide

theorem bytes_le (w : Width) : w.bytes ≤ 4 := by cases w <;> decide

theorem bits_pos (w : Width) : 0 < w.bits := by cases w <;> decide

theorem le_bits (w : Width) : 8 ≤ w.bits := by cases w <;> decide

theorem bits_le (w : Width) : w.bits ≤ 32 := by cases w <;> decide

end Width

end Nemu
