/-
  Nemu.LibCommon.Float

  The 16.16 fixed-point numbers of `lib-common/FLOAT.h` and `lib-common/FLOAT/FLOAT.c`.

  A function answers `Except FloatFault`: the arithmetic on `int` is checked where C leaves
  an overflow or a shift count undefined, and a divide instruction may fault.  The `a << 16`
  of `F_div_F` is not among them: it is meant as the low half of a 64-bit dividend whose high
  half is `a >> 16`, and GCC defines it, also for negative numbers, as the bits that are left.
-/

import Nemu.Lib.DoWhile

namespace Nemu

/-- `typedef int FLOAT` -/
abbrev FLOAT := BitVec 32

/-- What the C code or the processor does not define. -/
inductive FloatFault where
  /-- The divide instruction faults: a zero divisor, or a quotient above 32 bits. -/
  | divide
  /-- A result does not fit an `int`. -/
  | overflow
  /-- A shift by a negative count or by 32 and more. -/
  | shiftCount
deriving DecidableEq, Repr

namespace FLOAT

/-! ## `int` -/

-- from `INT_MIN` to `INT_MAX`
def InInt (v : Int) : Prop := -2147483648 ≤ v ∧ v ≤ 2147483647

instance (v : Int) : Decidable (InInt v) := inferInstanceAs (Decidable (_ ∧ _))

def intOf (v : Int) : Except FloatFault FLOAT :=
  if InInt v then .ok (BitVec.ofInt 32 v) else .error .overflow

def addInt (a b : FLOAT) : Except FloatFault FLOAT := intOf (a.toInt + b.toInt)

def subInt (a b : FLOAT) : Except FloatFault FLOAT := intOf (a.toInt - b.toInt)

def negInt (a : FLOAT) : Except FloatFault FLOAT := intOf (-a.toInt)

/-- `a / b`, which truncates. -/
def divInt (a b : FLOAT) : Except FloatFault FLOAT :=
  if b = 0 then .error .divide else intOf (a.toInt.tdiv b.toInt)

def shlInt (a : FLOAT) (count : Int) : Except FloatFault FLOAT :=
  if 0 ≤ count ∧ count < 32 then .ok (a <<< count.toNat) else .error .shiftCount

def sarInt (a : FLOAT) (count : Int) : Except FloatFault FLOAT :=
  if 0 ≤ count ∧ count < 32 then .ok (a.sshiftRight count.toNat) else .error .shiftCount

/-- `idiv`: the quotient of the 64 bits in `edx` and `eax`. -/
def idiv (edx eax b : BitVec 32) : Except FloatFault (BitVec 32) :=
  if b = 0 then .error .divide
  else
    let quotient := (edx ++ eax).toInt.tdiv b.toInt
    if InInt quotient then .ok (BitVec.ofInt 32 quotient) else .error .divide

/-! ## `FLOAT.h` -/

-- the bits that leave an `int` to the left are dropped, as the compiler has it
def int2F (a : BitVec 32) : FLOAT := a <<< 16

/-- `F2int`. -/
def f2Int (a : FLOAT) : BitVec 32 := (a &&& 0xffff0000#32).sshiftRight 16

/-- `F_div_int`. -/
def fDivInt (a : FLOAT) (b : BitVec 32) : Except FloatFault FLOAT := divInt a b

/-! ## `FLOAT.c` -/

/-- `F_mul_F`. -/
def fMulF (a b : FLOAT) : FLOAT :=
  let c : BitVec 64 := a.signExtend 64 * b.signExtend 64
  (c.sshiftRight 16).setWidth 32

/-- `F_div_F`: the two halves of the dividend, `a << 16` in EAX and `a >> 16` in EDX. -/
def fDivF (a b : FLOAT) : Except FloatFault FLOAT := idiv (a.sshiftRight 16) (a <<< 16) b

/-- The two shifts of `f2F`. -/
def alignPoint (x : BitVec 32) (exp : Int) : Except FloatFault FLOAT := do
  let x ← if exp < -16 then sarInt x (-16 - exp) else pure x
  if -16 < exp then shlInt x (16 + exp) else pure x

/-- `f2F`, on the bits of its argument. -/
def f2F (b : BitVec 32) : Except FloatFault FLOAT := do
  let sign := b.sshiftRight 31
  let exp : Int := ((b.sshiftRight 23) &&& 0xff#32).toNat
  let x := b &&& 0x7fffff#32
  let x := if exp ≠ 0 then x + (1#32 <<< 23) else x
  let x ← alignPoint x (exp - 150)
  if sign = 0 then return x else negInt x

/-- `Fabs`. -/
def fabs (a : FLOAT) : Except FloatFault FLOAT :=
  if 0 < a.toInt then .ok a else negInt a

-- the bits of `1e-4` as a `float`
def epsilon : BitVec 32 := 0x38d1b717

/-- What the two loops below share, with the quotient `q` and `k` of them: `dt = (q - t) / k`,
    `t += dt` and the condition. -/
def newtonTurn (q k t : FLOAT) : Except FloatFault (Bool × FLOAT) := do
  let diff ← subInt q t
  let dt ← fDivInt diff k
  let t ← addInt t dt
  let abs ← fabs dt
  let eps ← f2F epsilon
  return (decide (eps.toInt < abs.toInt), t)

/-- One turn of the loop in `sqrt`: whether to go on, and `t`. -/
def sqrtTurn (x t : FLOAT) : Except FloatFault (Bool × FLOAT) := do
  let q ← fDivF x t
  newtonTurn q 2 t

/-- `sqrt`, with a bound on the number of turns. -/
def sqrt (fuel : Nat) (x : FLOAT) : Option (Except FloatFault FLOAT) :=
  DoWhile.doWhile (sqrtTurn x) fuel (int2F 2)

def powTurn (x t : FLOAT) : Except FloatFault (Bool × FLOAT) := do
  let t2 := fMulF t t
  let q ← fDivF x t2
  newtonTurn q 3 t

/-- `pow`: we only compute x^0.333. -/
def pow (fuel : Nat) (x _y : FLOAT) : Option (Except FloatFault FLOAT) :=
  DoWhile.doWhile (powTurn x) fuel (int2F 2)

end FLOAT

end Nemu
