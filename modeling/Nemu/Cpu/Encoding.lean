/-
  Nemu.Cpu.Encoding

  The i386 instruction encoding with 32-bit addresses, as far as lengths go: the
  operand-size and repeat prefixes, the one- and two-byte opcode maps with their
  immediates, ModR/M, SIB and displacement.  It is stated over the bytes of
  memory and says nothing about how the emulator decodes them; `ExecLength`
  compares the two.

  The remaining prefixes (segment overrides, address size, lock) are not opcodes
  and have no format here; the emulator rejects them all.
-/

import Nemu.Memory.FlatMem

namespace Nemu

namespace I386

open FlatMem

-- the byte at an address, as a number
def byteAt (m : FlatMem) (a : Addr) : Nat := (m a.toNat).toNat

/-! ## ModR/M, SIB and displacement -/

def dispLength (mod base : Nat) : Nat :=
  match mod with
  | 0 => if base = 5 then 4 else 0
  | 1 => 1
  | _ => 4

/-- The length of the ModR/M byte at `a` with the SIB byte and the displacement that
    belong to it. -/
def modrmLength (m : FlatMem) (a : Addr) : Nat :=
  let mod := byteAt m a / 64
  let rm := byteAt m a % 8
  if mod = 3 then 1
  else if rm = 4 then 2 + dispLength mod (byteAt m (a + 1) % 8)
  else 1 + dispLength mod rm

-- the `reg` field of the ModR/M byte, an opcode extension in the groups
def regField (m : FlatMem) (a : Addr) : Nat := byteAt m a / 8 % 8

/-! ## Opcode maps -/

/-- The immediate operands of an instruction. -/
inductive Imm where
  | none
  | imm8
  | imm16
  /-- One of the operand size. -/
  | immV
  /-- An offset of the address size. -/
  | moffs
  /-- An offset of the operand size and a selector. -/
  | far
  /-- The two operands of `enter`. -/
  | imm16imm8
deriving DecidableEq, Repr

def Imm.length (op16 : Bool) : Imm → Nat
  | .none => 0
  | .imm8 => 1
  | .imm16 => 2
  | .immV => if op16 then 2 else 4
  | .moffs => 4
  | .far => if op16 then 4 else 6
  | .imm16imm8 => 3

/-- What follows an opcode. -/
structure Format where
  modrm : Bool
  imm : Imm
deriving DecidableEq, Repr

-- opcode alone, opcode with an immediate, with ModR/M, with both
def Format.plain : Format := ⟨false, .none⟩

def Format.withImm (i : Imm) : Format := ⟨false, i⟩

def Format.rm : Format := ⟨true, .none⟩

def Format.rmImm (i : Imm) : Format := ⟨true, i⟩

/-- The length of an instruction of format `f` whose opcode byte is at `a`. -/
def Format.length (f : Format) (m : FlatMem) (op16 : Bool) (a : Addr) : Nat :=
  1 + (if f.modrm then modrmLength m (a + 1) else 0) + f.imm.length op16

open Format Imm in
/-- The one-byte opcode map; `reg` is the opcode extension.  Prefixes and the escape
    to the second map have no format. -/
def oneByteFormat (op reg : Nat) : Option Format :=
  if op < 0x40 then
    match op % 8 with
    | 4 => withImm imm8
    | 5 => withImm immV
    -- segment registers pushed, then the segment overrides
    | 6 => if op < 0x20 then plain else .none
    | 7 => if op = 0x0f then .none else plain
    | _ => rm
  else if op < 0x62 then plain
  else if op < 0x64 then rm
  else if op < 0x68 then .none
  else if op < 0x70 then
    match op with
    | 0x68 => withImm immV
    | 0x69 => rmImm immV
    | 0x6a => withImm imm8
    | 0x6b => rmImm imm8
    | _ => plain
  else if op < 0x80 then withImm imm8
  else if op < 0x84 then (if op = 0x81 then rmImm immV else rmImm imm8)
  else if op < 0x90 then rm
  else if op < 0xa0 then (if op = 0x9a then withImm far else plain)
  else if op < 0xa4 then withImm moffs
  else if op < 0xb0 then
    match op with
    | 0xa8 => withImm imm8
    | 0xa9 => withImm immV
    | _ => plain
  else if op < 0xb8 then withImm imm8
  else if op < 0xc0 then withImm immV
  else if op < 0xd0 then
    match op with
    | 0xc0 | 0xc1 | 0xc6 => rmImm imm8
    | 0xc4 | 0xc5 => rm
    | 0xc7 => rmImm immV
    | 0xc2 | 0xca => withImm imm16
    | 0xc8 => withImm imm16imm8
    | 0xcd => withImm imm8
    | _ => plain
  else if op < 0xe0 then
    match op with
    | 0xd4 | 0xd5 => withImm imm8
    | 0xd6 | 0xd7 => plain
    | _ => rm
  else if op < 0xf0 then
    match op with
    | 0xe8 | 0xe9 => withImm immV
    | 0xea => withImm far
    | 0xec | 0xed | 0xee | 0xef => plain
    | _ => withImm imm8
  else
    match op with
    | 0xf0 | 0xf2 | 0xf3 => .none
    -- only `test` of the two unary groups has an immediate
    | 0xf6 => if reg = 0 ∨ reg = 1 then rmImm imm8 else rm
    | 0xf7 => if reg = 0 ∨ reg = 1 then rmImm immV else rm
    | 0xfe | 0xff => rm
    | _ => plain

open Format Imm in
/-- The second opcode map, after the escape byte 0x0f. -/
def twoByteFormat (op : Nat) : Option Format :=
  if op < 0x04 then rm
  else if op = 0x06 then plain
  else if 0x20 ≤ op ∧ op < 0x27 ∧ op ≠ 0x25 then rm
  else if 0x80 ≤ op ∧ op < 0x90 then withImm immV
  else if 0x90 ≤ op ∧ op < 0xa0 then rm
  else
    match op with
    | 0xa0 | 0xa1 | 0xa8 | 0xa9 => plain
    | 0xa3 | 0xa5 | 0xab | 0xad | 0xaf => rm
    | 0xa4 | 0xac | 0xba => rmImm imm8
    | 0xb2 | 0xb3 | 0xb4 | 0xb5 | 0xb6 | 0xb7 => rm
    | 0xbb | 0xbc | 0xbd | 0xbe | 0xbf => rm
    | _ => .none

/-- The length of the instruction without prefixes at `a`. -/
def opcodeLength (m : FlatMem) (op16 : Bool) (a : Addr) : Option Nat :=
  if byteAt m a = 0x0f then
    (twoByteFormat (byteAt m (a + 1))).map fun f => 1 + f.length m op16 (a + 1)
  else
    (oneByteFormat (byteAt m a) (regField m (a + 1))).map fun f => f.length m op16 a

/-! ## Instructions -/

-- `0x66`
def isOperandSize (b : Nat) : Prop := b = 0x66

-- `0xf2` and `0xf3`
def isRepeat (b : Nat) : Prop := b = 0xf2 ∨ b = 0xf3

instance (b : Nat) : Decidable (isOperandSize b) := inferInstanceAs (Decidable (b = _))

instance (b : Nat) : Decidable (isRepeat b) := inferInstanceAs (Decidable (b = _ ∨ b = _))

/-- The bytes from `a` on are an instruction of length `n`, all of it in memory, read
    with 16-bit operands if `op16`. -/
inductive Encodes (m : FlatMem) : Bool → Addr → Nat → Prop
  | opcode {op16 : Bool} {a : Addr} {n : Nat} (hlen : opcodeLength m op16 a = some n)
      (hin : InRange a n) : Encodes m op16 a n
  | operandSize {op16 : Bool} {a : Addr} {n : Nat} (hb : isOperandSize (byteAt m a))
      (hrest : Encodes m true (a + 1) n) : Encodes m op16 a (n + 1)
  | repeat_ {op16 : Bool} {a : Addr} {n : Nat} (hb : isRepeat (byteAt m a))
      (hrest : Encodes m op16 (a + 1) n) : Encodes m op16 a (n + 1)

/-- The instruction at `a` is a jump, a call or a return. -/
inductive Transfers (m : FlatMem) : Addr → Prop
  | prefix_ {a : Addr} (hb : isOperandSize (byteAt m a) ∨ isRepeat (byteAt m a))
      (hrest : Transfers m (a + 1)) : Transfers m a
  | near {a : Addr} (hb : byteAt m a ∈ [0xe8, 0xe9, 0xea, 0xeb, 0x9a, 0xc2, 0xc3, 0xca, 0xcb, 0xcf]) :
      Transfers m a
  | cond {a : Addr} (hb : 0x70 ≤ byteAt m a ∧ byteAt m a < 0x80 ∨
      0xe0 ≤ byteAt m a ∧ byteAt m a < 0xe4) : Transfers m a
  | condNear {a : Addr} (hb : byteAt m a = 0x0f) (hc : 0x80 ≤ byteAt m (a + 1) ∧
      byteAt m (a + 1) < 0x90) : Transfers m a
  | indirect {a : Addr} (hb : byteAt m a = 0xff) (hreg : regField m (a + 1) ∈ [2, 3, 4, 5]) :
      Transfers m a

end I386

end Nemu
