/-
  Nemu.Kernel.Ramdisk

  `kernel/src/driver/ramdisk.c`: the first bytes of memory are a disk.

  The bound check of `ramdisk_read` and `ramdisk_write` is a 32-bit sum and a `<`, so it
  differs from the size of the disk at two places: the exact end, which it refuses, and sums
  that wrap, which it lets through.
-/

import Nemu.Kernel.Mem
import Nemu.Lib.Outcome

namespace Nemu.Kernel

open Outcome

/-! ## `ramdisk.c` -/

def RAMDISK_START : Addr := 0

def RAMDISK_SIZE : Nat := 0xa0000

-- `nemu_assert(offset + len < RAMDISK_SIZE)`
def ramdiskCheck (offset len : BitVec 32) : Except Abort Unit :=
  cAssert (decide ((offset + len).toNat < RAMDISK_SIZE))

/-- Read `len` bytes starting from `offset` of ramdisk into `buf`. -/
def ramdiskRead (m : Mem) (buf : Addr) (offset len : BitVec 32) : Except Abort Mem := do
  ramdiskCheck offset len
  return m.memcpy buf (RAMDISK_START + offset) len

/-- Write `len` bytes starting from `buf` into the `offset` of ramdisk. -/
def ramdiskWrite (m : Mem) (buf : Addr) (offset len : BitVec 32) : Except Abort Mem := do
  ramdiskCheck offset len
  return m.memcpy (RAMDISK_START + offset) buf len

/-! ## The bound check -/

section Check

variable {m m' : Mem} {buf : Addr} {offset len : BitVec 32}

-- the bytes are bytes of the disk, as integers
def InRamdisk (offset len : BitVec 32) : Prop := offset.toNat + len.toNat ≤ RAMDISK_SIZE

instance (offset len : BitVec 32) : Decidable (InRamdisk offset len) :=
  inferInstanceAs (Decidable (_ ≤ _))

/-- `offset + len` is not the size of the disk, and does not wrap to below it. -/
def OffTheEdges (offset len : BitVec 32) : Prop :=
  offset.toNat + len.toNat ≠ RAMDISK_SIZE ∧
    ¬ (2 ^ 32 ≤ offset.toNat + len.toNat ∧ offset.toNat + len.toNat - 2 ^ 32 < RAMDISK_SIZE)

-- a copy behind the check
theorem checked_eq_ok {copied : Mem} :
    (do ramdiskCheck offset len; return copied) = .ok m' ↔
      (offset + len).toNat < RAMDISK_SIZE ∧ m' = copied := by
  by_cases h : (offset + len).toNat < RAMDISK_SIZE
  · rw [ramdiskCheck, decide_eq_true h, cAssert_true, ok_bind, pure_eq_ok]
    exact ⟨fun heq => ⟨h, heq.symm⟩, fun hok => hok.2.symm⟩
  · rw [ramdiskCheck, decide_eq_false h, cAssert_false, error_bind]
    exact ⟨nofun, fun hok => absurd hok.1 h⟩

theorem ramdiskRead_eq_ok : ramdiskRead m buf offset len = .ok m' ↔
    (offset + len).toNat < RAMDISK_SIZE ∧ m' = m.memcpy buf (RAMDISK_START + offset) len :=
  checked_eq_ok

theorem ramdiskWrite_eq_ok : ramdiskWrite m buf offset len = .ok m' ↔
    (offset + len).toNat < RAMDISK_SIZE ∧ m' = m.memcpy (RAMDISK_START + offset) buf len :=
  checked_eq_ok

theorem ramdiskRead_accepts (m : Mem) (buf : Addr) (offset len : BitVec 32) :
    (∃ m', ramdiskRead m buf offset len = .ok m') ↔ (offset + len).toNat < RAMDISK_SIZE := by
  simp only [ramdiskRead_eq_ok, exists_and_left, exists_eq, and_true]

theorem ramdiskWrite_accepts (m : Mem) (buf : Addr) (offset len : BitVec 32) :
    (∃ m', ramdiskWrite m buf offset len = .ok m') ↔ (offset + len).toNat < RAMDISK_SIZE := by
  simp only [ramdiskWrite_eq_ok, exists_and_left, exists_eq, and_true]

theorem ramdiskRead_refused (h : ¬ (offset + len).toNat < RAMDISK_SIZE) :
    ramdiskRead m buf offset len = .error .assertion := by
  rw [ramdiskRead, ramdiskCheck, decide_eq_false h, cAssert_false, error_bind]

/-- The check accepts exactly the bytes of the disk, off its two edges. -/
theorem check_iff_inRamdisk : ((offset + len).toNat < RAMDISK_SIZE ↔ InRamdisk offset len) ↔
    OffTheEdges offset len := by
  have ho := offset.isLt
  have hl := len.isLt
  rw [BitVec.toNat_add, InRamdisk, OffTheEdges, RAMDISK_SIZE]
  by_cases hwrap : offset.toNat + len.toNat < 2 ^ 32
  · rw [Nat.mod_eq_of_lt hwrap]
    omega
  · have hsum : (offset.toNat + len.toNat) % 2 ^ 32 = offset.toNat + len.toNat - 2 ^ 32 := by
      omega
    rw [hsum]
    omega

-- an address the disk is read from
theorem ramdisk_address {j : Nat} (h : InRamdisk offset len) (hj : j < len.toNat) :
    (RAMDISK_START + offset + BitVec.ofNat 32 j).toNat = offset.toNat + j := by
  rw [InRamdisk, RAMDISK_SIZE] at h
  have hlen := len.isLt
  have hstart : RAMDISK_START + offset = offset := BitVec.zero_add offset
  rw [hstart, BitVec.toNat_add, BitVec.toNat_ofNat, Nat.mod_eq_of_lt (a := j) (by omega),
    Nat.mod_eq_of_lt (by omega)]

end Check

end Nemu.Kernel
