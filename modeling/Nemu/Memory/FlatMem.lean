/-
  Nemu.Memory.FlatMem

  Physical memory as one flat little-endian byte array with bounds-checked
  accesses.  This is what `DramRefinement` proves the DDR3 model to implement,
  and the memory the processor and the debugger are modelled over.
-/

import Nemu.Common
import Nemu.Lib.ByteSeq
import Nemu.Lib.Outcome

namespace Nemu

open ByteSeq Outcome

/-- Flat physical memory, the abstract state the DDR3 model implements. -/
abbrev FlatMem := Nat → Byte

namespace FlatMem

-- An access of `len` bytes at `addr` lies inside the memory.
def InRange (addr : Addr) (len : Nat) : Prop := addr.toNat + len ≤ HW_MEM_SIZE

instance (addr : Addr) (len : Nat) : Decidable (InRange addr len) :=
  inferInstanceAs (Decidable (_ ≤ _))

/-- The zero-extended little-endian value of `len` bytes. -/
def read (m : FlatMem) (addr : Addr) (len : Nat) : Except Abort (BitVec 32) := do
  cAssert (decide (InRange addr len))
  return BitVec.ofNat 32 (load m addr.toNat len)

/-- Replace exactly the `len` bytes at `addr`. -/
def write (m : FlatMem) (addr : Addr) (len : Nat) (data : BitVec 32) :
    Except Abort FlatMem := do
  cAssert (decide (InRange addr len))
  return store m addr.toNat len data.toNat

/-! ## Addresses inside an access -/

section Parts

variable {a : Addr} {n k j : Nat}

-- an access in memory does not wrap around the address space
theorem InRange.toNat_add (h : InRange a n) (hk : k ≤ n) :
    (a + BitVec.ofNat 32 k).toNat = a.toNat + k := by
  rw [InRange, HW_MEM_SIZE] at h
  rw [BitVec.toNat_add, BitVec.toNat_ofNat, Nat.mod_eq_of_lt (a := k) (by omega),
    Nat.mod_eq_of_lt (by omega)]

/-- A part of an access in memory is in memory. -/
theorem InRange.part (h : InRange a n) (hk : k + j ≤ n) : InRange (a + BitVec.ofNat 32 k) j := by
  have haddr := h.toNat_add (k := k) (by omega)
  rw [InRange] at h ⊢
  omega

theorem InRange.mono (h : InRange a n) (hj : j ≤ n) : InRange a j := by
  rw [InRange] at h ⊢
  omega

end Parts

/-! ## Access rules -/

theorem read_eq_ok {m : FlatMem} {addr : Addr} {len : Nat} {v : BitVec 32} :
    m.read addr len = .ok v ↔
      InRange addr len ∧ BitVec.ofNat 32 (load m addr.toNat len) = v := by
  by_cases h : InRange addr len <;> simp [read, h, pure, Except.pure]

theorem write_eq_ok {m m' : FlatMem} {addr : Addr} {len : Nat} {data : BitVec 32} :
    m.write addr len data = .ok m' ↔
      InRange addr len ∧ store m addr.toNat len data.toNat = m' := by
  by_cases h : InRange addr len <;> simp [write, h, pure, Except.pure]

/-- A value just written is read back, truncated to the access. -/
theorem read_of_write {m m' : FlatMem} {addr : Addr} {len : Nat} {data : BitVec 32}
    (h : m.write addr len data = .ok m') :
    m'.read addr len = .ok (BitVec.ofNat 32 (data.toNat % 256 ^ len)) := by
  obtain ⟨hin, rfl⟩ := write_eq_ok.mp h
  exact read_eq_ok.mpr ⟨hin, by rw [load_store_same]⟩

/-- A write elsewhere is not seen. -/
theorem read_of_write_disjoint {m m' : FlatMem} {addr b : Addr} {len k : Nat}
    {data : BitVec 32} (h : m.write addr len data = .ok m')
    (hd : b.toNat + k ≤ addr.toNat ∨ addr.toNat + len ≤ b.toNat) :
    m'.read b k = m.read b k := by
  obtain ⟨-, rfl⟩ := write_eq_ok.mp h
  rw [read, read, load_store_disjoint hd]

end FlatMem

end Nemu
