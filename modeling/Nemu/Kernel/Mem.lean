/-
  Nemu.Kernel.Mem

  The memory the kernel's code addresses: a byte for each of the 2^32 addresses; pointers wrap.
  A table of words is told by its entries, the words at `base + 4 * i`.
-/

import Nemu.Common
import Nemu.Lib.ByteSeq
import Nemu.Lib.Region

namespace Nemu.Kernel

open ByteSeq Region

abbrev Mem := Addr → Byte

-- an address some bytes into a region
theorem add_ofNat_add (a : Addr) (k j : Nat) :
    a + BitVec.ofNat 32 k + BitVec.ofNat 32 j = a + BitVec.ofNat 32 (k + j) := by
  rw [BitVec.add_assoc, BitVec.ofNat_add]

namespace Mem

/-- The little-endian number in the `n` bytes at `a`. -/
def loadLe (m : Mem) (a : Addr) (n : Nat) : Nat := leNat (fun i => m (a + BitVec.ofNat 32 i)) n

def loadWord (m : Mem) (a : Addr) : BitVec 32 := BitVec.ofNat 32 (m.loadLe a 4)

def storeWord (m : Mem) (a : Addr) (v : BitVec 32) : Mem := blit m a 4 (leByte v.toNat)

/-- `memcpy`; the source is read as it is before. -/
def memcpy (m : Mem) (dst src : Addr) (n : BitVec 32) : Mem :=
  blit m dst n.toNat (fun i => m (src + BitVec.ofNat 32 i))

def memset (m : Mem) (dst : Addr) (c : Byte) (n : BitVec 32) : Mem := blit m dst n.toNat (fun _ => c)

/-- Entry `i` of the table of words at `base`. -/
def entry (m : Mem) (base : Addr) (i : Nat) : BitVec 32 := m.loadWord (base + BitVec.ofNat 32 (4 * i))

section Entries

variable {m m' : Mem} {a base : Addr} {i j lo n : Nat}

theorem loadWord_congr
    (h : ∀ b, b < 4 → m (a + BitVec.ofNat 32 b) = m' (base + BitVec.ofNat 32 b)) :
    m.loadWord a = m'.loadWord base := congrArg (BitVec.ofNat 32) (leNat_congr h)

theorem entry_congr
    (h : ∀ b, 4 * i ≤ b → b < 4 * i + 4 → m (a + BitVec.ofNat 32 b) = m' (base + BitVec.ofNat 32 b)) :
    m.entry a i = m'.entry base i := by
  refine loadWord_congr (fun b hb => ?_)
  rw [add_ofNat_add, add_ofNat_add]
  exact h (4 * i + b) (by omega) (by omega)

@[simp] theorem loadWord_storeWord (m : Mem) (a : Addr) (v : BitVec 32) :
    (m.storeWord a v).loadWord a = v := by
  have hbytes : (m.storeWord a v).loadLe a 4 = leNat (leByte v.toNat) 4 :=
    leNat_congr (fun b hb => blit_add hb (Nat.lt_trans hb (by decide)))
  have hlt : v.toNat < 256 ^ 4 := v.isLt
  rw [loadWord, hbytes, leNat_leByte, Nat.mod_eq_of_lt hlt, BitVec.ofNat_toNat, BitVec.setWidth_eq]

/-- Writing an entry of a table. -/
theorem entry_storeWord (hi : 4 * i + 4 ≤ 2 ^ 32) (hj : 4 * j + 4 ≤ 2 ^ 32) (v : BitVec 32) :
    (m.storeWord (base + BitVec.ofNat 32 (4 * j)) v).entry base i
      = if i = j then v else m.entry base i := by
  by_cases hij : i = j
  · subst hij
    rw [if_pos rfl, entry, loadWord_storeWord]
  · rw [if_neg hij]
    refine entry_congr (fun b hlo hhi => blit_outside ?_)
    rw [within_add_add (by omega) hj]
    omega

/-- Copying a part of a table to its place in another one. -/
theorem entry_copy (m' : Mem) (src : Addr) (hi : 4 * i + 4 ≤ 2 ^ 32) (hn : 4 * lo + 4 * n ≤ 2 ^ 32) :
    Mem.entry (blit m (base + BitVec.ofNat 32 (4 * lo)) (4 * n)
        (fun j => m' (src + BitVec.ofNat 32 (4 * lo) + BitVec.ofNat 32 j))) base i
      = if lo ≤ i ∧ i < lo + n then m'.entry src i else m.entry base i := by
  by_cases hin : lo ≤ i ∧ i < lo + n
  · rw [if_pos hin]
    refine entry_congr (fun b hlo hhi => ?_)
    have hplace : base + BitVec.ofNat 32 b
        = base + BitVec.ofNat 32 (4 * lo) + BitVec.ofNat 32 (b - 4 * lo) := by
      rw [add_ofNat_add, Nat.add_sub_cancel' (by omega)]
    rw [hplace, blit_add (by omega) (by omega), add_ofNat_add, Nat.add_sub_cancel' (by omega)]
  · rw [if_neg hin]
    refine entry_congr (fun b hlo hhi => blit_outside ?_)
    rw [within_add_add (by omega) hn]
    omega

end Entries

end Mem

end Nemu.Kernel
