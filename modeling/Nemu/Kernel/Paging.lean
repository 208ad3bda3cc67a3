/-
  Nemu.Kernel.Paging

  `init_page` of `kernel/src/memory/kvm.c` and `init_mm` of `mm.c` with `IA32_PAGE`, and the
  two-level walk of the i386 that reads the tables they fill.

  `init_page` runs with paging off and writes to physical addresses.  `init_mm` runs with
  paging on: its `memset` and `memcpy` are loops over bytes, each at the address that the
  tables of CR3 give.  The addresses of the static arrays are parameters.
-/

import Nemu.Kernel.Mem
import Nemu.Lib.Outcome

namespace Nemu.Kernel

open Region Mem

/-! ## `mmu.h` and `memory.h` -/

def PAGE_SIZE : Nat := 4096

def NR_PDE : Nat := 1024

def NR_PTE : Nat := 1024

def PT_SIZE : Nat := NR_PTE * PAGE_SIZE

def KOFFSET : Nat := 0xc0000000

def PHY_MEM : Nat := 128 * 1024 * 1024

def va_to_pa (addr : Addr) : Addr := addr - BitVec.ofNat 32 KOFFSET

-- the bits of `page_frame`, and of `page_directory_base`
def frameMask : BitVec 32 := 0xfffff000

def make_pde (addr : Addr) : BitVec 32 := (addr &&& frameMask) ||| 0x7

/-! ## Translation -/

-- `present`, `read_write` and `page_frame` of a PDE or PTE
def present (v : BitVec 32) : Bool := v.getLsbD 0

def read_write (v : BitVec 32) : Bool := v.getLsbD 1

def page_frame (v : BitVec 32) : Addr := v &&& frameMask

/-- Where a present address leads, and whether both entries on the way allow writing. -/
structure Translation where
  pa : Addr
  writable : Bool
deriving DecidableEq, Repr

/-- The walk from the page directory at `pdir`. -/
def walk (m : Mem) (pdir : Addr) (v : Addr) : Option Translation :=
  let pde := m.entry pdir (v >>> 22).toNat
  if present pde then
    let pte := m.entry (page_frame pde) (v >>> 12 &&& 0x3ff).toNat
    if present pte then
      some { pa := page_frame pte ||| (v &&& 0xfff), writable := read_write pde && read_write pte }
    else none
  else none

/-! ## `init_page` -/

/-- Memory with the control registers. -/
structure Machine32 where
  mem : Mem
  cr0 : BitVec 32
  cr3 : BitVec 32

-- `cr0.paging`
def pagingBit : BitVec 32 := 0x80000000

/-- The loop over the page directory from `pdir_idx` on, with `n` turns to go; the result is
    memory and the advanced `ptable`. -/
def fillPdes (pdir : Addr) : Nat → Nat → Addr → Mem → Mem × Addr
  | 0, _, ptable, m => (m, ptable)
  | n + 1, pdir_idx, ptable, m =>
      let m := m.storeWord (pdir + BitVec.ofNat 32 (4 * pdir_idx)) (make_pde ptable)
      let m := m.storeWord (pdir + BitVec.ofNat 32 (4 * (pdir_idx + KOFFSET / PT_SIZE))) (make_pde ptable)
      fillPdes pdir n (pdir_idx + 1) (ptable + BitVec.ofNat 32 (4 * NR_PTE)) m

-- `jge` behind a `sub` of `b` from `a`: SF = OF
def jge (a b : BitVec 32) : Bool := (a - b).msb == BitVec.ssubOverflow a b

/-- `1: stosl; subl $PAGE_SIZE, %eax; jge 1b` with DF set, for at most the given number of
    turns. -/
def fillPtes : Nat → BitVec 32 → Addr → Mem → Except Abort Mem
  | 0, _, _, _ => .error .outOfFuel
  | fuel + 1, eax, edi, m =>
      let m := m.storeWord edi eax
      let edi := edi - 4
      if jge eax (BitVec.ofNat 32 PAGE_SIZE) then
        fillPtes fuel (eax - BitVec.ofNat 32 PAGE_SIZE) edi m
      else .ok m

/-- `init_page`. -/
def initPage (kpdir kptable : Addr) (s : Machine32) : Except Abort Machine32 := do
  let pdir := va_to_pa kpdir
  let ptable := va_to_pa kptable
  let m := s.mem.memset pdir 0 (BitVec.ofNat 32 (NR_PDE * 4))
  let (m, ptable) := fillPdes pdir (PHY_MEM / PT_SIZE) 0 ptable m
  let m ← fillPtes (PHY_MEM / PAGE_SIZE) (BitVec.ofNat 32 (PHY_MEM - PAGE_SIZE) ||| 0x7) (ptable - 4) m
  return { mem := m, cr0 := s.cr0 ||| pagingBit, cr3 := pdir >>> 12 <<< 12 }

/-! ## `init_mm` -/

/-- A byte written through the tables of `cr3`; `none` is a page fault. -/
def storeVirt (cr3 : BitVec 32) (m : Mem) (va : Addr) (b : Byte) : Option Mem := do
  let t ← walk m (page_frame cr3) va
  return blit m t.pa 1 (fun _ => b)

def loadVirt (cr3 : BitVec 32) (m : Mem) (va : Addr) : Option Byte := do
  let t ← walk m (page_frame cr3) va
  return m t.pa

def memsetVirt (cr3 : BitVec 32) (c : Byte) : Nat → Addr → Mem → Option Mem
  | 0, _, m => some m
  | n + 1, dst, m => do
      let m ← storeVirt cr3 m dst c
      memsetVirt cr3 c n (dst + 1) m

def memcpyVirt (cr3 : BitVec 32) : Nat → Addr → Addr → Mem → Option Mem
  | 0, _, _, m => some m
  | n + 1, dst, src, m => do
      let b ← loadVirt cr3 m src
      let m ← storeVirt cr3 m dst b
      memcpyVirt cr3 n (dst + 1) (src + 1) m

/-- `init_mm`; the result is memory and `ucr3.val`. -/
def initMm (kpdir updir : Addr) (s : Machine32) : Option (Mem × BitVec 32) := do
  let m ← memsetVirt s.cr3 0 (NR_PDE * 4) updir s.mem
  let m ← memcpyVirt s.cr3 (PHY_MEM / PT_SIZE * 4) (updir + BitVec.ofNat 32 (4 * (KOFFSET / PT_SIZE)))
    (kpdir + BitVec.ofNat 32 (4 * (KOFFSET / PT_SIZE))) m
  return (m, va_to_pa updir &&& frameMask)

end Nemu.Kernel
