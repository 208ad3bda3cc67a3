/-
  Nemu.Kernel.PageTables

  What the tables of `init_page` and `init_mm` map, for every address.

  `KernelTables` lists the entries that the two loops of `init_page` leave; from it come the
  walk of the kernel's page directory, and with that the addresses at which `init_mm` works.
-/

import Nemu.Kernel.Paging

namespace Nemu.Kernel

open Outcome Region Mem

/-! ## Entries and addresses as numbers -/

section Bits

variable {a b v : BitVec 32} {k : Nat}

theorem page_frame_shift (v : BitVec 32) : page_frame v = v >>> 12 <<< 12 := by
  have hmask : frameMask = BitVec.allOnes 32 <<< 12 := by decide
  rw [page_frame, hmask, ← BitVec.shiftLeft_ushiftRight]

theorem toNat_page_frame (v : BitVec 32) : (page_frame v).toNat = v.toNat / 4096 * 4096 := by
  have hlt := v.isLt
  rw [page_frame_shift, BitVec.toNat_shiftLeft, BitVec.toNat_ushiftRight, Nat.shiftLeft_eq, Nat.shiftRight_eq_div_pow]
  exact Nat.mod_eq_of_lt (by omega)

theorem page_frame_aligned (h : a.toNat % 4096 = 0) : page_frame a = a := by
  apply BitVec.eq_of_toNat_eq
  rw [toNat_page_frame]
  omega

-- an address in a page that begins at a frame
theorem toNat_frame_or (v : BitVec 32) (x : Addr) :
    (page_frame v ||| (x &&& 0xfff)).toNat = v.toNat / 4096 * 4096 + x.toNat % 4096 := by
  have hdisj : page_frame v &&& (x &&& 0xfff) = 0 := by
    have hmask : frameMask &&& 0xfff = 0#32 := by decide
    rw [page_frame, BitVec.and_comm x, ← BitVec.and_assoc, BitVec.and_assoc v, hmask,
      BitVec.and_zero, BitVec.zero_and]
    rfl
  have hoff : (x &&& 0xfff).toNat = x.toNat % 4096 := by
    rw [BitVec.toNat_and]
    exact Nat.and_two_pow_sub_one_eq_mod x.toNat 12
  have hlt := v.isLt
  rw [← BitVec.add_eq_or_of_and_eq_zero _ _ hdisj, BitVec.toNat_add, toNat_page_frame, hoff,
    Nat.mod_eq_of_lt (by omega)]

/-- The fields of a page directory entry that `make_pde` builds. -/
theorem make_pde_fields (a : Addr) : present (make_pde a) = true ∧
    read_write (make_pde a) = true ∧ page_frame (make_pde a) = page_frame a := by
  refine ⟨?_, ?_, ?_⟩
  · simp [present, make_pde]
  · simp [read_write, make_pde]
  · have hmask : (0x7 : BitVec 32) &&& frameMask = 0 := by decide
    rw [page_frame, make_pde, BitVec.and_or_distrib_right, hmask, BitVec.and_assoc,
      BitVec.and_self]
    exact BitVec.or_zero

/-- The page table entry of frame `k`. -/
def pteOf (k : Nat) : BitVec 32 := BitVec.ofNat 32 (4096 * k + 7)

theorem toNat_pteOf (hk : k < 2 ^ 20) : (pteOf k).toNat = 4096 * k + 7 := by
  rw [pteOf, BitVec.toNat_ofNat]
  omega

theorem pteOf_fields (k : Nat) : present (pteOf k) = true ∧ read_write (pteOf k) = true := by
  refine ⟨?_, ?_⟩
  · rw [present, pteOf, BitVec.getLsbD_ofNat, Nat.testBit_eq_decide_div_mod_eq]
    simp
    omega
  · rw [read_write, pteOf, BitVec.getLsbD_ofNat, Nat.testBit_eq_decide_div_mod_eq]
    simp
    omega

/-- `jge` between numbers below 2^31 compares them. -/
theorem jge_iff (ha : a.toNat < 2 ^ 31) (hb : b.toNat < 2 ^ 31) :
    jge a b = true ↔ b.toNat ≤ a.toNat := by
  have hia : a.toInt = a.toNat := BitVec.toInt_eq_toNat_of_lt (by omega)
  have hib : b.toInt = b.toNat := BitVec.toInt_eq_toNat_of_lt (by omega)
  have hov : BitVec.ssubOverflow a b = false := by
    rw [BitVec.ssubOverflow, hia, hib]
    simp
    omega
  have hmsb : (a - b).msb = decide (2 ^ 31 ≤ (a - b).toNat) := BitVec.msb_eq_decide _
  rw [jge, hov, hmsb, BitVec.toNat_sub, beq_iff_eq, decide_eq_false_iff_not]
  omega

/-- The parts of an address. -/
theorem toNat_index (v : Addr) : (v >>> 22).toNat = v.toNat / 2 ^ 22 ∧
    (v >>> 12 &&& 0x3ff).toNat = v.toNat / 4096 % 1024 := by
  refine ⟨?_, ?_⟩
  · rw [BitVec.toNat_ushiftRight, Nat.shiftRight_eq_div_pow]
  · rw [BitVec.toNat_and, BitVec.toNat_ushiftRight, Nat.shiftRight_eq_div_pow]
    exact Nat.and_two_pow_sub_one_eq_mod _ 10

end Bits

/-! ## The two loops of `init_page` -/

section Fill

variable {pdir ptable x : Addr} {m : Mem} {n idx d k : Nat}

-- `m'` differs from `m` only in the `n` bytes from `a` on
def OnlyAt (a : Addr) (n : Nat) (m m' : Mem) : Prop := ∀ x, ¬ Within a n x → m' x = m x

theorem onlyAt_blit {a : Addr} {j : Nat} {src : Nat → Byte} (h : j + k ≤ n) (hn : n ≤ 2 ^ 32) :
    OnlyAt a n m (blit m (a + BitVec.ofNat 32 j) k src) := by
  intro x hx
  exact blit_outside (fun hin => hx (hin.of_add h hn))

-- the page tables of consecutive turns
theorem nextTable (ptable : Addr) (j : Nat) :
    ptable + BitVec.ofNat 32 (4 * NR_PTE) + BitVec.ofNat 32 (4096 * j)
      = ptable + BitVec.ofNat 32 (4096 * (j + 1)) := by
  have hsum : 4 * NR_PTE + 4096 * j = 4096 * (j + 1) := by
    rw [NR_PTE]
    omega
  rw [add_ofNat_add, hsum]

/-- The turns from `idx` on fill `n` entries below and `n` above. -/
theorem fillPdes_entry (hidx : idx + n ≤ 32) (hd : d < 1024) :
    (fillPdes pdir n idx ptable m).1.entry pdir d
      = if idx ≤ d ∧ d < idx + n then make_pde (ptable + BitVec.ofNat 32 (4096 * (d - idx)))
        else if 768 + idx ≤ d ∧ d < 768 + idx + n then
          make_pde (ptable + BitVec.ofNat 32 (4096 * (d - 768 - idx)))
        else m.entry pdir d := by
  induction n generalizing idx ptable m with
  | zero =>
      rw [if_neg (by omega), if_neg (by omega)]
      rfl
  | succ n ih =>
      have htop : idx + KOFFSET / PT_SIZE = 768 + idx := Nat.add_comm ..
      rw [fillPdes, ih (by omega), nextTable, nextTable, htop, entry_storeWord (by omega) (by omega),
        entry_storeWord (by omega) (by omega)]
      -- the entries of this turn are its first ones
      by_cases hlow : d = idx
      · subst hlow
        rw [if_neg (by omega), if_neg (by omega), if_neg (by omega), if_pos rfl, if_pos (by omega),
          Nat.sub_self, Nat.mul_zero, BitVec.add_zero]
      · by_cases hhigh : d = 768 + idx
        · subst hhigh
          have hzero : 768 + idx - 768 - idx = 0 := by omega
          rw [if_neg (by omega), if_neg (by omega), if_pos rfl, if_neg (by omega),
            if_pos (by omega), hzero, Nat.mul_zero, BitVec.add_zero]
        · rw [if_neg hhigh, if_neg hlow]
          by_cases h₁ : idx + 1 ≤ d ∧ d < idx + 1 + n
          · have hplace : d - (idx + 1) + 1 = d - idx := by omega
            rw [if_pos h₁, if_pos (by omega), hplace]
          · by_cases h₂ : 768 + (idx + 1) ≤ d ∧ d < 768 + (idx + 1) + n
            · have hplace : d - 768 - (idx + 1) + 1 = d - 768 - idx := by omega
              rw [if_neg h₁, if_pos h₂, if_neg (by omega), if_pos (by omega), hplace]
            · rw [if_neg h₁, if_neg h₂, if_neg (by omega), if_neg (by omega)]

theorem fillPdes_ptable :
    (fillPdes pdir n idx ptable m).2 = ptable + BitVec.ofNat 32 (4096 * n) := by
  induction n generalizing idx ptable m with
  | zero => exact (BitVec.add_zero ptable).symm
  | succ n ih =>
      rw [fillPdes, ih, nextTable]

-- the last turn of the backward loop
theorem fillPtes_last (fuel : Nat) (edi : Addr) (m : Mem) :
    fillPtes (fuel + 1) (pteOf 0) edi m = .ok (m.storeWord edi (pteOf 0)) := by
  have hexit : jge (pteOf 0) (BitVec.ofNat 32 PAGE_SIZE) = false := by decide
  rw [fillPtes]
  exact if_neg (by rw [hexit]; decide)

/-- A turn before the last one writes an entry and goes on with the one below. -/
theorem fillPtes_next (fuel : Nat) (hk : k + 1 < 2 ^ 15) :
    fillPtes (fuel + 1) (pteOf (k + 1)) (ptable + BitVec.ofNat 32 (4 * (k + 1))) m
      = fillPtes fuel (pteOf k) (ptable + BitVec.ofNat 32 (4 * k))
          (m.storeWord (ptable + BitVec.ofNat 32 (4 * (k + 1))) (pteOf (k + 1))) := by
  have hpte : (pteOf (k + 1)).toNat = 4096 * (k + 1) + 7 := toNat_pteOf (by omega)
  have hpage : (BitVec.ofNat 32 PAGE_SIZE).toNat = 4096 := rfl
  have hmore : jge (pteOf (k + 1)) (BitVec.ofNat 32 PAGE_SIZE) = true :=
    (jge_iff (by omega) (by decide)).mpr (by omega)
  have heax : pteOf (k + 1) - BitVec.ofNat 32 PAGE_SIZE = pteOf k := by
    have hsum : 4096 * (k + 1) + 7 = 4096 * k + 7 + PAGE_SIZE := by
      rw [PAGE_SIZE]
      omega
    rw [pteOf, hsum, BitVec.ofNat_add, BitVec.add_sub_cancel, pteOf]
  have hedi : ptable + BitVec.ofNat 32 (4 * (k + 1)) - 4 = ptable + BitVec.ofNat 32 (4 * k) := by
    have hfour : (4 : Addr) = BitVec.ofNat 32 4 := rfl
    rw [Nat.mul_succ, ← add_ofNat_add, hfour, BitVec.add_sub_cancel]
  rw [fillPtes]
  exact (if_pos hmore).trans (by rw [heax, hedi])

/-- The backward loop from entry `k` down ends behind entry 0. -/
theorem fillPtes_run (ptable : Addr) (m : Mem) {fuel : Nat} (hk : k < 2 ^ 15) (hfuel : k < fuel) :
    ∃ m', fillPtes fuel (pteOf k) (ptable + BitVec.ofNat 32 (4 * k)) m = .ok m' ∧
      (∀ i, i < 2 ^ 15 → m'.entry ptable i = if i ≤ k then pteOf i else m.entry ptable i) ∧
      OnlyAt ptable (4 * 2 ^ 15) m m' := by
  induction k generalizing m fuel with
  | zero =>
      obtain ⟨fuel, rfl⟩ : ∃ f, fuel = f + 1 := ⟨fuel - 1, by omega⟩
      refine ⟨_, fillPtes_last fuel _ m, fun i hi => ?_, onlyAt_blit (by omega) (by decide)⟩
      rw [entry_storeWord (by omega) (by decide)]
      by_cases hi0 : i = 0
      · rw [if_pos hi0, if_pos (by omega), hi0]
      · rw [if_neg hi0, if_neg (by omega)]
  | succ k ih =>
      obtain ⟨fuel, rfl⟩ : ∃ f, fuel = f + 1 := ⟨fuel - 1, by omega⟩
      obtain ⟨m', hrun, hentry, hframe⟩ := ih
        (m.storeWord (ptable + BitVec.ofNat 32 (4 * (k + 1))) (pteOf (k + 1)))
        (show k < 2 ^ 15 by omega) (show k < fuel by omega)
      refine ⟨m', (fillPtes_next fuel hk).trans hrun, fun i hi => ?_, fun x hx => ?_⟩
      · rw [hentry i hi, entry_storeWord (by omega) (by omega)]
        by_cases hle : i ≤ k
        · rw [if_pos hle, if_pos (by omega)]
        · by_cases hi1 : i = k + 1
          · rw [if_neg hle, if_pos hi1, if_pos (by omega), hi1]
          · rw [if_neg hle, if_neg hi1, if_neg (by omega)]
      · exact (hframe x hx).trans (onlyAt_blit (by omega) (by decide) x hx)

end Fill

/-! ## The walk -/

/-- The directory at `dir` leads to the page tables at `ptable`: entry `d` to table `slot d`. -/
def Leads (m : Mem) (ptable dir : Addr) (slot : Nat → Option Nat) : Prop :=
  ∀ d, d < 1024 → m.entry dir d
    = ((slot d).map fun q => make_pde (ptable + BitVec.ofNat 32 (4096 * q))).getD 0

-- the 32 page tables map frame by frame
def Frames (m : Mem) (ptable : Addr) : Prop := ∀ i, i < 2 ^ 15 → m.entry ptable i = pteOf i

/-- The tables that `init_page` fills, in the lower and in the upper part of the directory. -/
def kernelSlot (d : Nat) : Option Nat :=
  if d < 32 then some d else if 768 ≤ d ∧ d < 800 then some (d - 768) else none

-- the ones that `init_mm` takes over
def userSlot (d : Nat) : Option Nat := if 768 ≤ d ∧ d < 800 then some (d - 768) else none

section Walk

variable {m : Mem} {ptable dir v : Addr} {slot : Nat → Option Nat} {q : Nat}

theorem walk_present (hpde : present (m.entry dir (v >>> 22).toNat) = true)
    (hpte : present (m.entry (page_frame (m.entry dir (v >>> 22).toNat))
      (v >>> 12 &&& 0x3ff).toNat) = true) :
    walk m dir v = some
      { pa := page_frame (m.entry (page_frame (m.entry dir (v >>> 22).toNat))
          (v >>> 12 &&& 0x3ff).toNat) ||| (v &&& 0xfff)
        writable := read_write (m.entry dir (v >>> 22).toNat) &&
          read_write (m.entry (page_frame (m.entry dir (v >>> 22).toNat)) (v >>> 12 &&& 0x3ff).toNat) } :=
  (if_pos hpde).trans (if_pos hpte)

/-- A walk reads an entry of the directory and one of the table it leads to. -/
theorem walk_leads (hdir : Leads m ptable dir slot) (hframes : Frames m ptable)
    (hpage : ptable.toNat % 4096 = 0) (hslot : ∀ d q, slot d = some q → q < 32) :
    walk m dir v = (slot (v.toNat / 2 ^ 22)).map fun q =>
      { pa := BitVec.ofNat 32 (2 ^ 22 * q + v.toNat % 2 ^ 22), writable := true } := by
  obtain ⟨hhigh, hmid⟩ := toNat_index v
  have hv := v.isLt
  have hpde := hdir (v.toNat / 2 ^ 22) (by omega)
  cases hq : slot (v.toNat / 2 ^ 22) with
  | none =>
      rw [hq] at hpde
      have hzero : m.entry dir (v >>> 22).toNat = 0 := by rw [hhigh]; exact hpde
      rw [walk, hzero]
      rfl
  | some q =>
      rw [hq] at hpde
      have hlt := hslot _ q hq
      obtain ⟨hpresent, hwrite, hframe⟩ := make_pde_fields (ptable + BitVec.ofNat 32 (4096 * q))
      have htable : page_frame (ptable + BitVec.ofNat 32 (4096 * q))
          = ptable + BitVec.ofNat 32 (4096 * q) := by
        refine page_frame_aligned ?_
        rw [BitVec.toNat_add, BitVec.toNat_ofNat]
        omega
      have hpde' : m.entry dir (v >>> 22).toNat = make_pde (ptable + BitVec.ofNat 32 (4096 * q)) := by
        rw [hhigh]
        exact hpde
      -- the entry of the table, counted from the first table on
      have hpte : m.entry (ptable + BitVec.ofNat 32 (4096 * q)) (v >>> 12 &&& 0x3ff).toNat
          = pteOf (1024 * q + v.toNat / 4096 % 1024) := by
        have hplace : 4096 * q + 4 * (v.toNat / 4096 % 1024)
            = 4 * (1024 * q + v.toNat / 4096 % 1024) := by omega
        rw [hmid, entry, add_ofNat_add, hplace]
        exact hframes _ (by omega)
      obtain ⟨hpresent', hwrite'⟩ := pteOf_fields (1024 * q + v.toNat / 4096 % 1024)
      have hpa : page_frame (pteOf (1024 * q + v.toNat / 4096 % 1024)) ||| (v &&& 0xfff)
          = BitVec.ofNat 32 (2 ^ 22 * q + v.toNat % 2 ^ 22) := by
        apply BitVec.eq_of_toNat_eq
        rw [toNat_frame_or, toNat_pteOf (by omega), BitVec.toNat_ofNat]
        omega
      have hdir : present (m.entry dir (v >>> 22).toNat) = true := by
        rw [hpde']
        exact hpresent
      have hwalk := walk_present hdir (by rw [hpde', hframe, htable, hpte]; exact hpresent')
      rw [hwalk, hpde', hframe, htable, hpte, hpa, hwrite, hwrite']
      rfl

theorem kernelSlot_lt {d q : Nat} (h : kernelSlot d = some q) : q < 32 := by
  rw [kernelSlot] at h
  by_cases hlow : d < 32
  · rw [if_pos hlow, Option.some.injEq] at h
    omega
  · rw [if_neg hlow] at h
    by_cases hhigh : 768 ≤ d ∧ d < 800
    · rw [if_pos hhigh, Option.some.injEq] at h
      omega
    · rw [if_neg hhigh] at h
      exact nomatch h

theorem userSlot_lt {d q : Nat} (h : userSlot d = some q) : q < 32 := by
  rw [userSlot] at h
  by_cases hhigh : 768 ≤ d ∧ d < 800
  · rw [if_pos hhigh, Option.some.injEq] at h
    omega
  · rw [if_neg hhigh] at h
    exact nomatch h

end Walk

/-- What the kernel's page directory is to map: the identity, and the same above KOFFSET. -/
def kernelMapping (v : Addr) : Option Translation :=
  if v.toNat < PHY_MEM then some { pa := v, writable := true }
  else if KOFFSET ≤ v.toNat ∧ v.toNat < KOFFSET + PHY_MEM then
    some { pa := va_to_pa v, writable := true }
  else none

theorem toNat_va_to_pa {v : Addr} (h : KOFFSET ≤ v.toNat) : (va_to_pa v).toNat = v.toNat - KOFFSET :=
  BitVec.toNat_sub_of_le h

/-- The slots of the kernel's directory, address by address. -/
theorem kernelSlot_map (v : Addr) : ((kernelSlot (v.toNat / 2 ^ 22)).map fun q =>
    ({ pa := BitVec.ofNat 32 (2 ^ 22 * q + v.toNat % 2 ^ 22), writable := true } : Translation))
      = kernelMapping v := by
  have hv := v.isLt
  rw [kernelSlot, kernelMapping, PHY_MEM]
  by_cases hlow : v.toNat < 128 * 1024 * 1024
  · have hpa : BitVec.ofNat 32 (2 ^ 22 * (v.toNat / 2 ^ 22) + v.toNat % 2 ^ 22) = v := by
      rw [Nat.div_add_mod, BitVec.ofNat_toNat, BitVec.setWidth_eq]
    rw [if_pos (by omega), if_pos hlow, Option.map_some, hpa]
  · rw [if_neg (by omega), if_neg hlow]
    by_cases hhigh : KOFFSET ≤ v.toNat ∧ v.toNat < KOFFSET + 128 * 1024 * 1024
    · have hpa : BitVec.ofNat 32 (2 ^ 22 * (v.toNat / 2 ^ 22 - 768) + v.toNat % 2 ^ 22) = va_to_pa v := by
        apply BitVec.eq_of_toNat_eq
        rw [toNat_va_to_pa hhigh.1, BitVec.toNat_ofNat]
        rw [KOFFSET] at hhigh ⊢
        omega
      have hslot : 768 ≤ v.toNat / 2 ^ 22 ∧ v.toNat / 2 ^ 22 < 800 := by
        rw [KOFFSET] at hhigh
        omega
      rw [if_pos hslot, if_pos hhigh, Option.map_some, hpa]
    · have hslot : ¬ (768 ≤ v.toNat / 2 ^ 22 ∧ v.toNat / 2 ^ 22 < 800) := by
        rw [KOFFSET] at hhigh
        omega
      rw [if_neg hslot, if_neg hhigh, Option.map_none]

/-! ## `init_page` -/

-- the `n` bytes from `a` and the `k` bytes from `b` are apart
def Apart (a : Addr) (n : Nat) (b : Addr) (k : Nat) : Prop :=
  a.toNat + n ≤ b.toNat ∨ b.toNat + k ≤ a.toNat

instance (a : Addr) (n : Nat) (b : Addr) (k : Nat) : Decidable (Apart a n b k) :=
  inferInstanceAs (Decidable (_ ∨ _))

/-- The three static arrays: page-aligned, in physical memory, disjoint. -/
structure Layout (kpdir kptable updir : Addr) : Prop where
  kpdir_page : (va_to_pa kpdir).toNat % PAGE_SIZE = 0
  kptable_page : (va_to_pa kptable).toNat % PAGE_SIZE = 0
  updir_page : (va_to_pa updir).toNat % PAGE_SIZE = 0
  kpdir_end : (va_to_pa kpdir).toNat + 4 * NR_PDE ≤ PHY_MEM
  kptable_end : (va_to_pa kptable).toNat + 4 * (PHY_MEM / PAGE_SIZE) ≤ PHY_MEM
  updir_end : (va_to_pa updir).toNat + 4 * NR_PDE ≤ PHY_MEM
  kpdir_kptable : Apart (va_to_pa kpdir) (4 * NR_PDE) (va_to_pa kptable) (4 * (PHY_MEM / PAGE_SIZE))
  updir_kpdir : Apart (va_to_pa updir) (4 * NR_PDE) (va_to_pa kpdir) (4 * NR_PDE)
  updir_kptable : Apart (va_to_pa updir) (4 * NR_PDE) (va_to_pa kptable) (4 * (PHY_MEM / PAGE_SIZE))

/-- The kernel's tables are in memory. -/
structure KernelTables (pdir ptable : Addr) (m : Mem) : Prop where
  dir : Leads m ptable pdir kernelSlot
  frames : Frames m ptable

section Regions

variable {a b base x : Addr} {m m' : Mem} {n k i : Nat}

theorem Apart.not_within (h : Apart a n b k) (ha : a.toNat + n ≤ 2 ^ 32) (hb : b.toNat + k ≤ 2 ^ 32)
    (hx : Within b k x) : ¬ Within a n x := by
  rw [within_iff ha]
  rw [within_iff hb] at hx
  rcases h with h | h <;> omega

-- an entry of a table in the region
theorem within_entry (hi : 4 * i + 4 ≤ n) (hn : n ≤ 2 ^ 32) {j : Nat} (hj : j < 4) :
    Within base n (base + BitVec.ofNat 32 (4 * i) + BitVec.ofNat 32 j) := by
  rw [add_ofNat_add]
  exact within_add (by omega) (by omega)

/-- A table that is written around keeps its entries. -/
theorem OnlyAt.entry (h : OnlyAt a n m m') (hapart : ∀ x, Within base k x → ¬ Within a n x)
    (hi : 4 * i + 4 ≤ k) (hk : k ≤ 2 ^ 32) : m'.entry base i = m.entry base i :=
  loadWord_congr (fun _ hj => h _ (hapart _ (within_entry hi hk hj)))

end Regions

/-- Entries in memory that has been cleared. -/
theorem entry_memset_zero (m : Mem) (base : Addr) {d : Nat} (hd : d < 1024) :
    (m.memset base 0 (BitVec.ofNat 32 (NR_PDE * 4))).entry base d = 0 := by
  have hcopy : Mem.entry (blit m (base + BitVec.ofNat 32 (4 * 0)) (4 * 1024) (fun _ => 0)) base d
      = if 0 ≤ d ∧ d < 0 + 1024 then (Mem.entry (fun _ => 0) base d) else m.entry base d :=
    entry_copy (fun _ => 0) base (by omega) (by decide)
  rw [if_pos (by omega), Nat.mul_zero, BitVec.add_zero] at hcopy
  exact hcopy

-- the directory with its two parts filled
theorem fillPdes_leads (pdir ptable : Addr) (m : Mem) :
    Leads (fillPdes pdir 32 0 ptable (m.memset pdir 0 (BitVec.ofNat 32 (NR_PDE * 4)))).1 ptable pdir
      kernelSlot := by
  intro d hd
  rw [fillPdes_entry (by decide) hd, entry_memset_zero _ _ hd, kernelSlot]
  by_cases hlow : d < 32
  · rw [if_pos (by omega), if_pos hlow, Option.map_some, Option.getD_some, Nat.sub_zero]
  · by_cases hhigh : 768 ≤ d ∧ d < 800
    · rw [if_neg (by omega), if_pos (by omega), if_neg hlow, if_pos hhigh, Option.map_some,
        Option.getD_some, Nat.sub_zero]
    · rw [if_neg (by omega), if_neg (by omega), if_neg hlow, if_neg hhigh, Option.map_none,
        Option.getD_none]

section InitPage

variable {kpdir kptable updir : Addr}

/-- `init_page` fills the kernel's tables, points CR3 at them and turns paging on. -/
theorem initPage_run (hl : Layout kpdir kptable updir) (s : Machine32) :
    ∃ s', initPage kpdir kptable s = .ok s' ∧ s'.cr3 = va_to_pa kpdir ∧
      s'.cr0 = s.cr0 ||| pagingBit ∧ KernelTables (va_to_pa kpdir) (va_to_pa kptable) s'.mem := by
  have hpend : (va_to_pa kpdir).toNat + 4096 ≤ 134217728 := hl.kpdir_end
  have htend : (va_to_pa kptable).toNat + 4 * 2 ^ 15 ≤ 134217728 := hl.kptable_end
  have happ : Apart (va_to_pa kpdir) 4096 (va_to_pa kptable) (4 * 2 ^ 15) := hl.kpdir_kptable
  have hpdes : PHY_MEM / PT_SIZE = 32 := by decide
  have hptes : PHY_MEM / PAGE_SIZE = 2 ^ 15 := by decide
  have heax : BitVec.ofNat 32 (PHY_MEM - PAGE_SIZE) ||| 0x7 = pteOf (2 ^ 15 - 1) := by decide
  have hcr3 : va_to_pa kpdir >>> 12 <<< 12 = va_to_pa kpdir := by
    rw [← page_frame_shift]
    exact page_frame_aligned hl.kpdir_page
  have hleads := fillPdes_leads (va_to_pa kpdir) (va_to_pa kptable) s.mem
  have hptable : (fillPdes (va_to_pa kpdir) 32 0 (va_to_pa kptable)
      (s.mem.memset (va_to_pa kpdir) 0 (BitVec.ofNat 32 (NR_PDE * 4)))).2
        = va_to_pa kptable + BitVec.ofNat 32 (4096 * 32) := fillPdes_ptable
  -- the last entry of the last table
  have hlast : va_to_pa kptable + BitVec.ofNat 32 (4096 * 32) - 4
      = va_to_pa kptable + BitVec.ofNat 32 (4 * (2 ^ 15 - 1)) := by
    have hfour : BitVec.ofNat 32 (4096 * 32) = BitVec.ofNat 32 (4 * (2 ^ 15 - 1)) + 4 := by decide
    rw [hfour, ← BitVec.add_assoc, BitVec.add_sub_cancel]
  rw [initPage, hpdes, hptes, heax]
  generalize fillPdes (va_to_pa kpdir) 32 0 (va_to_pa kptable)
    (s.mem.memset (va_to_pa kpdir) 0 (BitVec.ofNat 32 (NR_PDE * 4))) = filled at hleads hptable
  obtain ⟨m₁, ptable⟩ := filled
  obtain rfl : ptable = va_to_pa kptable + BitVec.ofNat 32 (4096 * 32) := hptable
  obtain ⟨m', hrun, hentries, hframe⟩ := fillPtes_run (va_to_pa kptable) m₁
    (show 2 ^ 15 - 1 < 2 ^ 15 by decide) (show 2 ^ 15 - 1 < 2 ^ 15 by decide)
  refine ⟨{ mem := m', cr0 := s.cr0 ||| pagingBit, cr3 := va_to_pa kpdir >>> 12 <<< 12 }, ?_, hcr3, rfl,
    fun d hd => ?_, fun i hi => ?_⟩
  · show (fillPtes _ _ _ _ >>= _) = _
    rw [hlast, hrun]
    rfl
  · -- the page tables are filled elsewhere
    have hout : ∀ x, Within (va_to_pa kpdir) 4096 x → ¬ Within (va_to_pa kptable) (4 * 2 ^ 15) x :=
      fun x hx => Apart.not_within (Or.symm happ) (by omega) (by omega) hx
    rw [hframe.entry hout (by omega) (by decide)]
    exact hleads d hd
  · rw [hentries i hi, if_pos (by omega)]

end InitPage

/-! ## `init_mm` -/

def pa_to_va (addr : Addr) : Addr := addr + BitVec.ofNat 32 KOFFSET

section Virtual

variable {pdir ptable a b : Addr} {m m' : Mem} {cr3 : BitVec 32} {n k : Nat} {c : Byte}

theorem va_to_pa_to_va (v : Addr) : pa_to_va (va_to_pa v) = v := BitVec.sub_add_cancel ..

theorem pa_to_va_add (a d : Addr) : pa_to_va a + d = pa_to_va (a + d) := by
  rw [pa_to_va, pa_to_va, BitVec.add_assoc, BitVec.add_comm (BitVec.ofNat 32 KOFFSET),
    ← BitVec.add_assoc]

-- some bytes further, in physical memory
theorem toNat_add_ofNat {k : Nat} (h : a.toNat + k ≤ PHY_MEM) :
    (a + BitVec.ofNat 32 k).toNat = a.toNat + k := by
  rw [PHY_MEM] at h
  rw [BitVec.toNat_add, BitVec.toNat_ofNat]
  omega

theorem toNat_add_one (h : a.toNat < PHY_MEM) : (a + 1).toNat = a.toNat + 1 :=
  toNat_add_ofNat (k := 1) h

/-- The kernel's walk, under its tables. -/
theorem KernelTables.walk (h : KernelTables pdir ptable m) (hpage : ptable.toNat % 4096 = 0)
    (v : Addr) : walk m pdir v = kernelMapping v :=
  (walk_leads h.dir h.frames hpage (fun _ _ => kernelSlot_lt)).trans (kernelSlot_map v)

/-- An address above KOFFSET stands for the physical one below it. -/
theorem kernelMapping_pa_to_va (ha : a.toNat < PHY_MEM) :
    kernelMapping (pa_to_va a) = some { pa := a, writable := true } := by
  rw [PHY_MEM] at ha
  have hva : (pa_to_va a).toNat = a.toNat + KOFFSET := by
    rw [pa_to_va, BitVec.toNat_add, BitVec.toNat_ofNat, KOFFSET]
    omega
  have hpa : va_to_pa (pa_to_va a) = a := BitVec.add_sub_cancel ..
  rw [kernelMapping, hva, if_neg (by rw [PHY_MEM, KOFFSET]; omega),
    if_pos (by rw [PHY_MEM]; omega), hpa]

/-- Physical bytes apart from the kernel's tables. -/
structure Free (pdir ptable a : Addr) (n : Nat) : Prop where
  bound : a.toNat + n ≤ PHY_MEM
  dir : ∀ x, Within pdir (4 * 1024) x → ¬ Within a n x
  table : ∀ x, Within ptable (4 * 2 ^ 15) x → ¬ Within a n x

/-- Writing to free bytes leaves the tables. -/
theorem KernelTables.keep (h : KernelTables pdir ptable m) (hfree : Free pdir ptable a n)
    (hat : OnlyAt a n m m') : KernelTables pdir ptable m' where
  dir := fun d hd => (hat.entry hfree.dir (by omega) (by decide)).trans (h.dir d hd)
  frames := fun i hi => (hat.entry hfree.table (by omega) (by decide)).trans (h.frames i hi)

theorem Free.part {j k : Nat} (h : Free pdir ptable a n) (hpart : j + k ≤ n) :
    Free pdir ptable (a + BitVec.ofNat 32 j) k := by
  have hbound := h.bound
  have hn : n ≤ 2 ^ 32 := by
    rw [PHY_MEM] at hbound
    omega
  refine ⟨?_, fun x hx hin => h.dir x hx (hin.of_add hpart hn),
    fun x hx hin => h.table x hx (hin.of_add hpart hn)⟩
  rw [toNat_add_ofNat (by omega)]
  omega

-- the first byte, and the bytes behind it
theorem Free.next (h : Free pdir ptable a (n + 1)) :
    Free pdir ptable a 1 ∧ Free pdir ptable (a + 1) n := by
  have hfirst := h.part (j := 0) (k := 1) (by omega)
  rw [BitVec.add_zero] at hfirst
  exact ⟨hfirst, h.part (j := 1) (by omega)⟩

theorem storeVirt_run (h : KernelTables pdir ptable m) (hpage : ptable.toNat % 4096 = 0)
    (hcr3 : page_frame cr3 = pdir) (ha : a.toNat < PHY_MEM) (c : Byte) :
    storeVirt cr3 m (pa_to_va a) c = some (blit m a 1 (fun _ => c)) := by
  rw [storeVirt, hcr3, h.walk hpage, kernelMapping_pa_to_va ha]
  rfl

theorem loadVirt_run (h : KernelTables pdir ptable m) (hpage : ptable.toNat % 4096 = 0)
    (hcr3 : page_frame cr3 = pdir) (ha : a.toNat < PHY_MEM) : loadVirt cr3 m (pa_to_va a) = some (m a) := by
  rw [loadVirt, hcr3, h.walk hpage, kernelMapping_pa_to_va ha]
  rfl

/-- `memset` through the kernel's tables clears the physical bytes. -/
theorem memsetVirt_run (h : KernelTables pdir ptable m) (hpage : ptable.toNat % 4096 = 0)
    (hcr3 : page_frame cr3 = pdir) (hfree : Free pdir ptable a n) :
    memsetVirt cr3 c n (pa_to_va a) m = some (blit m a n (fun _ => c)) := by
  induction n generalizing a m with
  | zero =>
      rw [memsetVirt]
      exact congrArg some (funext fun x => (blit_outside (Nat.not_lt_zero _)).symm)
  | succ n ih =>
      obtain ⟨hfirst, hrest⟩ := hfree.next
      have hb := hfree.bound
      have hone : blit (blit m a 1 (fun _ => c)) (a + 1) n (fun _ => c) = blit m a (1 + n) (fun _ => c) :=
        blit_append (k := n) (by rw [PHY_MEM] at hb; omega)
      have hkept : KernelTables pdir ptable (blit m a 1 (fun _ => c)) :=
        h.keep hfirst (fun x hx => blit_outside hx)
      rw [memsetVirt, storeVirt_run h hpage hcr3 (by omega)]
      show memsetVirt cr3 c n (pa_to_va a + 1) _ = _
      rw [pa_to_va_add, ih hkept hrest, hone, Nat.add_comm]

/-- `memcpy` through the kernel's tables copies physical bytes. -/
theorem memcpyVirt_run (h : KernelTables pdir ptable m) (hpage : ptable.toNat % 4096 = 0)
    (hcr3 : page_frame cr3 = pdir) (hfree : Free pdir ptable a n) (hb : b.toNat + n ≤ PHY_MEM)
    (happ : Apart a n b n) :
    memcpyVirt cr3 n (pa_to_va a) (pa_to_va b) m
      = some (blit m a n (fun j => m (b + BitVec.ofNat 32 j))) := by
  induction n generalizing a b m with
  | zero =>
      rw [memcpyVirt]
      exact congrArg some (funext fun x => (blit_outside (Nat.not_lt_zero _)).symm)
  | succ n ih =>
      obtain ⟨hfirst, hrest⟩ := hfree.next
      have ha := hfree.bound
      have hnexta : (a + 1).toNat = a.toNat + 1 := toNat_add_one (by omega)
      have hnextb : (b + 1).toNat = b.toNat + 1 := toNat_add_one (by omega)
      have happ' : Apart (a + 1) n (b + 1) n := by
        rw [Apart] at happ ⊢
        omega
      have hstore := storeVirt_run h hpage hcr3 (a := a) (by omega) (m b)
      have hkept : KernelTables pdir ptable (blit m a 1 (fun _ => m b)) :=
        h.keep hfirst (fun x hx => blit_outside hx)
      have hcopy := ih hkept hrest (by omega) happ'
      -- the rest of the source is not in the byte just written
      have hsrc : blit (blit m a 1 (fun _ => m b)) (a + 1) n
            (fun j => blit m a 1 (fun _ => m b) (b + 1 + BitVec.ofNat 32 j))
          = blit m a (1 + n) (fun j => m (b + BitVec.ofNat 32 j)) := by
        have hjoin : blit (blit m a 1 fun j => m (b + BitVec.ofNat 32 j)) (a + 1) n
              (fun j => m (b + BitVec.ofNat 32 (1 + j)))
            = blit m a (1 + n) (fun j => m (b + BitVec.ofNat 32 j)) :=
          blit_append (n := 1) (k := n) (by rw [PHY_MEM] at ha; omega)
        have hhead : blit m a 1 (fun j => m (b + BitVec.ofNat 32 j)) = blit m a 1 (fun _ => m b) :=
          blit_congr (fun j hj => by
            obtain rfl : j = 0 := by omega
            exact congrArg m (BitVec.add_zero b))
        rw [← hjoin, hhead]
        refine blit_congr (fun j hj => ?_)
        have hplace : b + 1 + BitVec.ofNat 32 j = b + BitVec.ofNat 32 (1 + j) := add_ofNat_add b 1 j
        rw [hplace]
        refine blit_outside (Apart.not_within (k := n + 1) ?_ ?_ ?_ (within_add (by omega) ?_))
        · rw [Apart] at happ ⊢
          omega
        · rw [PHY_MEM] at ha
          omega
        · rw [PHY_MEM] at hb
          omega
        · rw [PHY_MEM] at hb
          omega
      rw [memcpyVirt, loadVirt_run h hpage hcr3 (by omega)]
      show (storeVirt cr3 m (pa_to_va a) (m b) >>= fun m => memcpyVirt cr3 n (pa_to_va a + 1) _ m) = _
      rw [hstore]
      show memcpyVirt cr3 n (pa_to_va a + 1) (pa_to_va b + 1) _ = _
      rw [pa_to_va_add, pa_to_va_add, hcopy, hsrc, Nat.add_comm]

end Virtual

section InitMm

variable {kpdir kptable updir : Addr} {m : Mem} {cr3 : BitVec 32}

/-- `init_mm` takes over the upper part of the kernel's directory. -/
theorem initMm_run (hl : Layout kpdir kptable updir)
    (h : KernelTables (va_to_pa kpdir) (va_to_pa kptable) m)
    (hcr3 : page_frame cr3 = va_to_pa kpdir) (cr0 : BitVec 32) :
    ∃ m', initMm kpdir updir { mem := m, cr0 := cr0, cr3 := cr3 } = some (m', va_to_pa updir) ∧
      KernelTables (va_to_pa kpdir) (va_to_pa kptable) m' ∧
      Leads m' (va_to_pa kptable) (va_to_pa updir) userSlot := by
  have hpend : (va_to_pa kpdir).toNat + 4096 ≤ 134217728 := hl.kpdir_end
  have htend : (va_to_pa kptable).toNat + 4 * 2 ^ 15 ≤ 134217728 := hl.kptable_end
  have huend : (va_to_pa updir).toNat + 4096 ≤ 134217728 := hl.updir_end
  have hudir : Apart (va_to_pa updir) 4096 (va_to_pa kpdir) 4096 := hl.updir_kpdir
  have hutable : Apart (va_to_pa updir) 4096 (va_to_pa kptable) (4 * 2 ^ 15) := hl.updir_kptable
  have hfree : Free (va_to_pa kpdir) (va_to_pa kptable) (va_to_pa updir) 4096 :=
    ⟨huend, fun x hx => hudir.not_within (by omega) (by omega) hx,
      fun x hx => hutable.not_within (by omega) (by omega) hx⟩
  -- the upper part of both directories
  have hua : (va_to_pa updir + BitVec.ofNat 32 (4 * 768)).toNat = (va_to_pa updir).toNat + 4 * 768 :=
    toNat_add_ofNat (by rw [PHY_MEM]; omega)
  have hpa : (va_to_pa kpdir + BitVec.ofNat 32 (4 * 768)).toNat = (va_to_pa kpdir).toNat + 4 * 768 :=
    toNat_add_ofNat (by rw [PHY_MEM]; omega)
  have hupper := hfree.part (j := 4 * 768) (k := 4 * 32) (by decide)
  have happ : Apart (va_to_pa updir + BitVec.ofNat 32 (4 * 768)) (4 * 32)
      (va_to_pa kpdir + BitVec.ofNat 32 (4 * 768)) (4 * 32) := by
    rw [Apart] at hudir ⊢
    omega
  -- memory behind the `memset` and behind the `memcpy`
  let m₁ : Mem := blit m (va_to_pa updir) 4096 (fun _ => 0)
  let m₂ : Mem := blit m₁ (va_to_pa updir + BitVec.ofNat 32 (4 * 768)) (4 * 32)
    (fun j => m₁ (va_to_pa kpdir + BitVec.ofNat 32 (4 * 768) + BitVec.ofNat 32 j))
  have hclear := memsetVirt_run (c := 0) h hl.kptable_page hcr3 hfree
  have hcleared : KernelTables (va_to_pa kpdir) (va_to_pa kptable) m₁ :=
    h.keep hfree (fun x hx => blit_outside hx)
  have hcopy := memcpyVirt_run hcleared hl.kptable_page hcr3 hupper
    (by rw [hpa, PHY_MEM]; omega) happ
  refine ⟨m₂, ?_, hcleared.keep hupper (fun x hx => blit_outside hx), fun d hd => ?_⟩
  · rw [← pa_to_va_add, ← pa_to_va_add, va_to_pa_to_va, va_to_pa_to_va] at hcopy
    rw [va_to_pa_to_va] at hclear
    have hwords : NR_PDE * 4 = 4096 := by decide
    have hbytes : PHY_MEM / PT_SIZE * 4 = 4 * 32 := by decide
    have hoffset : KOFFSET / PT_SIZE = 768 := by decide
    have hucr3 : va_to_pa updir &&& frameMask = va_to_pa updir := page_frame_aligned hl.updir_page
    rw [initMm, hwords, hbytes, hoffset, hclear, hucr3]
    show (memcpyVirt _ _ _ _ _ >>= _) = _
    rw [hcopy]
    rfl
  · have hentry : m₂.entry (va_to_pa updir) d
        = if 768 ≤ d ∧ d < 768 + 32 then m₁.entry (va_to_pa kpdir) d else m₁.entry (va_to_pa updir) d :=
      entry_copy m₁ _ (by omega) (by decide)
    rw [hentry, userSlot]
    by_cases hhigh : 768 ≤ d ∧ d < 800
    · rw [if_pos hhigh, if_pos (by omega), hcleared.dir d hd, kernelSlot, if_neg (by omega),
        if_pos hhigh]
    · rw [if_neg hhigh, if_neg (by omega), Option.map_none, Option.getD_none]
      exact entry_memset_zero m (va_to_pa updir) hd

/-- The slots of the user's directory, address by address. -/
theorem userSlot_map (v : Addr) : ((userSlot (v.toNat / 2 ^ 22)).map fun q =>
    ({ pa := BitVec.ofNat 32 (2 ^ 22 * q + v.toNat % 2 ^ 22), writable := true } : Translation))
      = if KOFFSET ≤ v.toNat ∧ v.toNat < KOFFSET + PHY_MEM then kernelMapping v else none := by
  rw [← kernelSlot_map, userSlot, kernelSlot, KOFFSET, PHY_MEM]
  by_cases hhigh : 768 ≤ v.toNat / 2 ^ 22 ∧ v.toNat / 2 ^ 22 < 800
  · have hlow : ¬ v.toNat / 2 ^ 22 < 32 := by omega
    rw [if_pos hhigh, if_neg hlow, if_pos (by omega)]
  · rw [if_neg hhigh, if_neg (by omega), Option.map_none]

end InitMm

/-- `init_page` maps the physical memory at 0 and again at KOFFSET, and nothing else; as long
    as its tables are as they were, `init_mm` maps what the kernel has above KOFFSET, and
    nothing else. -/
theorem pageTables_right (kpdir kptable updir : Addr) (hl : Layout kpdir kptable updir)
    (s : Machine32) :
    ∃ s₁, initPage kpdir kptable s = .ok s₁ ∧ s₁.cr3 = va_to_pa kpdir ∧
      s₁.cr0 = s.cr0 ||| pagingBit ∧ (∀ v, walk s₁.mem (va_to_pa kpdir) v = kernelMapping v) ∧
      ∀ m : Mem, (∀ x, Within (va_to_pa kpdir) (4 * NR_PDE) x ∨
          Within (va_to_pa kptable) (4 * (PHY_MEM / PAGE_SIZE)) x → m x = s₁.mem x) →
        ∃ m₂ ucr3, initMm kpdir updir { s₁ with mem := m } = some (m₂, ucr3) ∧
          (∀ v, walk m₂ (va_to_pa kpdir) v = kernelMapping v) ∧
          ∀ v, walk m₂ (page_frame ucr3) v
            = if KOFFSET ≤ v.toNat ∧ v.toNat < KOFFSET + PHY_MEM then
                walk m₂ (va_to_pa kpdir) v else none := by
  obtain ⟨s₁, hrun, hcr3, hcr0, htables⟩ := initPage_run hl s
  refine ⟨s₁, hrun, hcr3, hcr0, htables.walk hl.kptable_page, fun m hsame => ?_⟩
  have hkept : KernelTables (va_to_pa kpdir) (va_to_pa kptable) m := by
    refine ⟨fun d hd => ?_, fun i hi => ?_⟩
    · rw [← htables.dir d hd]
      exact loadWord_congr (fun j hj => hsame _ (.inl (within_entry (by rw [NR_PDE]; omega) (by decide) hj)))
    · have hptes : PHY_MEM / PAGE_SIZE = 2 ^ 15 := by decide
      rw [← htables.frames i hi]
      exact loadWord_congr (fun j hj => hsame _ (.inr (within_entry (by omega) (by decide) hj)))
  have hpdir : page_frame s₁.cr3 = va_to_pa kpdir := by
    rw [hcr3]
    exact page_frame_aligned hl.kpdir_page
  obtain ⟨m₂, hmm, hkernel, huser⟩ := initMm_run hl hkept hpdir s₁.cr0
  refine ⟨m₂, va_to_pa updir, hmm, hkernel.walk hl.kptable_page, fun v => ?_⟩
  rw [page_frame_aligned hl.updir_page, hkernel.walk hl.kptable_page,
    walk_leads huser hkernel.frames hl.kptable_page (fun _ _ => userSlot_lt), userSlot_map]

/-- Three arrays of a kernel linked at 0xc0100000, in memory that is all zeros. -/
theorem pageTables_right_linked :
    ∃ s₁, initPage 0xc0101000 0xc0102000 { mem := fun _ => 0, cr0 := 0, cr3 := 0 } = .ok s₁ ∧
      (∀ v, walk s₁.mem (va_to_pa 0xc0101000) v = kernelMapping v) ∧
      ∃ m₂ ucr3, initMm 0xc0101000 0xc0122000 s₁ = some (m₂, ucr3) ∧
        ∀ v, walk m₂ (page_frame ucr3) v
          = if KOFFSET ≤ v.toNat ∧ v.toNat < KOFFSET + PHY_MEM then kernelMapping v else none := by
  have hl : Layout 0xc0101000 0xc0102000 0xc0122000 := by
    constructor <;> decide
  obtain ⟨s₁, hrun, -, -, hwalk, hmm⟩ :=
    pageTables_right _ _ _ hl { mem := fun _ => 0, cr0 := 0, cr3 := 0 }
  obtain ⟨m₂, ucr3, hinit, hkernel, huser⟩ := hmm s₁.mem fun _ _ => rfl
  refine ⟨s₁, hrun, hwalk, m₂, ucr3, hinit, fun v => ?_⟩
  rw [huser, hkernel]

end Nemu.Kernel
