/-
  Nemu.Kernel.Loader

  `kernel/src/elf/elf.c` without `HAS_DEVICE` and `IA32_PAGE`: `loader` reads the first
  4096 bytes of the ramdisk into a buffer of its own and loads the segments that the program
  headers there describe.  `buf` is the address of that buffer; `i` is an `int`.

  `Reached` are the states of the loop and `Issued` the calls of `ramdisk_read`, for every
  content of the headers.
-/

import Nemu.Kernel.Ramdisk

namespace Nemu.Kernel

open Outcome Region Mem

/-! ## `elf.h` -/

def PT_LOAD : BitVec 32 := 1

/-- The members of `Elf32_Phdr` that are read. -/
structure Elf32_Phdr where
  p_type : BitVec 32
  p_offset : BitVec 32
  p_vaddr : Addr
  p_filesz : BitVec 32
  p_memsz : BitVec 32
deriving DecidableEq, Repr

-- `sizeof(Elf32_Phdr)`
def sizeofPhdr : Nat := 32

namespace Mem

def phdr (m : Mem) (ph : Addr) : Elf32_Phdr :=
  { p_type := m.loadWord ph
    p_offset := m.loadWord (ph + 4)
    p_vaddr := m.loadWord (ph + 8)
    p_filesz := m.loadWord (ph + 16)
    p_memsz := m.loadWord (ph + 20) }

-- the members of the `Elf32_Ehdr` at `elf` that are read
def e_entry (m : Mem) (elf : Addr) : BitVec 32 := m.loadWord (elf + 24)

def e_phoff (m : Mem) (elf : Addr) : BitVec 32 := m.loadWord (elf + 28)

def e_phnum (m : Mem) (elf : Addr) : Nat := m.loadLe (elf + 44) 2

end Mem

/-! ## `elf.c` -/

def ELF_OFFSET_IN_DISK : BitVec 32 := 0

-- `sizeof(buf)`
def BUF_SIZE : Nat := 4096

def elf_magic : BitVec 32 := 0x464c457f

/-- The variables of the loop. -/
structure LoadState where
  mem : Mem
  ph : Addr
  i : Nat

/-- The body of the loop: `ph` only moves on behind a segment that is loaded. -/
def loadStep (s : LoadState) : Except Abort LoadState :=
  let ph := s.mem.phdr s.ph
  if ph.p_type = PT_LOAD then do
    let pa := ph.p_vaddr
    let mem ← ramdiskRead s.mem pa ph.p_offset ph.p_filesz
    let ph := mem.phdr s.ph
    let mem := mem.memset (pa + ph.p_filesz) 0 (ph.p_memsz - ph.p_filesz)
    return { mem := mem, ph := s.ph + BitVec.ofNat 32 sizeofPhdr, i := s.i + 1 }
  else return { s with i := s.i + 1 }

/-- The loop, for at most the given number of headers. -/
def loadLoop (buf : Addr) : Nat → LoadState → Except Abort LoadState
  | 0, _ => .error .outOfFuel
  | fuel + 1, s =>
      if s.i < s.mem.e_phnum buf then do
        let s ← loadStep s
        loadLoop buf fuel s
      else return s

-- what comes before the loop
def loadHeader (buf : Addr) (m : Mem) : Except Abort LoadState := do
  let m ← ramdiskRead m buf ELF_OFFSET_IN_DISK (BitVec.ofNat 32 BUF_SIZE)
  cAssert (m.loadWord buf == elf_magic)
  return { mem := m, ph := buf + m.e_phoff buf, i := 0 }

/-- `loader`; `e_phnum` is a 16-bit number. -/
def loader (buf : Addr) (m : Mem) : Except Abort (Addr × Mem) := do
  let s ← loadHeader buf m
  let s ← loadLoop buf (2 ^ 16) s
  return (s.mem.e_entry buf, s.mem)

/-! ## The states of the loop -/

section Runs

variable {buf : Addr} {m : Mem} {s s' : LoadState}

/-- The states at the head of the loop. -/
inductive Reached (buf : Addr) (m : Mem) : LoadState → Prop
  | enter {s : LoadState} (h : loadHeader buf m = .ok s) : Reached buf m s
  | next {s s' : LoadState} (h : Reached buf m s) (hmore : s.i < s.mem.e_phnum buf)
      (hstep : loadStep s = .ok s') : Reached buf m s'

/-- The calls `ramdisk_read(buf, offset, len)` of the loader, with the memory they find. -/
inductive Issued (buf : Addr) (m : Mem) : Mem → Addr → BitVec 32 → BitVec 32 → Prop
  | header : Issued buf m m buf ELF_OFFSET_IN_DISK (BitVec.ofNat 32 BUF_SIZE)
  | segment {s : LoadState} (h : Reached buf m s) (hmore : s.i < s.mem.e_phnum buf)
      (hload : (s.mem.phdr s.ph).p_type = PT_LOAD) :
      Issued buf m s.mem (s.mem.phdr s.ph).p_vaddr (s.mem.phdr s.ph).p_offset
        (s.mem.phdr s.ph).p_filesz

theorem e_phnum_lt (m : Mem) (elf : Addr) : m.e_phnum elf < 2 ^ 16 := by
  rw [e_phnum, loadLe]
  exact ByteSeq.leNat_lt _ 2

-- a header that is skipped
theorem loadStep_other (h : (s.mem.phdr s.ph).p_type ≠ PT_LOAD) :
    loadStep s = .ok { s with i := s.i + 1 } := if_neg h

-- a segment that is loaded
theorem loadStep_load {mem : Mem} (h : (s.mem.phdr s.ph).p_type = PT_LOAD)
    (hread : ramdiskRead s.mem (s.mem.phdr s.ph).p_vaddr (s.mem.phdr s.ph).p_offset
      (s.mem.phdr s.ph).p_filesz = .ok mem) :
    loadStep s = .ok
      { mem := mem.memset ((s.mem.phdr s.ph).p_vaddr + (mem.phdr s.ph).p_filesz) 0
          ((mem.phdr s.ph).p_memsz - (mem.phdr s.ph).p_filesz)
        ph := s.ph + BitVec.ofNat 32 sizeofPhdr
        i := s.i + 1 } :=
  (if_pos h).trans (bind_eq_ok.mpr ⟨mem, hread, rfl⟩)

-- a segment that the ramdisk refuses
theorem loadStep_refused (h : (s.mem.phdr s.ph).p_type = PT_LOAD)
    (hfits : ¬ ((s.mem.phdr s.ph).p_offset + (s.mem.phdr s.ph).p_filesz).toNat < RAMDISK_SIZE) :
    loadStep s = .error .assertion := by
  refine (if_pos h).trans ?_
  show (ramdiskRead s.mem (s.mem.phdr s.ph).p_vaddr _ _ >>= _) = _
  rw [ramdiskRead_refused hfits, error_bind]

/-- A step that goes wrong is a read that is refused. -/
theorem loadStep_total (s : LoadState) :
    (∃ s', loadStep s = .ok s' ∧ s'.i = s.i + 1) ∨ loadStep s = .error .assertion := by
  by_cases hload : (s.mem.phdr s.ph).p_type = PT_LOAD
  · by_cases hfits : ((s.mem.phdr s.ph).p_offset + (s.mem.phdr s.ph).p_filesz).toNat < RAMDISK_SIZE
    · obtain ⟨mem, hread⟩ := (ramdiskRead_accepts s.mem (s.mem.phdr s.ph).p_vaddr _ _).mpr hfits
      exact .inl ⟨_, loadStep_load hload hread, rfl⟩
    · exact .inr (loadStep_refused hload hfits)
  · exact .inl ⟨_, loadStep_other hload, rfl⟩

/-- The loop ends in the state reached in which no header is left. -/
theorem loadLoop_reached {fuel : Nat} (hs : Reached buf m s) (h : loadLoop buf fuel s = .ok s') :
    Reached buf m s' ∧ s'.mem.e_phnum buf ≤ s'.i := by
  induction fuel generalizing s with
  | zero => exact nomatch h
  | succ fuel ih =>
      rw [loadLoop] at h
      by_cases hmore : s.i < s.mem.e_phnum buf
      · rw [if_pos hmore] at h
        obtain ⟨s₁, hstep, h⟩ := bind_eq_ok.mp h
        exact ih (.next hs hmore hstep) h
      · rw [if_neg hmore] at h
        obtain rfl := pure_eq_ok.mp h
        exact ⟨hs, Nat.le_of_not_lt hmore⟩

/-- The loop returns or fails an assertion; the bound given to it is enough. -/
theorem loadLoop_total {fuel : Nat} (hi : s.i < 2 ^ 16) (hfuel : 2 ^ 16 ≤ s.i + fuel) :
    (∃ s', loadLoop buf fuel s = .ok s') ∨ loadLoop buf fuel s = .error .assertion := by
  induction fuel generalizing s with
  | zero => omega
  | succ fuel ih =>
      rw [loadLoop]
      by_cases hmore : s.i < s.mem.e_phnum buf
      · have hphnum := e_phnum_lt s.mem buf
        rw [if_pos hmore]
        rcases loadStep_total s with ⟨s₁, hstep, hi₁⟩ | hstep
        · rw [hstep, ok_bind]
          exact ih (by omega) (by omega)
        · exact .inr (by rw [hstep, error_bind])
      · exact .inl ⟨s, if_neg hmore⟩

/-- `loader` returns the memory of a state of the loop with no header left, or fails an
    assertion. -/
theorem loader_total (buf : Addr) (m : Mem) :
    (∃ s, Reached buf m s ∧ s.mem.e_phnum buf ≤ s.i ∧
      loader buf m = .ok (s.mem.e_entry buf, s.mem)) ∨ loader buf m = .error .assertion := by
  have hhead : (∃ s, loadHeader buf m = .ok s ∧ s.i = 0) ∨ loadHeader buf m = .error .assertion := by
    obtain ⟨m₁, hread⟩ := (ramdiskRead_accepts m buf ELF_OFFSET_IN_DISK (BitVec.ofNat 32 BUF_SIZE)).mpr
      (by decide)
    rw [loadHeader, hread, ok_bind]
    cases m₁.loadWord buf == elf_magic with
    | true => exact .inl ⟨_, rfl, rfl⟩
    | false => exact .inr rfl
  rcases hhead with ⟨s, hs, hi⟩ | hfail
  · rw [loader, hs, ok_bind]
    have htotal : (∃ s', loadLoop buf (2 ^ 16) s = .ok s') ∨
        loadLoop buf (2 ^ 16) s = .error .assertion := loadLoop_total (by omega) (by omega)
    rcases htotal with ⟨s', hloop⟩ | hfail
    · obtain ⟨hreached, hend⟩ := loadLoop_reached (.enter hs) hloop
      exact .inl ⟨s', hreached, hend, by rw [hloop]; rfl⟩
    · exact .inr (by rw [hfail, error_bind])
  · exact .inr (by rw [loader, hfail, error_bind])

end Runs

/-! ## The buffer -/

section Header

variable {buf : Addr} {m : Mem}

-- memory with the first bytes of the ramdisk in the buffer
def withHeader (buf : Addr) (m : Mem) : Mem :=
  m.memcpy buf (RAMDISK_START + ELF_OFFSET_IN_DISK) (BitVec.ofNat 32 BUF_SIZE)

/-- The buffer of `mem` holds the first bytes of the ramdisk of `m`. -/
def HoldsHeader (buf : Addr) (m mem : Mem) : Prop :=
  ∀ k, k < BUF_SIZE → mem (buf + BitVec.ofNat 32 k) = m (BitVec.ofNat 32 k)

theorem withHeader_holds (buf : Addr) (m : Mem) : HoldsHeader buf m (withHeader buf m) := by
  intro k hk
  have hstart : RAMDISK_START + ELF_OFFSET_IN_DISK + BitVec.ofNat 32 k = BitVec.ofNat 32 k :=
    BitVec.zero_add _
  have hsize : (BitVec.ofNat 32 BUF_SIZE).toNat = BUF_SIZE := rfl
  have hlt : BUF_SIZE < 2 ^ 32 := by decide
  rw [withHeader, memcpy, hsize, blit_add hk (by omega), hstart]

variable {mem : Mem} {k n : Nat}

theorem HoldsHeader.loadLe (h : HoldsHeader buf m mem) (hk : k + n ≤ BUF_SIZE) :
    mem.loadLe (buf + BitVec.ofNat 32 k) n = m.loadLe (BitVec.ofNat 32 k) n := by
  refine ByteSeq.leNat_congr (fun i hi => ?_)
  rw [add_ofNat_add, ← BitVec.ofNat_add]
  exact h (k + i) (by omega)

theorem HoldsHeader.loadWord (h : HoldsHeader buf m mem) (hk : k + 4 ≤ BUF_SIZE) :
    mem.loadWord (buf + BitVec.ofNat 32 k) = m.loadWord (BitVec.ofNat 32 k) :=
  congrArg (BitVec.ofNat 32) (h.loadLe hk)

theorem HoldsHeader.e_phnum (h : HoldsHeader buf m mem) : mem.e_phnum buf = m.e_phnum 0 :=
  h.loadLe (k := 44) (by decide)

theorem HoldsHeader.e_phoff (h : HoldsHeader buf m mem) : mem.e_phoff buf = m.e_phoff 0 :=
  h.loadWord (k := 28) (by decide)

/-- A program header in the buffer is the one in the ramdisk. -/
theorem HoldsHeader.phdr (h : HoldsHeader buf m mem) (hk : k + sizeofPhdr ≤ BUF_SIZE) :
    mem.phdr (buf + BitVec.ofNat 32 k) = m.phdr (BitVec.ofNat 32 k) := by
  have hword : ∀ d, d + 4 ≤ sizeofPhdr →
      mem.loadWord (buf + BitVec.ofNat 32 k + BitVec.ofNat 32 d)
        = m.loadWord (BitVec.ofNat 32 k + BitVec.ofNat 32 d) := by
    intro d hd
    rw [add_ofNat_add, ← BitVec.ofNat_add]
    exact h.loadWord (by omega)
  have hfirst := hword 0 (by decide)
  rw [BitVec.add_zero, BitVec.add_zero] at hfirst
  rw [Mem.phdr, Mem.phdr, Elf32_Phdr.mk.injEq]
  exact ⟨hfirst, hword 4 (by decide), hword 8 (by decide), hword 16 (by decide), hword 20 (by decide)⟩

theorem loadHeader_run (hmagic : m.loadWord 0 = elf_magic) :
    loadHeader buf m = .ok { mem := withHeader buf m, ph := buf + m.e_phoff 0, i := 0 } := by
  have hbuf := withHeader_holds buf m
  have hread : ramdiskRead m buf ELF_OFFSET_IN_DISK (BitVec.ofNat 32 BUF_SIZE)
      = .ok (withHeader buf m) := ramdiskRead_eq_ok.mpr ⟨by decide, rfl⟩
  have hword : (withHeader buf m).loadWord buf = m.loadWord 0 := by
    have h := hbuf.loadWord (k := 0) (by decide)
    rw [BitVec.add_zero] at h
    exact h
  rw [loadHeader, hread, ok_bind, hword, hmagic, hbuf.e_phoff]
  rfl

end Header

/-! ## The reads of the loader -/

/-- A call is accepted exactly if all its bytes are bytes of the ramdisk, and then copies only
    these. -/
structure Guarded (accepted : Prop) (offset len : BitVec 32) : Prop where
  exact_ : accepted ↔ InRamdisk offset len
  inside : accepted → ∀ j, j < len.toNat →
    (RAMDISK_START + offset + BitVec.ofNat 32 j).toNat < RAMDISK_SIZE

section Bounds

variable {accepted : Prop} {offset len : BitVec 32}

theorem guarded_iff (h : accepted ↔ (offset + len).toNat < RAMDISK_SIZE) :
    Guarded accepted offset len ↔ OffTheEdges offset len := by
  rw [← check_iff_inRamdisk]
  apply Iff.intro
  · exact fun hg => h.symm.trans hg.exact_
  · intro hcheck
    refine ⟨h.trans hcheck, fun hacc j hj => ?_⟩
    have hin : InRamdisk offset len := hcheck.mp (h.mp hacc)
    rw [ramdisk_address hin hj]
    exact Nat.lt_of_lt_of_le (Nat.add_lt_add_left hj _) hin

end Bounds

/-- For every content of the headers: the reads the loader issues stay in the ramdisk exactly
    if none of them ends at its last byte or wraps; and so do writes. -/
theorem ramdisk_guarded_iff (buf : Addr) (m : Mem) :
    ((∀ mem dst offset len, Issued buf m mem dst offset len →
        Guarded (∃ mem', ramdiskRead mem dst offset len = .ok mem') offset len) ↔
      ∀ mem dst offset len, Issued buf m mem dst offset len → OffTheEdges offset len) ∧
    ∀ mem src offset len,
      Guarded (∃ mem', ramdiskWrite mem src offset len = .ok mem') offset len ↔
        OffTheEdges offset len := by
  have hread := fun mem dst offset len => guarded_iff (ramdiskRead_accepts mem dst offset len)
  refine ⟨⟨?_, ?_⟩, fun mem src offset len => guarded_iff (ramdiskWrite_accepts mem src offset len)⟩
  · exact fun hall mem dst offset len hissued =>
      (hread mem dst offset len).mp (hall mem dst offset len hissued)
  · exact fun hall mem dst offset len hissued =>
      (hread mem dst offset len).mpr (hall mem dst offset len hissued)

-- little-endian bytes of a word
def wordBytes (v : BitVec 32) : List Byte := (List.range 4).map (ByteSeq.leByte v.toNat)

/-- A ramdisk that begins with an ELF header and the program headers `phs`, in a memory that
    is zero elsewhere. -/
def imageOf (phs : List Elf32_Phdr) : Mem := fun x =>
  let ehdr := wordBytes elf_magic ++ List.replicate 24 0 ++ wordBytes 52 ++ List.replicate 12 0 ++
    [BitVec.ofNat 8 phs.length, 0] ++ List.replicate 6 0
  let table := phs.flatMap fun ph => wordBytes ph.p_type ++ wordBytes ph.p_offset ++
    wordBytes ph.p_vaddr ++ List.replicate 4 0 ++ wordBytes ph.p_filesz ++
    wordBytes ph.p_memsz ++ List.replicate 8 0
  (ehdr ++ table).getD x.toNat 0

/-- A segment of 32 bytes from offset 0xfffffff0 on is read from outside the ramdisk. -/
theorem ramdisk_read_wraps :
    ¬ ∀ (buf : Addr) (m mem : Mem) (dst : Addr) (offset len : BitVec 32),
      Issued buf m mem dst offset len →
      Guarded (∃ mem', ramdiskRead mem dst offset len = .ok mem') offset len := by
  intro h
  let m := imageOf [⟨PT_LOAD, 0xfffffff0, 0x200000, 0x20, 0x20⟩]
  have hhead : loadHeader 0x100000 m = _ := loadHeader_run (by decide)
  have hissued := Issued.segment (.enter hhead) (by decide) (by decide)
  have hg := h _ _ _ _ _ _ hissued
  exact absurd (hg.exact_.mp ((ramdiskRead_accepts ..).mpr (by decide))) (by decide)

end Nemu.Kernel
