/-
  Nemu.Kernel.DiskTransfer

  Driver and emulated disk together are a disk of 512-byte sectors: every
  `disk_do_read` returns what was written last, every `disk_do_write` changes its
  sector and nothing else, the drive is ready on the first poll, and no assertion
  of the device model fails.

  `Ready` is the state between two commands, `Streaming` the one inside the loop
  over the 128 words of a command.
-/

import Nemu.Device.I8259Priority
import Nemu.Kernel.DiskDriver
import Nemu.Lib.DetSystem
import Mathlib.Tactic.IntervalCases

namespace Nemu.Kernel.Driver

open ByteSeq Outcome DetSystem Devices

/-- What every command relies on: the map, a byte counter in its range, and interrupt
    controllers that a raise brings to no assertion. -/
structure Wired (s : Devices) : Prop where
  maps : s.maps = ideMaps
  byte_cnt : s.byte_cnt ≤ 512
  pic : ∃ P, s.pic.Tracks P

section Ports

variable {stack : Nat → Byte} {s : Devices}

theorem idePort_addr {i : Nat} (hi : i < 8) :
    (IDE_PORT + BitVec.ofNat 16 i).toNat = IDE_PORT.toNat + i := by
  rw [BitVec.toNat_add, BitVec.toNat_ofNat]
  show (0x1f0 + i % 65536) % 65536 = 0x1f0 + i
  omega

theorem idePort_inj {i j : Nat} (hi : i < 8) (hj : j < 8)
    (h : IDE_PORT + BitVec.ofNat 16 i = IDE_PORT + BitVec.ofNat 16 j) : i = j := by
  have hnat := congrArg BitVec.toNat h
  rw [idePort_addr hi, idePort_addr hj] at hnat
  omega

/-- An access to the disk registers reaches their handler. -/
theorem pioCallback_ide (h : s.maps = ideMaps) {i len : Nat} (hi : i + len ≤ 8) (hlen : 0 < len)
    (is_write : Bool) :
    s.pioCallback stack (IDE_PORT + BitVec.ofNat 16 i) len is_write
      = s.ideIoHandler (IDE_PORT + BitVec.ofNat 16 i) len is_write := by
  have haddr := idePort_addr (i := i) (by omega)
  rw [pioCallback, h, ideMaps, pioCallbackFrom, if_pos]
  · rfl
  · refine ⟨?_, ?_⟩
    · rw [BitVec.le_def, haddr]
      exact Nat.le_add_right _ _
    · rw [haddr]
      show 0x1f0 + i + len - 1 ≤ 0x1f7
      omega

theorem pioWrite_ide (h : s.maps = ideMaps) {i len : Nat} (hi : i + len ≤ 8)
    (hlen : len = 1 ∨ len = 4) (data : BitVec 32) :
    s.pioWrite stack (IDE_PORT + BitVec.ofNat 16 i) len data
      = { s with pio_space := patch s.pio_space (IDE_PORT.toNat + i) len (leByte data.toNat) }.ideIoHandler
          (IDE_PORT + BitVec.ofNat 16 i) len true := by
  have haddr := idePort_addr (i := i) (by omega)
  have hsize : (len == 1 || len == 2 || len == 4) = true := by
    rcases hlen with rfl | rfl <;> rfl
  have hspace : decide ((IDE_PORT + BitVec.ofNat 16 i).toNat + len - 1 < PORT_IO_SPACE_MAX) = true := by
    rw [decide_eq_true_eq, haddr]
    show 0x1f0 + i + len - 1 < 65536
    omega
  rw [pioWrite, hsize, hspace, cAssert_true, ok_bind, ok_bind, haddr]
  apply pioCallback_ide
  · exact h
  · exact hi
  · omega

variable (stack) in
theorem pioRead_ide (h : s.maps = ideMaps) {i len : Nat} (hi : i + len ≤ 8)
    (hlen : len = 1 ∨ len = 4) {s' : Devices}
    (hrun : s.ideIoHandler (IDE_PORT + BitVec.ofNat 16 i) len false = .ok s') :
    s.pioRead stack (IDE_PORT + BitVec.ofNat 16 i) len
      = .ok (BitVec.ofNat 32 (load s'.pio_space (IDE_PORT.toNat + i) 4)
          &&& (0xffffffff#32 >>> ((4 - len) <<< 3)), s') := by
  have haddr := idePort_addr (i := i) (by omega)
  have hsize : (len == 1 || len == 2 || len == 4) = true := by
    rcases hlen with rfl | rfl <;> rfl
  have hspace : decide ((IDE_PORT + BitVec.ofNat 16 i).toNat + len - 1 < PORT_IO_SPACE_MAX) = true := by
    rw [decide_eq_true_eq, haddr]
    show 0x1f0 + i + len - 1 < 65536
    omega
  rw [pioRead, hsize, hspace, cAssert_true, ok_bind, ok_bind,
    pioCallback_ide h hi (by omega), hrun, ok_bind, haddr]
  rfl

end Ports

/-! ## The driver's instructions -/

section Instructions

variable {stack : Nat → Byte} {s : Devices}

-- the byte that `pio_write` copies is the one the driver sends
theorem leByte_byte (b : Byte) : leByte (b.setWidth 32).toNat 0 = b := by
  apply BitVec.eq_of_toNat_eq
  have hb := b.isLt
  rw [leByte, BitVec.toNat_ofNat, BitVec.toNat_setWidth, Nat.pow_zero, Nat.div_one]
  omega

theorem outByte_ide (h : s.maps = ideMaps) {i : Nat} (hi : i < 8) (b : Byte) :
    outByte stack s (IDE_PORT + BitVec.ofNat 16 i) b
      = (s.setIdePort i b).ideIoHandler (IDE_PORT + BitVec.ofNat 16 i) 1 true := by
  rw [outByte, pioWrite_ide h (by omega) (.inl rfl)]
  have hspace : patch s.pio_space (IDE_PORT.toNat + i) 1 (leByte (b.setWidth 32).toNat)
      = patch s.pio_space (IDE_PORT.toNat + i) 1 (fun _ => b) := by
    apply patch_congr
    intro j hj
    obtain rfl : j = 0 := by omega
    exact leByte_byte b
  rw [hspace]
  rfl

/-- A byte sent to one of the registers before the last is stored there. -/
theorem outByte_register (h : Wired s) {i : Nat} (hi : i < 7) (b : Byte) :
    outByte stack s (IDE_PORT + BitVec.ofNat 16 i) b = .ok (s.setIdePort i b) := by
  have hcnt : decide ((s.setIdePort i b).byte_cnt ≤ 512) = true := decide_eq_true h.byte_cnt
  have hne : ¬ IDE_PORT + BitVec.ofNat 16 i = IDE_PORT + 7 := fun heq => by
    have := idePort_inj (j := 7) (by omega) (by omega) heq
    omega
  rw [outByte_ide h.maps (by omega), ideIoHandler, hcnt, cAssert_true, ok_bind, if_pos rfl,
    if_neg (by simp), if_neg hne]
  rfl

/-- A byte sent to the last register is a command. -/
theorem outByte_command (h : Wired s) (b : Byte) :
    outByte stack s (IDE_PORT_BASE + 7) b = (s.setIdePort 7 b).command := by
  have hcnt : decide ((s.setIdePort 7 b).byte_cnt ≤ 512) = true := decide_eq_true h.byte_cnt
  show outByte stack s (IDE_PORT + BitVec.ofNat 16 7) b = _
  rw [outByte_ide h.maps (by omega), ideIoHandler, hcnt, cAssert_true, ok_bind, if_pos rfl,
    if_neg (by simp)]
  exact if_pos rfl

-- the word at a port, before the mask of `pio_read`
theorem load_word (m : Nat → Byte) (a : Nat) :
    (BitVec.ofNat 32 (load m a 4)).toNat = load m a 4 := by
  rw [BitVec.toNat_ofNat]
  exact Nat.mod_eq_of_lt (load_lt m a 4)

-- the part of a 32-bit read that a byte-wide access keeps
theorem readData_byte (m : Nat → Byte) (a : Nat) :
    (BitVec.ofNat 32 (load m a 4) &&& (0xffffffff#32 >>> ((4 - 1) <<< 3))).setWidth 8 = m a := by
  have hlow : load m a 4 % 256 ^ 1 = load m a 1 := leNat_mod _ (by omega)
  have hone : load m a 1 = (m a).toNat := Nat.add_zero _
  apply BitVec.eq_of_toNat_eq
  rw [BitVec.toNat_setWidth, BitVec.toNat_and, load_word]
  show (load m a 4 &&& 2 ^ 8 - 1) % 2 ^ 8 = _
  rw [Nat.and_two_pow_sub_one_eq_mod]
  omega

theorem readData_long (m : Nat → Byte) (a : Nat) {j : Nat} (hj : j < 4) :
    leByte (BitVec.ofNat 32 (load m a 4) &&& (0xffffffff#32 >>> ((4 - 4) <<< 3))).toNat j
      = m (a + j) := by
  have hmask : 0xffffffff#32 >>> ((4 - 4) <<< 3) = BitVec.allOnes 32 := rfl
  rw [hmask, BitVec.and_allOnes, load_word]
  exact leByte_leNat hj

/-- The status register is read as it is. -/
theorem inByte_status (h : Wired s) : inByte stack s (IDE_PORT_BASE + 7) = .ok (s.idePort 7, s) := by
  have hcnt : decide (s.byte_cnt ≤ 512) = true := decide_eq_true h.byte_cnt
  have hrun : s.ideIoHandler (IDE_PORT + BitVec.ofNat 16 7) 1 false = .ok s := by
    rw [ideIoHandler, hcnt, cAssert_true, ok_bind, if_neg (by simp), if_neg (by simp)]
    rfl
  have hread := pioRead_ide stack h.maps (by omega) (.inl rfl) hrun
  rw [inByte, show IDE_PORT_BASE + 7 = IDE_PORT + BitVec.ofNat 16 7 from rfl, hread, ok_bind]
  dsimp only
  rw [readData_byte]
  rfl

variable (stack) in
/-- A word read from the data register is the next one of the disk. -/
theorem inLong_data (h : Wired s) {s' : Devices} (hrun : s.readData = .ok s') :
    ∃ v, inLong stack s IDE_PORT_BASE = .ok (v, s') ∧
      ∀ j < 4, leByte v.toNat j = s'.idePort j := by
  have hcnt : decide (s.byte_cnt ≤ 512) = true := decide_eq_true h.byte_cnt
  have hrun' : s.ideIoHandler (IDE_PORT + BitVec.ofNat 16 0) 4 false = .ok s' := by
    rw [ideIoHandler, hcnt, cAssert_true, ok_bind, if_neg (by simp), if_pos ⟨rfl, rfl⟩]
    exact hrun
  refine ⟨_, pioRead_ide stack h.maps (by omega) (.inr rfl) hrun', ?_⟩
  intro j hj
  exact readData_long _ _ hj

variable (stack) in
/-- A word sent to the data register goes to the disk. -/
theorem outLong_data (h : Wired s) (data : BitVec 32) :
    outLong stack s IDE_PORT_BASE data
      = { s with pio_space := patch s.pio_space IDE_PORT.toNat 4 (leByte data.toNat) }.writeData := by
  have hcnt : decide (s.byte_cnt ≤ 512) = true := decide_eq_true h.byte_cnt
  show s.pioWrite stack (IDE_PORT + BitVec.ofNat 16 0) 4 data = _
  rw [pioWrite_ide h.maps (by omega) (.inr rfl), ideIoHandler]
  dsimp only
  rw [hcnt, cAssert_true, ok_bind, if_pos rfl]
  exact if_pos ⟨rfl, rfl⟩

end Instructions

/-! ## `ide_prepare` -/

section Prepare

variable {stack : Nat → Byte} {s : Devices}

theorem Wired.setIdePort (h : Wired s) (i : Nat) (b : Byte) : Wired (s.setIdePort i b) :=
  ⟨h.maps, h.byte_cnt, h.pic⟩

/-- Wired, and the drive says it is ready. -/
structure Ready (s : Devices) : Prop where
  wired : Wired s
  status : s.idePort 7 = 0x40

/-- A ready drive is found ready on the first poll. -/
theorem waitdisk_ready (h : Ready s) (polls : Nat) : waitdisk stack (polls + 1) s = .ok s := by
  rw [waitdisk, inByte_status h.wired, ok_bind, h.status]
  exact if_neg (by decide)

/-- The registers as `ide_prepare` leaves them. -/
def prepared (s : Devices) (sector : BitVec 32) : Devices :=
  (((((s.setIdePort 1 0).setIdePort 2 1).setIdePort 3 ((sector &&& 0xff).setWidth 8)).setIdePort 4
    ((sector >>> 8 &&& 0xff).setWidth 8)).setIdePort 5
    ((sector >>> 16 &&& 0xff).setWidth 8)).setIdePort 6
    ((0xe0#32 ||| (sector >>> 24 &&& 0xff)).setWidth 8)

theorem idePrepare_ready (h : Ready s) (polls : Nat) (sector : BitVec 32) :
    idePrepare stack (polls + 1) s sector = .ok (prepared s sector) := by
  have hport : ∀ {t : Devices} (n : BitVec 16) (i : Nat) (b : Byte), n = BitVec.ofNat 16 i →
      i < 7 → Wired t → outByte stack t (IDE_PORT_BASE + n) b = .ok (t.setIdePort i b) := by
    rintro t n i b rfl hi ht
    exact outByte_register ht hi b
  have h1 := h.wired.setIdePort 1 0
  have h2 := h1.setIdePort 2 1
  have h3 := h2.setIdePort 3 ((sector &&& 0xff).setWidth 8)
  have h4 := h3.setIdePort 4 ((sector >>> 8 &&& 0xff).setWidth 8)
  have h5 := h4.setIdePort 5 ((sector >>> 16 &&& 0xff).setWidth 8)
  rw [idePrepare, waitdisk_ready h, ok_bind, hport 1 1 0 rfl (by omega) h.wired, ok_bind,
    hport 2 2 1 rfl (by omega) h1, ok_bind, hport 3 3 _ rfl (by omega) h2, ok_bind,
    hport 4 4 _ rfl (by omega) h3, ok_bind, hport 5 5 _ rfl (by omega) h4, ok_bind,
    hport 6 6 _ rfl (by omega) h5]
  rfl

/-- The four registers hold the sector number, `0xE0` and the mask notwithstanding. -/
theorem sector_bits (sector : BitVec 32) (h : sector.toNat < 2 ^ 29) :
    ((0xe0#32 ||| (sector >>> 24 &&& 0xff#32)).setWidth 8 &&& 0x1f#8).setWidth 32 <<< 24
      ||| ((sector >>> 16 &&& 0xff#32).setWidth 8).setWidth 32 <<< 16
      ||| ((sector >>> 8 &&& 0xff#32).setWidth 8).setWidth 32 <<< 8
      ||| ((sector &&& 0xff#32).setWidth 8).setWidth 32 = sector := by
  have hhigh : ∀ i (hi : i < 32), 29 ≤ i → sector[i] = false := by
    intro i hi hle
    rw [← BitVec.getLsbD_eq_getElem]
    apply Nat.testBit_lt_two_pow
    exact Nat.lt_of_lt_of_le h (Nat.pow_le_pow_right (by omega) hle)
  apply BitVec.eq_of_getLsbD_eq
  intro i hi
  interval_cases i <;> simp [hhigh]

theorem portSector_prepared (s : Devices) (sector : BitVec 32) (c : Byte)
    (h : sector.toNat < 2 ^ 29) : ((prepared s sector).setIdePort 7 c).portSector = sector := by
  rw [portSector, prepared]
  simp only [idePort_setIdePort_ne, idePort_setIdePort_same, ne_eq, Nat.reduceEqDiff,
    not_false_eq_true]
  exact sector_bits sector h

end Prepare

/-! ## Inside a command -/

/-- A command for `sector` with `i` of its 128 words transferred, over a disk file of `size`
    bytes that now holds `m`. -/
structure Streaming (s : Devices) (write : Bool) (sector i size : Nat) (m : Nat → Byte) :
    Prop where
  maps : s.maps = ideMaps
  pic : ∃ P, s.pic.Tracks P
  index : i ≤ 128
  byte_cnt : s.byte_cnt = BitVec.ofNat 32 (4 * i)
  direction : s.ide_write = write
  -- only a write keeps the drive busy
  status : s.idePort 7 = if write = true ∧ i < 128 then 0x30 else 0x40
  pos : s.disk_fp.pos = 512 * sector + 4 * i
  size : s.disk_fp.size = size
  bytes : s.disk_fp.bytes = m

section Commands

variable {stack : Nat → Byte} {s : Devices} {write : Bool} {sector i size : Nat} {m : Nat → Byte}

theorem Streaming.wired (h : Streaming s write sector i size m) : Wired s := by
  refine ⟨h.maps, ?_, h.pic⟩
  have hi := h.index
  rw [h.byte_cnt, BitVec.le_def, BitVec.toNat_ofNat]
  show 4 * i % 4294967296 ≤ 512
  omega

/-- After its last word a command leaves the drive ready. -/
theorem Streaming.ready (h : Streaming s write sector 128 size m) : Ready s := by
  refine ⟨h.wired, ?_⟩
  rw [h.status]
  exact if_neg (by omega)

/-- Counting a word that has been moved. -/
theorem Streaming.count (h : Streaming s write sector i size m) (hi : i < 128) {t : Devices}
    {m' : Nat → Byte} (hmaps : t.maps = s.maps) (hpic : t.pic = s.pic)
    (hcnt : t.byte_cnt = s.byte_cnt) (hdir : t.ide_write = s.ide_write)
    (hstatus : t.idePort 7 = s.idePort 7) (hpos : t.disk_fp.pos = 512 * sector + 4 * (i + 1))
    (hsize : t.disk_fp.size = size) (hbytes : t.disk_fp.bytes = m') :
    Streaming t.countTransfer write sector (i + 1) size m' := by
  have hpic' : ∃ P, t.pic.Tracks P := hpic ▸ h.pic
  have hcnt' : t.byte_cnt + 4 = BitVec.ofNat 32 (4 * (i + 1)) := by
    rw [hcnt, h.byte_cnt, Nat.mul_succ, BitVec.ofNat_add]
    rfl
  have hend : t.byte_cnt + 4 = 512 ↔ i + 1 = 128 := by
    rw [hcnt', ← BitVec.toNat_inj, BitVec.toNat_ofNat]
    show 4 * (i + 1) % 4294967296 = 512 ↔ _
    omega
  rw [h.status] at hstatus
  rw [countTransfer]
  by_cases hlast : i + 1 = 128
  · rw [if_pos (hend.mpr hlast)]
    refine ⟨hmaps.trans h.maps, hpic', hi, hcnt', hdir.trans h.direction, ?_, hpos, hsize,
      hbytes⟩
    rw [idePort_setIdePort_same, if_neg (by omega)]
  · rw [if_neg (fun heq => hlast (hend.mp heq))]
    refine ⟨hmaps.trans h.maps, hpic', hi, hcnt', hdir.trans h.direction, ?_, hpos, hsize,
      hbytes⟩
    show t.idePort 7 = _
    rw [hstatus]
    have hlt : i + 1 < 128 := by omega
    simp only [hi, hlt]

/-- The sector as `disk_idx` is its first byte. -/
theorem sector_index {sector : BitVec 32} (h : sector.toNat < 2 ^ 23) :
    (sector <<< 9).toNat = 512 * sector.toNat := by
  rw [BitVec.toNat_shiftLeft, Nat.shiftLeft_eq, Nat.mod_eq_of_lt (by omega), Nat.mul_comm]

/-- The disk raises its line without an assertion. -/
theorem raiseIde_ok (h : ∃ P, s.pic.Tracks P) :
    ∃ p, s.raiseIde = .ok { s with pic := p } ∧ ∃ P, p.Tracks P := by
  obtain ⟨P, hP⟩ := h
  obtain ⟨p, hraise, htracks⟩ := I8259Pair.raise_step hP (n := 14) (by decide)
  refine ⟨p, ?_, _, htracks⟩
  have hraise' : s.pic.raiseIntr IDE_IRQ = .ok p := hraise
  rw [raiseIde, hraise', ok_bind]
  rfl

variable (stack) in
theorem issueRead_spec (h : Ready s) {sector : BitVec 32} (hsector : sector.toNat < 2 ^ 23) :
    ∃ s', issueRead stack (prepared s sector) = .ok s' ∧
      Streaming s' false sector.toNat 0 s.disk_fp.size s.disk_fp.bytes := by
  have hwired : Wired (prepared s sector) := ⟨h.wired.maps, h.wired.byte_cnt, h.wired.pic⟩
  have hport := portSector_prepared s sector 0x20 (by omega)
  rw [issueRead, outByte_command hwired, command_read (idePort_setIdePort_same ..)]
  generalize ht : Devices.setIdePort { seekSector _ with byte_cnt := 0, ide_write := false } 7 0x40
    = t
  have hstatus : t.idePort 7 = 0x40 := by
    subst ht
    exact idePort_setIdePort_same ..
  have hpos : t.disk_fp.pos = 512 * sector.toNat := by
    subst ht
    show (portSector _ <<< 9).toNat = _
    rw [hport, sector_index hsector]
  obtain ⟨p, hraise, htracks⟩ := raiseIde_ok (s := t) (by subst ht; exact h.wired.pic)
  refine ⟨_, hraise, ?_⟩
  subst ht
  exact ⟨h.wired.maps, htracks, by omega, rfl, rfl, hstatus, hpos, rfl, rfl⟩

variable (stack) in
theorem issueWrite_spec (h : Ready s) {sector : BitVec 32} (hsector : sector.toNat < 2 ^ 23) :
    ∃ s', issueWrite stack (prepared s sector) = .ok s' ∧
      Streaming s' true sector.toNat 0 s.disk_fp.size s.disk_fp.bytes := by
  have hwired : Wired (prepared s sector) := ⟨h.wired.maps, h.wired.byte_cnt, h.wired.pic⟩
  have hport := portSector_prepared s sector 0x30 (by omega)
  have hstatus := idePort_setIdePort_same (prepared s sector) 7 0x30
  have hpos : (portSector ((prepared s sector).setIdePort 7 0x30) <<< 9).toNat
      = 512 * sector.toNat := by
    rw [hport, sector_index hsector]
  rw [issueWrite, outByte_command hwired, command_write hstatus]
  exact ⟨_, rfl, h.wired.maps, h.wired.pic, by omega, rfl, rfl, hstatus, hpos, rfl, rfl⟩

end Commands

/-! ## The words of a sector -/

section Words

variable {stack : Nat → Byte} {s : Devices} {sector i size : Nat} {m : Nat → Byte}

-- counting changes no register but the last
theorem countTransfer_idePort (s : Devices) {j : Nat} (hj : j ≠ 7) :
    s.countTransfer.idePort j = s.idePort j := by
  rw [countTransfer]
  by_cases hend : s.byte_cnt + 4 = 512
  · rw [if_pos hend, idePort_setIdePort_ne _ _ _ _ hj]
    rfl
  · rw [if_neg hend]
    rfl

-- the registers over a word at the data port
theorem idePort_data {s t : Devices} {word : Nat → Byte}
    (h : t.pio_space = patch s.pio_space IDE_PORT.toNat 4 word) {j : Nat} (hj : j < 4) :
    t.idePort j = word j := by
  rw [idePort, h, patch_add hj]

theorem idePort_beyond {s t : Devices} {word : Nat → Byte}
    (h : t.pio_space = patch s.pio_space IDE_PORT.toNat 4 word) {j : Nat} (hj : 4 ≤ j) :
    t.idePort j = s.idePort j := by
  rw [idePort, h]
  exact patch_outside (.inr (Nat.add_le_add_left hj _))

theorem fread_full {f : DiskFile} {n : Nat} (hn : 0 < n) (h : f.avail n = n) :
    f.fread n = (1, { f with pos := f.pos + n }) := by
  rw [DiskFile.fread, h, if_pos ⟨hn, rfl⟩, decide_eq_false (Nat.lt_irrefl n), Bool.or_false]

theorem fwrite_inside {f : DiskFile} {n : Nat} (h : f.pos + n ≤ f.size) (src : Nat → Byte) :
    f.fwrite n src = (1, { f with bytes := patch f.bytes f.pos n src, pos := f.pos + n }) := by
  have hfill : (fun i => if f.size ≤ i ∧ i < f.pos then 0 else f.bytes i) = f.bytes := by
    funext i
    exact if_neg (by omega)
  rw [DiskFile.fwrite, hfill, Nat.max_eq_left h]

/-- A word read, before it is counted. -/
def readMoved (s : Devices) : Devices :=
  { s with
    pio_space := patch s.pio_space IDE_PORT.toNat 4 (fun i => s.disk_fp.bytes (s.disk_fp.pos + i))
    disk_fp := { s.disk_fp with pos := s.disk_fp.pos + 4 } }

/-- A word written, before it is counted. -/
def writeMoved (s : Devices) : Devices :=
  { s with
    disk_fp := { s.disk_fp with
      bytes := patch s.disk_fp.bytes s.disk_fp.pos 4 s.idePort, pos := s.disk_fp.pos + 4 } }

theorem readData_eq (hdir : s.ide_write = false) (havail : s.disk_fp.avail 4 = 4) :
    s.readData = .ok (readMoved s).countTransfer := by
  have hassert : (!s.ide_write) = true := by
    rw [hdir]
    rfl
  rw [readData, hassert, cAssert_true, ok_bind, fread_full (by omega) havail, havail]
  rfl

theorem writeData_eq (hdir : s.ide_write = true) (h : s.disk_fp.pos + 4 ≤ s.disk_fp.size) :
    s.writeData = .ok (writeMoved s).countTransfer := by
  rw [writeData, hdir, cAssert_true, ok_bind, fwrite_inside h, writeMoved, hdir]
  rfl

theorem readData_spec (h : Streaming s false sector i size m) (hi : i < 128)
    (hsize : 512 * sector + 512 ≤ size) :
    ∃ s', s.readData = .ok s' ∧ Streaming s' false sector (i + 1) size m ∧
      ∀ j < 4, s'.idePort j = m (512 * sector + 4 * i + j) := by
  have havail : s.disk_fp.avail 4 = 4 := by
    rw [DiskFile.avail, h.size, h.pos]
    omega
  have hspace : (readMoved s).pio_space = patch s.pio_space IDE_PORT.toNat 4
      (fun i => s.disk_fp.bytes (s.disk_fp.pos + i)) := rfl
  have hpos : (readMoved s).disk_fp.pos = 512 * sector + 4 * (i + 1) := by
    show s.disk_fp.pos + 4 = _
    rw [h.pos, Nat.mul_succ, Nat.add_assoc]
  refine ⟨_, readData_eq h.direction havail, ?_, ?_⟩
  · exact h.count hi rfl rfl rfl rfl (idePort_beyond hspace (by omega)) hpos h.size h.bytes
  · intro j hj
    rw [countTransfer_idePort _ (by omega), idePort_data hspace hj, h.bytes, h.pos]

theorem writeData_spec (h : Streaming s true sector i size m) (hi : i < 128)
    (hsize : 512 * sector + 512 ≤ size) {t : Devices} {word : Nat → Byte}
    (ht : { s with pio_space := patch s.pio_space IDE_PORT.toNat 4 word } = t) :
    ∃ s', t.writeData = .ok s' ∧
      Streaming s' true sector (i + 1) size (patch m (512 * sector + 4 * i) 4 word) := by
  have hspace : t.pio_space = patch s.pio_space IDE_PORT.toNat 4 word := by
    rw [← ht]
  have hfp : t.disk_fp = s.disk_fp := by
    rw [← ht]
  have hinside : t.disk_fp.pos + 4 ≤ t.disk_fp.size := by
    rw [hfp, h.size, h.pos]
    omega
  have hdir : t.ide_write = true := by
    rw [← ht]
    exact h.direction
  have hpos : (writeMoved t).disk_fp.pos = 512 * sector + 4 * (i + 1) := by
    show t.disk_fp.pos + 4 = _
    rw [hfp, h.pos, Nat.mul_succ, Nat.add_assoc]
  have hbytes : (writeMoved t).disk_fp.bytes = patch m (512 * sector + 4 * i) 4 word := by
    show patch t.disk_fp.bytes t.disk_fp.pos 4 t.idePort = _
    rw [hfp, h.pos, h.bytes]
    apply patch_congr
    intro j hj
    exact idePort_data hspace hj
  refine ⟨_, writeData_eq hdir hinside, ?_⟩
  have hstatus : t.idePort 7 = s.idePort 7 := idePort_beyond hspace (by omega)
  subst ht
  exact h.count hi rfl rfl rfl rfl hstatus hpos h.size hbytes

variable (stack) in
/-- The loop of `disk_do_read` fills the buffer from the disk. -/
theorem readWords_spec (hsize : 512 * sector + 512 ≤ size) (n : Nat) :
    ∀ {s : Devices} {i : Nat} (buf : Nat → Byte), i + n = 128 →
      Streaming s false sector i size m →
      ∃ s', readWords stack s buf i n
          = .ok (patch buf (4 * i) (4 * n) (fun j => m (512 * sector + 4 * i + j)), s') ∧
        Streaming s' false sector 128 size m := by
  induction n with
  | zero =>
      rintro s i buf hi h
      obtain rfl : i = 128 := by omega
      refine ⟨s, ?_, h⟩
      rw [readWords, Nat.mul_zero, patch_zero_len]
  | succ n ih =>
      intro s i buf hi h
      obtain ⟨s₁, hread, h₁, hword⟩ := readData_spec h (by omega) hsize
      obtain ⟨v, hlong, hbytes⟩ := inLong_data stack h.wired hread
      obtain ⟨s', hrest, h'⟩ := ih (patch buf (4 * i) 4 (leByte v.toNat)) (by omega) h₁
      refine ⟨s', ?_, h'⟩
      have hfirst : patch buf (4 * i) 4 (leByte v.toNat)
          = patch buf (4 * i) 4 (fun j => m (512 * sector + 4 * i + j)) := by
        apply patch_congr
        intro j hj
        rw [hbytes j hj, hword j hj]
      have hjoin := patch_append buf (fun j => m (512 * sector + 4 * i + j)) (4 * i) 4 (4 * n)
      rw [readWords, hlong, ok_bind]
      dsimp only
      rw [hrest, hfirst, Nat.mul_succ 4 n, Nat.add_comm (4 * n), ← hjoin]
      have hfrom : ∀ j, 512 * sector + 4 * (i + 1) + j = 512 * sector + 4 * i + (4 + j) := by
        intro j
        omega
      simp only [hfrom]
      rfl

variable (stack) in
/-- The loop of `disk_do_write` stores the buffer to the disk. -/
theorem writeWords_spec (hsize : 512 * sector + 512 ≤ size) (buf : Nat → Byte) (n : Nat) :
    ∀ {s : Devices} {i : Nat} {m : Nat → Byte}, i + n = 128 → Streaming s true sector i size m →
      ∃ s', writeWords stack s buf i n = .ok s' ∧
        Streaming s' true sector 128 size
          (patch m (512 * sector + 4 * i) (4 * n) (fun j => buf (4 * i + j))) := by
  induction n with
  | zero =>
      rintro s i m hi h
      obtain rfl : i = 128 := by omega
      refine ⟨s, rfl, ?_⟩
      rw [Nat.mul_zero, patch_zero_len]
      exact h
  | succ n ih =>
      intro s i m hi h
      have hlong := outLong_data stack h.wired (BitVec.ofNat 32 (load buf (4 * i) 4))
      obtain ⟨s₁, hwrite, h₁⟩ := writeData_spec h (by omega) hsize rfl
      obtain ⟨s', hrest, h'⟩ := ih (by omega) h₁
      refine ⟨s', ?_, ?_⟩
      · rw [writeWords, hlong, hwrite, ok_bind]
        exact hrest
      · have hfirst : patch m (512 * sector + 4 * i) 4
              (leByte (BitVec.ofNat 32 (load buf (4 * i) 4)).toNat)
            = patch m (512 * sector + 4 * i) 4 (fun j => buf (4 * i + j)) := by
          apply patch_congr
          intro j hj
          rw [load_word]
          exact leByte_leNat hj
        have hjoin := patch_append m (fun j => buf (4 * i + j)) (512 * sector + 4 * i) 4 (4 * n)
        have hfrom : (fun j => buf (4 * (i + 1) + j)) = fun j => buf (4 * i + (4 + j)) := by
          funext j
          rw [Nat.mul_succ, Nat.add_assoc]
        rw [hfirst, hfrom, Nat.mul_succ 4 i, ← Nat.add_assoc, hjoin, Nat.add_comm 4] at h'
        exact h'

end Words

/-! ## The disk of sectors -/

/-- The calls of a run; `buf` is the memory at the pointer. -/
inductive SectorOp where
  | diskDoRead (buf : Nat → Byte) (sector : BitVec 32)
  | diskDoWrite (buf : Nat → Byte) (sector : BitVec 32)

def SectorOp.sector : SectorOp → BitVec 32
  | .diskDoRead _ sector => sector
  | .diskDoWrite _ sector => sector

/-- The sector has its place in a disk file of `size` bytes. -/
def SectorOp.Fits (size : Nat) (op : SectorOp) : Prop :=
  op.sector.toNat < 2 ^ 23 ∧ 512 * op.sector.toNat + 512 ≤ size

/-- A call of the driver over the emulated disk: the memory at the pointer after it, and the
    devices. -/
def step (stack : Nat → Byte) (polls : Nat) (s : Devices) :
    SectorOp → Except Abort ((Nat → Byte) × Devices)
  | .diskDoRead buf sector => diskDoRead stack polls s buf sector
  | .diskDoWrite buf sector => do
      let s ← diskDoWrite stack polls s buf sector
      return (buf, s)

/-- The bytes of a disk. -/
abbrev DiskBytes := Nat → Byte

/-- What a call means: a read copies the 512 bytes of its sector to the pointer, a write
    replaces them. -/
def DiskBytes.step (m : DiskBytes) : SectorOp → Except Abort ((Nat → Byte) × DiskBytes)
  | .diskDoRead buf sector =>
      .ok (patch buf 0 512 (fun j => m (512 * sector.toNat + j)), m)
  | .diskDoWrite buf sector => .ok (buf, patch m (512 * sector.toNat) 512 buf)

/-- Between two commands the drive is ready and its file holds `m`. -/
structure Disk (size : Nat) (s : Devices) (m : DiskBytes) : Prop where
  ready : Ready s
  size : s.disk_fp.size = size
  bytes : s.disk_fp.bytes = m

section Runs

variable {stack : Nat → Byte} {s : Devices} {size : Nat} {m : DiskBytes}

variable (stack) in
theorem diskDoRead_spec (h : Disk size s m) (polls : Nat) (buf : Nat → Byte) {sector : BitVec 32}
    (hsector : sector.toNat < 2 ^ 23) (hsize : 512 * sector.toNat + 512 ≤ size) :
    ∃ s', diskDoRead stack (polls + 1) s buf sector
        = .ok (patch buf 0 512 (fun j => m (512 * sector.toNat + j)), s') ∧ Disk size s' m := by
  obtain ⟨hready, rfl, rfl⟩ := h
  obtain ⟨s₁, hissue, h₁⟩ := issueRead_spec stack hready hsector
  obtain ⟨s', hwords, h'⟩ := readWords_spec stack hsize 128 buf rfl h₁
  refine ⟨s', ?_, h'.ready, h'.size, h'.bytes⟩
  rw [diskDoRead, idePrepare_ready hready, ok_bind, hissue, ok_bind]
  exact hwords

variable (stack) in
theorem diskDoWrite_spec (h : Disk size s m) (polls : Nat) (buf : Nat → Byte) {sector : BitVec 32}
    (hsector : sector.toNat < 2 ^ 23) (hsize : 512 * sector.toNat + 512 ≤ size) :
    ∃ s', diskDoWrite stack (polls + 1) s buf sector = .ok s' ∧
      Disk size s' (patch m (512 * sector.toNat) 512 buf) := by
  obtain ⟨hready, rfl, rfl⟩ := h
  obtain ⟨s₁, hissue, h₁⟩ := issueWrite_spec stack hready hsector
  obtain ⟨s', hwords, h'⟩ := writeWords_spec stack hsize buf 128 rfl h₁
  refine ⟨s', ?_, h'.ready, h'.size, ?_⟩
  · rw [diskDoWrite, idePrepare_ready hready, ok_bind, hissue, ok_bind]
    exact hwords
  · rw [h'.bytes]
    apply patch_congr
    intro j _
    rw [Nat.mul_zero, Nat.zero_add]

/-- A call answers as on the disk of sectors, and leaves the drive ready again. -/
theorem step_agree (h : Disk size s m) (polls : Nat) {op : SectorOp} (hop : op.Fits size) :
    Agree (Disk size) (step stack (polls + 1) s op) (m.step op) := by
  cases op with
  | diskDoRead buf sector =>
      have hsector : sector.toNat < 2 ^ 23 := hop.1
      have hsize : 512 * sector.toNat + 512 ≤ size := hop.2
      obtain ⟨s', hrun, h'⟩ := diskDoRead_spec stack h polls buf hsector hsize
      rw [step, hrun]
      exact .ok h'
  | diskDoWrite buf sector =>
      have hsector : sector.toNat < 2 ^ 23 := hop.1
      have hsize : 512 * sector.toNat + 512 ≤ size := hop.2
      obtain ⟨s', hrun, h'⟩ := diskDoWrite_spec stack h polls buf hsector hsize
      rw [step, hrun]
      exact .ok h'

end Runs

theorem initIde_disk (ddr3 : Ddr3) (fp : DiskFile) :
    ∃ s, initIde (static ddr3 fp) = .ok s ∧ Disk fp.size s fp.bytes := by
  refine ⟨_, rfl, ⟨⟨rfl, ?_, ∅, I8259Pair.init_tracks⟩, ?_⟩, rfl, rfl⟩
  · exact Nat.zero_le _
  · rfl

/-- **Driver and disk.** From `init_ide` on, every run of reads and writes of sectors that the
    disk file has completes, with the drive found ready on its first poll each time; it answers
    as the disk of sectors does, and leaves in the file what that disk holds. -/
theorem run_refines_sectors (stack : Nat → Byte) (polls : Nat) (ddr3 : Ddr3) (fp : DiskFile)
    (ops : List SectorOp) (hops : ∀ op ∈ ops, op.Fits fp.size) :
    ∃ s answers s' m, initIde (static ddr3 fp) = .ok s ∧
      run (step stack (polls + 1)) s ops = .ok (answers, s') ∧
      run DiskBytes.step fp.bytes ops = .ok (answers, m) ∧ s'.disk_fp.bytes = m := by
  obtain ⟨s, hinit, hdisk⟩ := initIde_disk ddr3 fp
  have htotal : ∀ (m : DiskBytes) op, ∃ o m', m.step op = .ok (o, m') := by
    intro m op
    cases op <;> exact ⟨_, _, rfl⟩
  obtain ⟨answers, m, hflat⟩ := run_total htotal ops fp.bytes
  have hstep : ∀ s m op, Disk fp.size s m → op.Fits fp.size →
      Agree (Disk fp.size) (step stack (polls + 1) s op) (m.step op) :=
    fun s m op h hop => step_agree h polls hop
  have h := run_agree hstep ops s fp.bytes hdisk hops
  rw [hflat] at h
  generalize hrun : run (step stack (polls + 1)) s ops = x at h
  cases h with
  | ok hR => exact ⟨s, answers, _, m, hinit, hrun, hflat, hR.bytes⟩

/-- A sector written, another one written, and the first read back. -/
theorem run_refines_sectors_two :
    ∃ s answers s' m,
      initIde (static ⟨fun _ => 0, fun _ _ => ⟨fun _ => 0, 0, false⟩⟩ ⟨1024, fun _ => 0, 0, false⟩)
        = .ok s ∧
      run (step (fun _ => 0) 1) s
        [.diskDoWrite (fun _ => 7) 0, .diskDoWrite (fun _ => 9) 1, .diskDoRead (fun _ => 0) 0]
        = .ok (answers, s') ∧
      run DiskBytes.step (fun _ => 0)
        [.diskDoWrite (fun _ => 7) 0, .diskDoWrite (fun _ => 9) 1, .diskDoRead (fun _ => 0) 0]
        = .ok (answers, m) ∧ s'.disk_fp.bytes = m := by
  apply run_refines_sectors
  intro op hop
  simp only [List.mem_cons, List.not_mem_nil, or_false] at hop
  rcases hop with rfl | rfl | rfl
  · exact ⟨by decide, by decide⟩
  · exact ⟨by decide, by decide⟩
  · exact ⟨by decide, by decide⟩

end Nemu.Kernel.Driver
