/-
  Nemu.Kernel.BufferedIdeRefinement

  From `init_ide` on, the kernel's disk is a file of bytes of which at most the writes of
  the last second are missing from the file of the emulator: `ide_read` answers with the
  bytes written last, and what was written before the last write-back is on disk.

  The buffers over the driver simulate the buffers over an array of sectors (`Over`), whose
  meaning is that of `Nemu.Kernel.SectorCache`.
-/

import Nemu.Kernel.SectorCache
import Nemu.Kernel.DiskTransfer
import Nemu.Kernel.BufferedIde

namespace Nemu.Kernel.Buffered

open BlockCache Outcome DetSystem ByteSeq

/-! ## The file -/

/-- What the disk means to its callers: its bytes, which of them were written since the last
    write-back, and the timer interrupts since then. -/
structure File where
  bytes : FlatDisk
  unsaved : BitVec 32 → Bool
  ticks : Nat

namespace File

def write (t : File) (buf : Nat → Byte) (offset len : BitVec 32) : File :=
  { t with
    bytes := t.bytes.write buf offset len
    unsaved := fun a => decide (a - offset < len) || t.unsaved a }

/-- Every hundredth interrupt saves all that was written. -/
def tick (t : File) : File :=
  if t.ticks + 1 = 100 then { t with unsaved := fun _ => false, ticks := 0 }
  else { t with ticks := t.ticks + 1 }

def step (t : File) : Op → Except Abort (List Byte × File)
  | .ideRead offset len => .ok (t.bytes.read offset len, t)
  | .ideWrite buf offset len => .ok ([], t.write buf offset len)
  | .timer => .ok ([], t.tick)

/-- The file that the emulator opened, nothing of it written yet. -/
def opened (bytes : Nat → Byte) : File where
  bytes := fun a => bytes a.toNat
  unsaved := fun _ => false
  ticks := 0

end File

/-! ## Sectors of the file -/

/-- The sector is a whole one of a disk file of `size` bytes. -/
def Fits (size : Nat) (sector : BitVec 32) : Prop :=
  sector.toNat < 2 ^ 23 ∧ 512 * sector.toNat + 512 ≤ size

/-- The bytes of the whole sectors. -/
def span (size : Nat) : Nat := 512 * (size / 512)

/-- The bytes that a call names lie in whole sectors of the file. -/
def Op.Within (size : Nat) : Op → Prop
  | .ideRead offset len => offset.toNat + len.toNat ≤ span size
  | .ideWrite _ offset len => offset.toNat + len.toNat ≤ span size
  | .timer => True

def sectorAt (m : Nat → Byte) (k : BitVec 32) : Sector := fun i => m (512 * k.toNat + i)

theorem fits_sectorOf {size : Nat} {a : BitVec 32} (h : a.toNat < span size) :
    Fits size (sectorOf a) := by
  have ha := a.isLt
  rw [span] at h
  rw [Fits, sectorOf_toNat]
  omega

/-- An offset inside of a range of the file. -/
theorem fits_add {size i : Nat} {offset len : BitVec 32}
    (h : offset.toNat + len.toNat ≤ span size) (hi : i < len.toNat) :
    Fits size (sectorOf (offset + BitVec.ofNat 32 i)) := by
  apply fits_sectorOf
  rw [BitVec.toNat_add, BitVec.toNat_ofNat]
  have hmod := Nat.mod_le (offset.toNat + i % 2 ^ 32) (2 ^ 32)
  have hi' := Nat.mod_le i (2 ^ 32)
  omega

theorem flatten_sectorAt (m : Nat → Byte) (a : BitVec 32) : flatten (sectorAt m) a = m a.toNat := by
  rw [flatten, sectorAt, sectorOf_toNat, byteOf_val, Nat.div_add_mod]

theorem sectorAt_patch_same (m : Nat → Byte) (k : BitVec 32) (content : Sector) :
    sectorAt (patch m (512 * k.toNat) 512 (Ide.contentMem content)) k = content := by
  funext i
  have hi := i.isLt
  rw [sectorAt, patch_inside (by omega) (by omega), Nat.add_sub_cancel_left, Ide.contentMem,
    dif_pos hi]

theorem sectorAt_patch_ne (m : Nat → Byte) {k l : BitVec 32} (content : Sector) (h : l ≠ k) :
    sectorAt (patch m (512 * k.toNat) 512 (Ide.contentMem content)) l = sectorAt m l := by
  funext i
  have hi := i.isLt
  have hne : l.toNat ≠ k.toNat := fun heq => h (BitVec.eq_of_toNat_eq heq)
  rw [sectorAt, patch_outside (by omega), sectorAt]

/-! ## The buffers over the driver -/

/-- The kernel's state over the emulated disk stands for the cache `c` over an array of
    sectors, and `n` ticks were counted. -/
structure Over (size : Nat) (n : BitVec 32) (s : Ide) (c : SectorCache) : Prop where
  counter : s.counter = n
  buf : c.buf = s.buf
  ready : Driver.Ready s.devices
  file_size : s.devices.disk_fp.size = size
  disk : ∀ k, Fits size k → c.disk k = sectorAt s.devices.disk_fp.bytes k
  held : ∀ i, (c.buf i).used = true → Fits size (c.buf i).sector
  used : ∀ i, (c.buf i).dirty = true → (c.buf i).used = true

section Transfers

variable (stack : Nat → Byte) (polls : Nat)
variable {size : Nat} {n : BitVec 32} {s : Ide} {c : SectorCache} {i : Fin NR_SEC_BUF}

theorem Over.drive (h : Over size n s c) :
    Driver.Disk size s.devices s.devices.disk_fp.bytes := ⟨h.ready, h.file_size, rfl⟩

theorem Over.setSlot (h : Over size n s c) (i : Fin NR_SEC_BUF) (slot : SectorBuf)
    (hheld : slot.used = true → Fits size slot.sector) (hused : slot.dirty = true → slot.used = true) :
    Over size n (s.setSlot i slot) (c.setSlot i slot) where
  counter := h.counter
  buf := by
    show Function.update c.buf i slot = Function.update s.buf i slot
    rw [h.buf]
  ready := h.ready
  file_size := h.file_size
  disk := h.disk
  held j := by
    by_cases hj : j = i
    · subst hj
      rw [Cache.setSlot_same]
      exact hheld
    · rw [Cache.setSlot_ne _ _ hj]
      exact h.held j
  used j := by
    by_cases hj : j = i
    · subst hj
      rw [Cache.setSlot_same]
      exact hused
    · rw [Cache.setSlot_ne _ _ hj]
      exact h.used j

/-- Writing a slot that is in use reaches the file as it reaches the array. -/
theorem writeSlot_spec (h : Over size n s c) (hi : (c.buf i).used = true) :
    ∃ s', s.writeSlot stack (polls + 1) i = .ok s' ∧
      Over size n s' (diskDoWrite c (c.buf i).content (c.buf i).sector) := by
  have hfits := h.held i hi
  rw [h.buf] at hfits
  obtain ⟨t, hrun, ht⟩ := Driver.diskDoWrite_spec stack h.drive polls
    (Ide.contentMem (s.buf i).content) hfits.1 hfits.2
  refine ⟨{ s with devices := t }, ?_, h.counter, h.buf, ht.ready, ht.size, ?_, h.held, h.used⟩
  · rw [Ide.writeSlot, hrun]
    rfl
  · intro k hk
    show (c.writeDisk (c.buf i).sector (c.buf i).content).disk k = sectorAt t.disk_fp.bytes k
    rw [ht.bytes, h.buf]
    by_cases hks : k = (s.buf i).sector
    · subst hks
      rw [Cache.writeDisk_same, sectorAt_patch_same]
    · rw [Cache.writeDisk_ne _ _ hks, sectorAt_patch_ne _ _ hks]
      exact h.disk k hk

/-- A sector read from the file is the one of the array. -/
theorem readSlot_spec (h : Over size n s c) (i : Fin NR_SEC_BUF) {sector : BitVec 32}
    (hfits : Fits size sector) :
    ∃ s', s.readSlot stack (polls + 1) i sector = .ok s' ∧
      Over size n s' (c.setSlot i { c.buf i with content := diskDoRead c sector }) := by
  obtain ⟨t, hrun, ht⟩ := Driver.diskDoRead_spec stack h.drive polls
    (Ide.contentMem (s.buf i).content) hfits.1 hfits.2
  have hcontent : Ide.memContent (patch (Ide.contentMem (s.buf i).content) 0 512
      (fun j => s.devices.disk_fp.bytes (512 * sector.toNat + j))) = diskDoRead c sector := by
    funext j
    have hj := j.isLt
    rw [Ide.memContent, patch_inside (by omega) (by omega), diskDoRead, h.disk sector hfits]
    rfl
  have h' : Over size n { s with devices := t } c :=
    ⟨h.counter, h.buf, ht.ready, ht.size, by rw [ht.bytes]; exact h.disk, h.held, h.used⟩
  refine ⟨_, ?_, h'.setSlot i _ (h.held i) (h.used i)⟩
  rw [Ide.readSlot, hrun, ok_bind]
  dsimp only
  rw [hcontent, h.buf]
  rfl

theorem evict_over (h : Over size n s c) (i : Fin NR_SEC_BUF) :
    ∃ s', s.evict stack (polls + 1) i = .ok s' ∧ Over size n s' (evict c i) := by
  unfold Ide.evict evict
  rw [← h.buf]
  by_cases hdirty : (c.buf i).used = true ∧ (c.buf i).dirty = true
  · rw [if_pos hdirty, if_pos hdirty]
    exact writeSlot_spec stack polls h hdirty.1
  · rw [if_neg hdirty, if_neg hdirty]
    exact ⟨s, rfl, h⟩

theorem bufFetch_over (h : Over size n s c) {sector : BitVec 32} (hfits : Fits size sector) :
    ∃ s', s.bufFetch stack (polls + 1) sector = .ok ((bufFetch c sector).1, s') ∧
      Over size n s' (bufFetch c sector).2 := by
  unfold Ide.bufFetch
  dsimp only
  rw [← h.buf]
  by_cases hhit : (c.buf (slotOf sector)).used = true ∧ (c.buf (slotOf sector)).sector = sector
  · rw [if_pos hhit, bufFetch_hit hhit]
    exact ⟨s, rfl, h⟩
  · obtain ⟨s₁, hevict, h₁⟩ := evict_over stack polls h (slotOf sector)
    obtain ⟨s₂, hread, h₂⟩ := readSlot_spec stack polls h₁ (slotOf sector) hfits
    let filled : SectorBuf :=
      { sector := sector, used := true, dirty := false,
        content := (evict c (slotOf sector)).disk sector }
    have h₃ : Over size n (s₂.setSlot (slotOf sector) filled)
        ((evict c (slotOf sector)).setSlot (slotOf sector) filled) := by
      have hset := h₂.setSlot (slotOf sector) filled (fun _ => hfits) nofun
      rw [Cache.setSlot_setSlot] at hset
      exact hset
    rw [bufFetch_miss hhit]
    refine ⟨_, ?_, h₃⟩
    rw [if_neg hhit, hevict, ok_bind, hread, ok_bind]
    simp only [Ide.setSlot_same, Ide.setSlot_setSlot]
    rw [← h₂.buf, Cache.setSlot_same]
    rfl

end Transfers

/-! ## One byte -/

section Bytes

variable (stack : Nat → Byte) (polls : Nat)
variable {size : Nat} {n : BitVec 32} {s : Ide} {c : SectorCache} {offset : BitVec 32}

theorem readByte_over (h : Over size n s c) (hfits : Fits size (sectorOf offset)) :
    ∃ s', s.readByte stack (polls + 1) offset = .ok ((readByte c offset).1, s') ∧
      Over size n s' (readByte c offset).2 := by
  obtain ⟨s', hfetch, h'⟩ := bufFetch_over stack polls h hfits
  refine ⟨s', ?_, h'⟩
  rw [Ide.readByte, hfetch, ok_bind]
  dsimp only
  rw [← h'.buf]
  rfl

theorem writeByte_over (h : Over size n s c) (hfits : Fits size (sectorOf offset)) (data : Byte)
    (hused : ((bufFetch c (sectorOf offset)).2.buf (bufFetch c (sectorOf offset)).1).used = true) :
    ∃ s', s.writeByte stack (polls + 1) offset data = .ok s' ∧
      Over size n s' (writeByte c offset data) := by
  obtain ⟨s', hfetch, h'⟩ := bufFetch_over stack polls h hfits
  rw [Ide.writeByte, hfetch, ok_bind, writeByte]
  generalize bufFetch c (sectorOf offset) = r at hused h' ⊢
  obtain ⟨ptr, c'⟩ := r
  refine ⟨_, rfl, ?_⟩
  simp only [Ide.setSlot_same, Ide.setSlot_setSlot, Cache.setSlot_same, Cache.setSlot_setSlot]
  rw [← h'.buf]
  exact h'.setSlot ptr _ (fun _ => h'.held ptr hused) (fun _ => hused)

end Bytes

/-! ## The loops -/

section Loops

variable (stack : Nat → Byte) (polls : Nat)
variable {size : Nat} {offset : BitVec 32}

theorem ideReadFrom_over (n : Nat) : ∀ (i : Nat) {k : BitVec 32} {s : Ide} {c : SectorCache},
    Over size k s c →
    (∀ j, i ≤ j → j < i + n → Fits size (sectorOf (offset + BitVec.ofNat 32 j))) →
    ∃ s', s.ideReadFrom stack (polls + 1) offset i n = .ok ((ideReadFrom c offset i n).1, s') ∧
      Over size k s' (ideReadFrom c offset i n).2 := by
  induction n with
  | zero => exact fun i k s c h _ => ⟨s, rfl, h⟩
  | succ n ih =>
      intro i k s c h hfits
      obtain ⟨s₁, hbyte, h₁⟩ := readByte_over stack polls h (hfits i (Nat.le_refl i) (by omega))
      obtain ⟨s₂, hrest, h₂⟩ := ih (i + 1) h₁ (fun j hj hlt => hfits j (by omega) (by omega))
      refine ⟨s₂, ?_, h₂⟩
      rw [Ide.ideReadFrom, hbyte, ok_bind]
      dsimp only
      rw [hrest]
      rfl

theorem ideWriteFrom_over (buf : Nat → Byte) (n : Nat) :
    ∀ (i : Nat) {k : BitVec 32} {s : Ide} {c : SectorCache} {m : FlatDisk},
      Over size k s c → Caches c m →
      (∀ j, i ≤ j → j < i + n → Fits size (sectorOf (offset + BitVec.ofNat 32 j))) →
      ∃ s', s.ideWriteFrom stack (polls + 1) buf offset i n = .ok s' ∧
        Over size k s' (ideWriteFrom c buf offset i n) := by
  induction n with
  | zero => exact fun i k s c m h _ _ => ⟨s, rfl, h⟩
  | succ n ih =>
      intro i k s c m h hcaches hfits
      obtain ⟨d, hrep, -⟩ := hcaches
      have hused := (bufFetch_spec hrep (sectorOf (offset + BitVec.ofNat 32 i))).2.1
      have hwrite := writeByte_spec hrep (offset + BitVec.ofNat 32 i) (buf i)
      obtain ⟨s₁, hbyte, h₁⟩ :=
        writeByte_over stack polls h (hfits i (Nat.le_refl i) (by omega)) (buf i) hused
      obtain ⟨s₂, hrest, h₂⟩ :=
        ih (i + 1) h₁ ⟨_, hwrite, rfl⟩ (fun j hj hlt => hfits j (by omega) (by omega))
      refine ⟨s₂, ?_, h₂⟩
      rw [Ide.ideWriteFrom, hbyte, ok_bind]
      exact hrest

theorem bufWritebackFrom_over (l : List (Fin NR_SEC_BUF)) :
    ∀ {k : BitVec 32} {s : Ide} {c : SectorCache}, Over size k s c →
      ∃ s', s.bufWritebackFrom stack (polls + 1) l = .ok s' ∧ Over size k s' (c.flush l) := by
  induction l with
  | nil => exact fun {k s c} h => ⟨s, rfl, h⟩
  | cons i l ih =>
      intro k s c h
      rw [Ide.bufWritebackFrom, ← h.buf]
      show ∃ s', _ ∧ Over size k s' ((c.flushSlot i).flush l)
      by_cases hd : (c.buf i).dirty = true
      · obtain ⟨s₁, hwrite, h₁⟩ := writeSlot_spec stack polls h (h.used i hd)
        have hclean := h₁.setSlot i { c.buf i with dirty := false } (h.held i) nofun
        obtain ⟨s', hrest, h'⟩ := ih hclean
        rw [if_pos hd, hwrite, ok_bind, ← h₁.buf, Cache.flushSlot, if_pos hd]
        exact ⟨s', hrest, h'⟩
      · rw [if_neg hd, Cache.flushSlot, if_neg hd]
        exact ih h

end Loops

/-! ## What is on disk -/

section Saved

variable {c : SectorCache} {a offset : BitVec 32}

/-- A byte that is on disk stays there: an eviction writes what is right. -/
theorem bufFetch_saved {d : BitVec 32 → Sector} (h : Represents slotOf c d) (sector : BitVec 32)
    (ha : flatten c.disk a = flatten d a) :
    flatten (bufFetch c sector).2.disk a = flatten d a := by
  by_cases hhit : (c.buf (slotOf sector)).used = true ∧ (c.buf (slotOf sector)).sector = sector
  · rw [bufFetch_hit hhit]
    exact ha
  · rw [bufFetch_miss hhit, Cache.setSlot_disk, evict]
    by_cases hdirty : (c.buf (slotOf sector)).used = true ∧ (c.buf (slotOf sector)).dirty = true
    · rw [if_pos hdirty, diskDoWrite, h.dirty_content hdirty.2, flatten]
      by_cases hk : sectorOf a = (c.buf (slotOf sector)).sector
      · rw [← hk, Cache.writeDisk_same]
        rfl
      · rw [Cache.writeDisk_ne _ _ hk]
        exact ha
    · rw [if_neg hdirty]
      exact ha

theorem ideReadFrom_saved {m : FlatDisk} (n : Nat) : ∀ (i : Nat) {c : SectorCache},
    Caches c m → flatten c.disk a = m a → flatten (ideReadFrom c offset i n).2.disk a = m a := by
  induction n with
  | zero => exact fun i c _ ha => ha
  | succ n ih =>
      intro i c h ha
      obtain ⟨d, hrep, rfl⟩ := h
      obtain ⟨-, hrep'⟩ := readByte_spec hrep (offset + BitVec.ofNat 32 i)
      exact ih (i + 1) ⟨d, hrep', rfl⟩ (bufFetch_saved hrep _ ha)

/-- A write leaves on disk what it does not replace. -/
theorem ideWriteFrom_saved (buf : Nat → Byte) (n : Nat) :
    ∀ (i : Nat) {c : SectorCache} {m : FlatDisk}, Caches c m →
      (∀ j, i ≤ j → j < i + n → a ≠ offset + BitVec.ofNat 32 j) → flatten c.disk a = m a →
      flatten (ideWriteFrom c buf offset i n).disk a = m a := by
  induction n with
  | zero => exact fun i c m _ _ ha => ha
  | succ n ih =>
      intro i c m h hne ha
      obtain ⟨d, hrep, rfl⟩ := h
      have hwrite := writeByte_spec hrep (offset + BitVec.ofNat 32 i) (buf i)
      have hupdate := Function.update_of_ne (hne i (Nat.le_refl i) (by omega)) (buf i) (flatten d)
      have hrest := ih (i + 1) (m := Function.update (flatten d) (offset + BitVec.ofNat 32 i) (buf i))
        ⟨_, hwrite, flatten_setByte ..⟩ (fun j hj hlt => hne j (by omega) (by omega))
        ((bufFetch_saved hrep _ ha).trans hupdate.symm)
      exact hrest.trans hupdate

end Saved

/-! ## Calls -/

/-- The kernel's state stands for the file `t`: the cache has its bytes, and the array of
    sectors those of them that are saved. -/
structure Stands (size : Nat) (s : Ide) (t : File) (c : SectorCache) : Prop where
  sectors : Over size (BitVec.ofNat 32 t.ticks) s c
  caches : Caches c t.bytes
  saved : ∀ a, t.unsaved a = false → flatten c.disk a = t.bytes a
  ticks : t.ticks < 100

section Calls

variable (stack : Nat → Byte) (polls : Nat)
variable {size : Nat} {s : Ide} {t : File} {c : SectorCache} {offset len : BitVec 32}

theorem ideRead_stands (h : Stands size s t c) (hwithin : offset.toNat + len.toNat ≤ span size) :
    ∃ s' c', s.ideRead stack (polls + 1) offset len = .ok (t.bytes.read offset len, s') ∧
      Stands size s' t c' := by
  obtain ⟨s', hrun, h'⟩ := ideReadFrom_over stack polls len.toNat 0 h.sectors
    (fun j _ hj => fits_add hwithin (by omega))
  obtain ⟨hbytes, hcaches⟩ := ideRead_spec h.caches offset len
  refine ⟨s', _, ?_, h', hcaches, ?_, h.ticks⟩
  · rw [Ide.ideRead, hrun, ← hbytes]
    rfl
  · exact fun a ha => ideReadFrom_saved len.toNat 0 h.caches (h.saved a ha)

theorem ideWrite_stands (h : Stands size s t c) (buf : Nat → Byte)
    (hwithin : offset.toNat + len.toNat ≤ span size) :
    ∃ s' c', s.ideWrite stack (polls + 1) buf offset len = .ok s' ∧
      Stands size s' (t.write buf offset len) c' := by
  obtain ⟨s', hrun, h'⟩ := ideWriteFrom_over stack polls buf len.toNat 0 h.sectors h.caches
    (fun j _ hj => fits_add hwithin (by omega))
  refine ⟨s', _, hrun, h', ideWrite_spec h.caches buf offset len, ?_, h.ticks⟩
  intro a ha
  obtain ⟨hout, hun⟩ := Bool.or_eq_false_iff.mp ha
  rw [decide_eq_false_iff_not] at hout
  have hwritten : (t.write buf offset len).bytes a = t.bytes a := if_neg hout
  rw [hwritten]
  apply ideWriteFrom_saved buf len.toNat 0 h.caches _ (h.saved a hun)
  rintro j - hj rfl
  apply hout
  have hlen := len.isLt
  rw [BitVec.add_comm, BitVec.add_sub_cancel, BitVec.lt_def, BitVec.toNat_ofNat,
    Nat.mod_eq_of_lt (by omega)]
  omega

/-- The hundredth interrupt saves everything. -/
theorem ideWriteback_stands (h : Stands size s t c) :
    ∃ s' c', s.ideWriteback stack (polls + 1) = .ok s' ∧ Stands size s' t.tick c' := by
  have hticks := h.ticks
  have hcount : s.counter + 1 = BitVec.ofNat 32 (t.ticks + 1) := by
    rw [h.sectors.counter, BitVec.ofNat_add]
    rfl
  have hlast : BitVec.ofNat 32 (t.ticks + 1) = WRITEBACK_TICKS ↔ t.ticks + 1 = 100 := by
    rw [← BitVec.toNat_inj, BitVec.toNat_ofNat, Nat.mod_eq_of_lt (by omega)]
    rfl
  have hover : Over size (s.counter + 1) { s with counter := s.counter + 1 } c :=
    ⟨rfl, h.sectors.buf, h.sectors.ready, h.sectors.file_size, h.sectors.disk, h.sectors.held, h.sectors.used⟩
  rw [Ide.ideWriteback, File.tick]
  dsimp only
  rw [hcount]
  by_cases hfull : t.ticks + 1 = 100
  · obtain ⟨s', hrun, h'⟩ := bufWritebackFrom_over stack polls (List.finRange NR_SEC_BUF) hover
    obtain ⟨hcaches, hdisk, -⟩ := bufWriteback_spec h.caches
    rw [bufWriteback_eq] at hcaches hdisk
    rw [hcount] at hrun
    rw [if_pos (hlast.mpr hfull), Ide.bufWriteback, hrun, ok_bind]
    refine ⟨{ s' with counter := 0 }, c.flush (List.finRange NR_SEC_BUF), rfl, ?_⟩
    · rw [if_pos hfull]
      exact ⟨⟨rfl, h'.buf, h'.ready, h'.file_size, h'.disk, h'.held, h'.used⟩, hcaches,
        fun a _ => congrFun hdisk a, Nat.zero_lt_succ 99⟩
  · rw [if_neg (fun heq => hfull (hlast.mp heq)), if_neg hfull]
    rw [hcount] at hover
    refine ⟨_, c, rfl, hover, h.caches, h.saved, ?_⟩
    show t.ticks + 1 < 100
    omega

theorem step_stands (h : ∃ c, Stands size s t c) {op : Op} (hop : op.Within size) :
    Agree (fun s t => ∃ c, Stands size s t c) (step stack (polls + 1) s op) (t.step op) := by
  obtain ⟨c, h⟩ := h
  cases op with
  | ideRead offset len =>
      obtain ⟨s', c', hrun, h'⟩ := ideRead_stands stack polls h hop
      rw [step, hrun]
      exact .ok ⟨c', h'⟩
  | ideWrite buf offset len =>
      obtain ⟨s', c', hrun, h'⟩ := ideWrite_stands stack polls h buf hop
      rw [step, hrun]
      exact .ok ⟨c', h'⟩
  | timer =>
      obtain ⟨s', c', hrun, h'⟩ := ideWriteback_stands stack polls h
      rw [step, hrun]
      exact .ok ⟨c', h'⟩

end Calls

theorem initIde_stands (ddr3 : Ddr3) (fp : DiskFile) :
    ∃ devices, Devices.initIde (Devices.static ddr3 fp) = .ok devices ∧
      ∃ c, Stands fp.size (Ide.initIde devices) (File.opened fp.bytes) c := by
  obtain ⟨devices, hinit, hdisk⟩ := Driver.initIde_disk ddr3 fp
  refine ⟨devices, hinit, bufInit (staticBuf (sectorAt fp.bytes)), ?_, ?_, ?_, Nat.zero_lt_succ 99⟩
  · refine ⟨rfl, rfl, hdisk.ready, hdisk.size, ?_, nofun, nofun⟩
    intro k _
    show sectorAt fp.bytes k = sectorAt devices.disk_fp.bytes k
    rw [hdisk.bytes]
  · have hcaches := caches_init (sectorAt fp.bytes)
    rw [show flatten (sectorAt fp.bytes) = (File.opened fp.bytes).bytes from
      funext (flatten_sectorAt fp.bytes)] at hcaches
    exact hcaches
  · exact fun a _ => flatten_sectorAt fp.bytes a

/-- The file of the emulator has every byte that is saved. -/
theorem Stands.on_disk {size : Nat} {s : Ide} {t : File} {c : SectorCache} (h : Stands size s t c)
    {a : BitVec 32} (ha : a.toNat < span size) (hsaved : t.unsaved a = false) :
    s.devices.disk_fp.bytes a.toNat = t.bytes a := by
  rw [← h.saved a hsaved, flatten, h.sectors.disk _ (fits_sectorOf ha)]
  exact (flatten_sectorAt s.devices.disk_fp.bytes a).symm

/-- **The disk of the kernel.** From the two `init_ide` on, every run of reads, writes and timer
    interrupts within the whole sectors of the disk file completes, with no assertion of the
    device failing, and answers as a file of bytes does. All along, the emulator's file keeps its
    size and holds every byte that was not written since the last hundredth interrupt. -/
theorem run_refines_file (stack : Nat → Byte) (polls : Nat) (ddr3 : Ddr3) (fp : DiskFile)
    (ops : List Op) (hops : ∀ op ∈ ops, op.Within fp.size) :
    ∃ devices answers s t, Devices.initIde (Devices.static ddr3 fp) = .ok devices ∧
      run (step stack (polls + 1)) (Ide.initIde devices) ops = .ok (answers, s) ∧
      run File.step (File.opened fp.bytes) ops = .ok (answers, t) ∧
      s.devices.disk_fp.size = fp.size ∧
      ∀ a : BitVec 32, a.toNat < span fp.size → t.unsaved a = false →
        s.devices.disk_fp.bytes a.toNat = t.bytes a := by
  obtain ⟨devices, hinit, hstands⟩ := initIde_stands ddr3 fp
  have htotal : ∀ (t : File) op, ∃ o t', t.step op = .ok (o, t') := by
    intro t op
    cases op <;> exact ⟨_, _, rfl⟩
  obtain ⟨answers, t, hfile⟩ := run_total htotal ops (File.opened fp.bytes)
  have hstep : ∀ s t op, (∃ c, Stands fp.size s t c) → op.Within fp.size →
      Agree (fun s t => ∃ c, Stands fp.size s t c) (step stack (polls + 1) s op) (t.step op) :=
    fun s t op h hop => step_stands stack polls h hop
  have h := run_agree hstep ops _ _ hstands hops
  rw [hfile] at h
  generalize hrun : run (step stack (polls + 1)) (Ide.initIde devices) ops = x at h
  cases h with
  | ok hR =>
      obtain ⟨c, hc⟩ := hR
      exact ⟨devices, answers, _, t, hinit, hrun, hfile, hc.sectors.file_size,
        fun a ha hsaved => hc.on_disk ha hsaved⟩

/-- A write across the border of two sectors, read back after an interrupt. -/
theorem run_refines_file_border :
    ∃ devices answers s t,
      Devices.initIde
          (Devices.static ⟨fun _ => 0, fun _ _ => ⟨fun _ => 0, 0, false⟩⟩ ⟨1024, fun _ => 0, 0, false⟩)
        = .ok devices ∧
      run (step (fun _ => 0) 1) (Ide.initIde devices)
        [.ideWrite (fun _ => 7) 510 4, .timer, .ideRead 510 4] = .ok (answers, s) ∧
      run File.step (File.opened fun _ => 0)
        [.ideWrite (fun _ => 7) 510 4, .timer, .ideRead 510 4] = .ok (answers, t) ∧
      s.devices.disk_fp.size = 1024 ∧
      ∀ a : BitVec 32, a.toNat < span 1024 → t.unsaved a = false →
        s.devices.disk_fp.bytes a.toNat = t.bytes a := by
  apply run_refines_file
  intro op hop
  simp only [List.mem_cons, List.not_mem_nil, or_false] at hop
  rcases hop with rfl | rfl | rfl
  · show 510 + 4 ≤ 512 * (1024 / 512)
    decide
  · exact trivial
  · show 510 + 4 ≤ 512 * (1024 / 512)
    decide

end Nemu.Kernel.Buffered
