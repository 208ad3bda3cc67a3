/-
  Nemu.Kernel.SectorCache

  The sector buffers are transparent: from `buf_init` on, a run of `ide_read`,
  `ide_write` and `buf_writeback` calls answers as a flat array of bytes does, and a
  write-back leaves the disk equal to that array.

  The invariant is `Represents` of the cache library; `bufFetch_spec` says what
  `buf_fetch` keeps of it, and reads, writes and write-backs follow.
-/

import Nemu.Kernel.SectorBuf
import Nemu.Lib.DetSystem
import Mathlib.Data.List.FinRange

namespace Nemu.Kernel

open BlockCache Outcome DetSystem

/-! ## The flat disk -/

/-- The bytes of the disk by their offset. -/
abbrev FlatDisk := BitVec 32 → Byte

/-- The bytes that sector contents hold. -/
def flatten (d : BitVec 32 → Sector) : FlatDisk := fun a => d (sectorOf a) (byteOf a)

namespace FlatDisk

def read (m : FlatDisk) (offset len : BitVec 32) : List Byte :=
  (List.range len.toNat).map fun i => m (offset + BitVec.ofNat 32 i)

/-- The `len` bytes from `offset` on replaced by those of `buf`. -/
def write (m : FlatDisk) (buf : Nat → Byte) (offset len : BitVec 32) : FlatDisk :=
  fun a => if a - offset < len then buf (a - offset).toNat else m a

end FlatDisk

/-- The calls of a run. -/
inductive DiskOp where
  | ideRead (offset len : BitVec 32)
  | ideWrite (buf : Nat → Byte) (offset len : BitVec 32)
  | bufWriteback

/-- A call on the kernel's cache: the bytes it answers, and the cache after it. -/
def step (c : SectorCache) : DiskOp → Except Abort (List Byte × SectorCache)
  | .ideRead offset len => .ok (ideRead c offset len)
  | .ideWrite buf offset len => .ok ([], ideWrite c buf offset len)
  | .bufWriteback => .ok ([], bufWriteback c)

/-- The same call on the flat disk. -/
def FlatDisk.step (m : FlatDisk) : DiskOp → Except Abort (List Byte × FlatDisk)
  | .ideRead offset len => .ok (m.read offset len, m)
  | .ideWrite buf offset len => .ok ([], m.write buf offset len)
  | .bufWriteback => .ok ([], m)

/-! ## Offsets -/

theorem sectorOf_toNat (a : BitVec 32) : (sectorOf a).toNat = a.toNat / 512 := by
  rw [sectorOf, BitVec.toNat_ushiftRight, Nat.shiftRight_eq_div_pow]

theorem byteOf_val (a : BitVec 32) : (byteOf a).val = a.toNat % 512 := by
  show (a &&& 511#32).toNat = _
  rw [BitVec.toNat_and]
  exact Nat.and_two_pow_sub_one_eq_mod a.toNat 9

/-- Sector and byte together are the offset. -/
theorem offset_inj {a b : BitVec 32} (hs : sectorOf a = sectorOf b) (hb : byteOf a = byteOf b) :
    a = b := by
  have hs' := congrArg BitVec.toNat hs
  have hb' := congrArg Fin.val hb
  rw [sectorOf_toNat, sectorOf_toNat] at hs'
  rw [byteOf_val, byteOf_val] at hb'
  apply BitVec.eq_of_toNat_eq
  omega

theorem flatten_setByte (d : BitVec 32 → Sector) (offset : BitVec 32) (data : Byte) :
    flatten (setByte d offset data) = Function.update (flatten d) offset data := by
  funext a
  rw [flatten, setByte]
  by_cases ha : a = offset
  · subst ha
    rw [Function.update_self, Function.update_self, Function.update_self]
  · rw [Function.update_of_ne ha]
    by_cases hs : sectorOf a = sectorOf offset
    · have hb : byteOf a ≠ byteOf offset := fun hb => ha (offset_inj hs hb)
      rw [hs, Function.update_self, Function.update_of_ne hb, flatten, hs]
    · rw [Function.update_of_ne hs, flatten]

/-! ## One byte -/

section Bytes

variable {c : SectorCache} {d : BitVec 32 → Sector}

-- the first half of a miss
def evict (c : SectorCache) (ptr : Fin NR_SEC_BUF) : SectorCache :=
  if (c.buf ptr).used = true ∧ (c.buf ptr).dirty = true then
    diskDoWrite c (c.buf ptr).content (c.buf ptr).sector
  else c

theorem bufFetch_hit {sector : BitVec 32}
    (h : (c.buf (slotOf sector)).used = true ∧ (c.buf (slotOf sector)).sector = sector) :
    bufFetch c sector = (slotOf sector, c) := if_pos h

/-- On a miss the slot is filled in four assignments. -/
theorem bufFetch_miss {sector : BitVec 32}
    (h : ¬ ((c.buf (slotOf sector)).used = true ∧ (c.buf (slotOf sector)).sector = sector)) :
    bufFetch c sector = (slotOf sector, (evict c (slotOf sector)).setSlot (slotOf sector)
      { sector := sector, used := true, dirty := false,
        content := (evict c (slotOf sector)).disk sector }) := by
  rw [bufFetch, if_neg h]
  simp only [Cache.setSlot_same, Cache.setSlot_setSlot]
  rfl

/-- The old occupant of a slot is on disk before the slot is filled. -/
theorem evict_spec (h : Represents slotOf c d) (ptr : Fin NR_SEC_BUF) :
    Represents slotOf (evict c ptr) d ∧ Evicted slotOf (evict c ptr) d ptr := by
  unfold evict
  by_cases hdirty : (c.buf ptr).used = true ∧ (c.buf ptr).dirty = true
  · rw [if_pos hdirty]
    have hw : Represents slotOf (diskDoWrite c (c.buf ptr).content (c.buf ptr).sector) d :=
      h.writeBack hdirty.1
    refine ⟨hw, hw.evicted fun _ => ?_⟩
    show (c.writeDisk (c.buf ptr).sector (c.buf ptr).content).disk (c.buf ptr).sector = _
    rw [Cache.writeDisk_same, h.dirty_content hdirty.2]
    rfl
  · rw [if_neg hdirty]
    exact ⟨h, h.evicted fun hd => absurd ⟨(h.slot ptr).used hd, hd⟩ hdirty⟩

/-- `buf_fetch` keeps the contents and returns the slot that holds the sector. -/
theorem bufFetch_spec (h : Represents slotOf c d) (sector : BitVec 32) :
    Represents slotOf (bufFetch c sector).2 d ∧
      ((bufFetch c sector).2.buf (bufFetch c sector).1).used = true ∧
      ((bufFetch c sector).2.buf (bufFetch c sector).1).sector = sector := by
  by_cases hhit : (c.buf (slotOf sector)).used = true ∧ (c.buf (slotOf sector)).sector = sector
  · rw [bufFetch_hit hhit]
    exact ⟨h, hhit⟩
  · rw [bufFetch_miss hhit]
    obtain ⟨hrep, hev⟩ := evict_spec h (slotOf sector)
    refine ⟨hrep.load rfl hev, ?_, ?_⟩
    · rw [Cache.setSlot_same]
    · rw [Cache.setSlot_same]

/-- `read_byte` returns the byte at its offset. -/
theorem readByte_spec (h : Represents slotOf c d) (offset : BitVec 32) :
    (readByte c offset).1 = flatten d offset ∧ Represents slotOf (readByte c offset).2 d := by
  obtain ⟨hrep, hused, hsector⟩ := bufFetch_spec h (sectorOf offset)
  refine ⟨?_, hrep⟩
  show ((bufFetch c (sectorOf offset)).2.buf (bufFetch c (sectorOf offset)).1).content _ = _
  rw [((hrep.slot _).holds hused).2, hsector]
  rfl

/-- `write_byte` replaces the byte at its offset. -/
theorem writeByte_spec (h : Represents slotOf c d) (offset : BitVec 32) (data : Byte) :
    Represents slotOf (writeByte c offset data) (setByte d offset data) := by
  obtain ⟨hrep, hused, hsector⟩ := bufFetch_spec h (sectorOf offset)
  have hstore := hrep.store hused hsector
    (Function.update (d (sectorOf offset)) (byteOf offset) data)
  have hcontent := ((hrep.slot _).holds hused).2
  rw [hsector] at hcontent
  rw [writeByte]
  simp only [Cache.setSlot_same, Cache.setSlot_setSlot]
  rw [hcontent]
  exact hstore

end Bytes

/-! ## Calls -/

/-- The cache stands for the flat disk `m`. -/
def Caches (c : SectorCache) (m : FlatDisk) : Prop :=
  ∃ d, Represents slotOf c d ∧ flatten d = m

section Calls

variable {c : SectorCache} {m : FlatDisk}

theorem ideReadFrom_spec (offset : BitVec 32) (n : Nat) : ∀ (i : Nat) {c : SectorCache},
    Caches c m →
      (ideReadFrom c offset i n).1
        = (List.range' i n).map (fun j => m (offset + BitVec.ofNat 32 j)) ∧
      Caches (ideReadFrom c offset i n).2 m := by
  induction n with
  | zero => exact fun i c h => ⟨rfl, h⟩
  | succ n ih =>
      intro i c h
      obtain ⟨d, hrep, hflat⟩ := h
      obtain ⟨hbyte, hrep'⟩ := readByte_spec hrep (offset + BitVec.ofNat 32 i)
      obtain ⟨hbytes, hrest⟩ := ih (i + 1) ⟨d, hrep', hflat⟩
      refine ⟨?_, hrest⟩
      show (readByte c _).1 :: (ideReadFrom (readByte c _).2 offset (i + 1) n).1 = _
      rw [hbyte, hbytes, hflat, List.range'_succ, List.map_cons]

theorem ideRead_spec (h : Caches c m) (offset len : BitVec 32) :
    (ideRead c offset len).1 = m.read offset len ∧ Caches (ideRead c offset len).2 m := by
  obtain ⟨hbytes, hrest⟩ := ideReadFrom_spec offset len.toNat 0 h
  refine ⟨?_, hrest⟩
  rw [FlatDisk.read, List.range_eq_range']
  exact hbytes

/-- After the bytes from `i` on were written, they and no others are those of `buf`. -/
theorem ideWriteFrom_spec (buf : Nat → Byte) (offset : BitVec 32) (n : Nat) :
    ∀ (i : Nat) {c : SectorCache} {m : FlatDisk}, i + n ≤ 2 ^ 32 → Caches c m →
      Caches (ideWriteFrom c buf offset i n) (fun a =>
        if i ≤ (a - offset).toNat ∧ (a - offset).toNat < i + n then buf (a - offset).toNat
        else m a) := by
  induction n with
  | zero =>
      intro i c m _ h
      have hnone : (fun a => if i ≤ (a - offset).toNat ∧ (a - offset).toNat < i + 0
          then buf (a - offset).toNat else m a) = m := by
        funext a
        rw [if_neg (by omega)]
      rw [hnone]
      exact h
  | succ n ih =>
      intro i c m hi h
      obtain ⟨d, hrep, rfl⟩ := h
      have hwrite := writeByte_spec hrep (offset + BitVec.ofNat 32 i) (buf i)
      have hrest := ih (i + 1) (by omega) ⟨_, hwrite, flatten_setByte ..⟩
      have hsame : (fun a => if i + 1 ≤ (a - offset).toNat ∧ (a - offset).toNat < i + 1 + n
            then buf (a - offset).toNat
            else Function.update (flatten d) (offset + BitVec.ofNat 32 i) (buf i) a)
          = (fun a => if i ≤ (a - offset).toNat ∧ (a - offset).toNat < i + (n + 1)
            then buf (a - offset).toNat else flatten d a) := by
        funext a
        by_cases ha : a = offset + BitVec.ofNat 32 i
        · have hidx : (a - offset).toNat = i := by
            rw [ha, BitVec.add_comm, BitVec.add_sub_cancel, BitVec.toNat_ofNat, Nat.mod_eq_of_lt (by omega)]
          rw [hidx, if_neg (by omega), if_pos (by omega), ha, Function.update_self]
        · have hidx : (a - offset).toNat ≠ i := by
            intro hc
            apply ha
            rw [← hc, BitVec.ofNat_toNat, BitVec.setWidth_eq, BitVec.add_comm, BitVec.sub_add_cancel]
          rw [Function.update_of_ne ha]
          by_cases hin : i ≤ (a - offset).toNat ∧ (a - offset).toNat < i + (n + 1)
          · rw [if_pos hin, if_pos (by omega)]
          · rw [if_neg hin, if_neg (by omega)]
      rw [hsame] at hrest
      exact hrest

theorem ideWrite_spec (h : Caches c m) (buf : Nat → Byte) (offset len : BitVec 32) :
    Caches (ideWrite c buf offset len) (m.write buf offset len) := by
  have hloop := ideWriteFrom_spec buf offset len.toNat 0 (by have := len.isLt; omega) h
  have hsame : m.write buf offset len = fun a =>
      if 0 ≤ (a - offset).toNat ∧ (a - offset).toNat < 0 + len.toNat then buf (a - offset).toNat
      else m a := by
    funext a
    simp only [FlatDisk.write, BitVec.lt_def, Nat.zero_le, true_and, Nat.zero_add]
  rw [hsame]
  exact hloop

-- the loop of `buf_writeback` is that of the library
theorem bufWriteback_eq (c : SectorCache) :
    bufWriteback c = c.flush (List.finRange NR_SEC_BUF) := rfl

theorem bufWriteback_spec (h : Caches c m) :
    Caches (bufWriteback c) m ∧ flatten (bufWriteback c).disk = m ∧
      ∀ i, ((bufWriteback c).buf i).dirty = false := by
  obtain ⟨d, hrep, hflat⟩ := h
  rw [bufWriteback_eq]
  obtain ⟨hdisk, hclean⟩ := hrep.flush_all (List.mem_finRange (n := NR_SEC_BUF))
  refine ⟨⟨d, hrep.flush _, hflat⟩, ?_, hclean⟩
  rw [hdisk, hflat]

/-! ## Runs -/

/-- A call answers as on the flat disk; after a write-back the disk is the flat disk. -/
theorem step_agree (h : Caches c m) (op : DiskOp) :
    Agree (fun c m => Caches c m ∧ (op = .bufWriteback →
      flatten c.disk = m ∧ ∀ i, (c.buf i).dirty = false)) (step c op) (m.step op) := by
  cases op with
  | ideRead offset len =>
      obtain ⟨hbytes, hrest⟩ := ideRead_spec h offset len
      show Agree _ (.ok (ideRead c offset len)) (.ok (m.read offset len, m))
      rw [← hbytes]
      exact .ok ⟨hrest, nofun⟩
  | ideWrite buf offset len => exact .ok ⟨ideWrite_spec h buf offset len, nofun⟩
  | bufWriteback =>
      obtain ⟨hrest, hdisk⟩ := bufWriteback_spec h
      exact .ok ⟨hrest, fun _ => hdisk⟩

end Calls

theorem caches_init (disk : BitVec 32 → Sector) :
    Caches (bufInit (staticBuf disk)) (flatten disk) := by
  refine ⟨disk, ?_, rfl⟩
  have hrep : Represents slotOf (bufInit (staticBuf disk)) (bufInit (staticBuf disk)).disk :=
    represents_unused (fun _ => rfl) (fun _ => rfl)
  exact hrep

/-- **Sector cache.** From `buf_init` on, every run completes and answers as on a flat disk
    that holds what the disk held at the start; and where the last call is `buf_writeback`,
    the disk itself holds what the flat disk does, and no slot is dirty. -/
theorem run_refines_disk (disk : BitVec 32 → Sector) (ops : List DiskOp) :
    ∃ answers c m, run step (bufInit (staticBuf disk)) ops = .ok (answers, c) ∧
      run FlatDisk.step (flatten disk) ops = .ok (answers, m) ∧ Caches c m ∧
      (ops.getLast? = some .bufWriteback →
        flatten c.disk = m ∧ ∀ i, (c.buf i).dirty = false) := by
  have hstep : ∀ c m op, Caches c m → Agree (fun c m => Caches c m ∧ (op = .bufWriteback →
      flatten c.disk = m ∧ ∀ i, (c.buf i).dirty = false)) (step c op) (m.step op) :=
    fun c m op h => step_agree h op
  have htotal : ∀ (m : FlatDisk) op, ∃ o m', m.step op = .ok (o, m') := by
    intro m op
    cases op <;> exact ⟨_, _, rfl⟩
  obtain ⟨answers, m, hflat⟩ := run_total htotal ops (flatten disk)
  have h := run_agree_last hstep ops _ _ (caches_init disk)
  rw [hflat] at h
  generalize run step (bufInit (staticBuf disk)) ops = x at h ⊢
  cases h with
  | ok hR => exact ⟨answers, _, m, rfl, hflat, hR.1, fun hlast => hR.2 _ hlast rfl⟩

end Nemu.Kernel
