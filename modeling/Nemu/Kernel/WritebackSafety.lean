/-
  Nemu.Kernel.WritebackSafety

  Is the timer handler safe between any two statements of the sector cache?

  A miss on a dirty slot reads the new sector into `content` while `dirty` is
  still set and `sector` still names the old one.  A write-back in that window
  puts the new sector's bytes over the old sector.  `Inv` says, statement by
  statement, what holds otherwise; `safe_iff` and `diskSafe_iff` say exactly
  which runs are right.
-/

import Nemu.Kernel.Interleaving
import Nemu.Kernel.SectorCache

namespace Nemu.Kernel

open BlockCache

namespace Machine

/-! ## The property -/

/-- Every dirty slot holds the data of the sector it names. -/
def Coherent (m : Machine) : Prop :=
  ∀ i, (m.cache.buf i).dirty = true → (m.cache.buf i).content = m.data (m.cache.buf i).sector

/-- No byte is lost: the data of every sector is on disk, or in a slot that is dirty or is
    marked so by the next statement. -/
def Kept (m : Machine) : Prop :=
  ∀ k, m.cache.disk k = m.data k ∨
    ∃ i, (m.cache.buf i).sector = k ∧ (m.cache.buf i).content = m.data k ∧
      ((m.cache.buf i).dirty = true ∨ ∃ f, m.pc = some (.setDirty, f) ∧ f.ptr = i)

/-- What the disk receives in the step are the data of the sector it is written to. -/
def WritesOwn (m : Machine) : Event → Prop
  | .call .. => True
  | .stmt => ∀ f, m.pc = some (.writeBack, f) → (m.slot f).content = m.data (m.slot f).sector
  | .timer => m.flushes = true → m.Coherent

/-- A relation between a state and the event that happens in it, at every step of a run. -/
def Always (P : Machine → Event → Prop) : Machine → List Event → Prop
  | _, [] => True
  | m, e :: es => P m e ∧ Always P (m.step e) es

/-- A property of every state of a run, the last one included. -/
def Throughout (P : Machine → Prop) : Machine → List Event → Prop
  | m, [] => P m
  | m, e :: es => P m ∧ Throughout P (m.step e) es

/-- The disk receives only what belongs there, and nothing is lost. -/
def DiskSafe (m : Machine) (es : List Event) : Prop :=
  Always WritesOwn m es ∧ Throughout Kept m es

/-- The same, and at every point dirty slots hold what they name. -/
def Safe (m : Machine) (es : List Event) : Prop :=
  DiskSafe m es ∧ Throughout Coherent m es

/-- No sector is read into a slot still marked dirty for another one, unless both hold the
    same. -/
def LoadsClean (m : Machine) (e : Event) : Prop :=
  e = .stmt → ∀ f, m.pc = some (.diskRead, f) → (m.slot f).dirty = true →
    m.cache.disk f.sector = m.data (m.slot f).sector

/-- No write-back between `disk_do_read` and `ptr->sector = sector` of a miss on a dirty slot,
    unless it makes no difference. -/
def FlushesAside (m : Machine) (e : Event) : Prop :=
  e = .timer → m.flushes = true → ∀ f,
    (m.pc = some (.setUsed, f) ∨ m.pc = some (.setSector, f)) → (m.slot f).dirty = true →
      (m.slot f).content = m.data (m.slot f).sector

/-! ## The invariant -/

/-- The locals of a call are those `buf_fetch` computed. -/
structure Located (f : Frame) : Prop where
  sector : f.sector = sectorOf f.offset
  ptr : f.ptr = slotOf f.sector

/-- The slot holds the sector of the call. -/
structure Fetched (c : SectorCache) (f : Frame) : Prop where
  located : Located f
  used : (c.buf f.ptr).used = true
  sector : (c.buf f.ptr).sector = f.sector

/-- Between `disk_do_read` and `ptr->sector = sector`: the slot has the new sector's bytes,
    every sector that belongs there is on disk, and all else is right. -/
structure Refilled (c : SectorCache) (d : BitVec 32 → Sector) (f : Frame) : Prop where
  located : Located f
  others : ∀ i, i ≠ f.ptr → SlotRight slotOf d i (c.buf i)
  stored : ∀ k, slotOf k ≠ f.ptr → Stored slotOf c d k
  evicted : Evicted slotOf c d f.ptr
  content : (c.buf f.ptr).content = d f.sector
  placed : (c.buf f.ptr).dirty = true → slotOf (c.buf f.ptr).sector = f.ptr

/-- What holds of cache and data before each statement. -/
def InvAt (c : SectorCache) (d : BitVec 32 → Sector) : Option (Stmt × Frame) → Prop
  | none => Represents slotOf c d
  | some (.sector, _) => Represents slotOf c d
  | some (.ptr, f) => Represents slotOf c d ∧ f.sector = sectorOf f.offset
  | some (.hitTest, f) => Represents slotOf c d ∧ Located f
  | some (.dirtyTest, f) => Represents slotOf c d ∧ Located f
  | some (.writeBack, f) => Represents slotOf c d ∧ Located f ∧ (c.buf f.ptr).used = true
  | some (.diskRead, f) => Represents slotOf c d ∧ Located f ∧ Evicted slotOf c d f.ptr
  | some (.setUsed, f) => Refilled c d f
  | some (.setSector, f) => Refilled c d f ∧ (c.buf f.ptr).used = true
  | some (.clearDirty, f) => Represents slotOf c d ∧ Fetched c f ∧ Evicted slotOf c d f.ptr
  | some (.content, f) => Represents slotOf c d ∧ Fetched c f
  | some (.setDirty, f) =>
      (∀ i, SlotRight slotOf d i (c.buf i)) ∧ (∀ k, k ≠ f.sector → Stored slotOf c d k) ∧
      Fetched c f

def Inv (m : Machine) : Prop := InvAt m.cache m.data m.pc

theorem inv_start (disk : BitVec 32 → Sector) : (start disk).Inv := by
  have hrep : Represents slotOf (bufInit (staticBuf disk)) (bufInit (staticBuf disk)).disk :=
    represents_unused (fun _ => rfl) (fun _ => rfl)
  exact hrep

/-! ## One statement -/

section Exec

variable {m : Machine} {f : Frame}

theorem inv_hitTest (h : InvAt m.cache m.data (some (.hitTest, f))) : (m.exec f .hitTest).Inv := by
  obtain ⟨hrep, hloc⟩ := h
  show (ite _ (m.goto .content f) (m.goto .dirtyTest f)).Inv
  split
  · next hhit => exact ⟨hrep, hloc, hhit.1, hhit.2⟩
  · exact ⟨hrep, hloc⟩

theorem inv_dirtyTest (h : InvAt m.cache m.data (some (.dirtyTest, f))) : (m.exec f .dirtyTest).Inv := by
  obtain ⟨hrep, hloc⟩ := h
  show (ite _ (m.goto .writeBack f) (m.goto .diskRead f)).Inv
  split
  · next hdirty => exact ⟨hrep, hloc, hdirty.1⟩
  · next hclean =>
      -- what is not in use is not dirty, so nothing has to be written
      refine ⟨hrep, hloc, hrep.evicted fun hd => ?_⟩
      exact absurd ⟨(hrep.slot f.ptr).used hd, hd⟩ hclean

theorem inv_writeBack (h : InvAt m.cache m.data (some (.writeBack, f))) : (m.exec f .writeBack).Inv := by
  obtain ⟨hrep, hloc, hused⟩ := h
  have hw : Represents slotOf (diskDoWrite m.cache (m.slot f).content (m.slot f).sector) m.data :=
    hrep.writeBack hused
  refine ⟨hw, hloc, hw.evicted fun _ => ?_⟩
  show (m.cache.writeDisk (m.slot f).sector (m.slot f).content).disk (m.slot f).sector = _
  rw [Cache.writeDisk_same]
  exact ((hrep.slot f.ptr).holds hused).2

/-- An assignment to the slot that leaves it the new sector's bytes. -/
theorem refilled_setSlot {c : SectorCache} {d : BitVec 32 → Sector} {s : SectorBuf}
    (hloc : Located f) (hothers : ∀ i, i ≠ f.ptr → SlotRight slotOf d i (c.buf i))
    (hstored : ∀ k, slotOf k ≠ f.ptr → Stored slotOf c d k) (hev : Evicted slotOf c d f.ptr)
    (hcontent : s.content = d f.sector) (hplaced : s.dirty = true → slotOf s.sector = f.ptr) :
    Refilled (c.setSlot f.ptr s) d f := by
  refine ⟨hloc, ?_, ?_, hev, ?_, ?_⟩
  · intro i hi
    rw [Cache.setSlot_ne _ _ hi]
    exact hothers i hi
  · intro k hk
    unfold Stored
    rw [Cache.setSlot_ne _ _ hk]
    exact hstored k hk
  · rw [Cache.setSlot_same]
    exact hcontent
  · rw [Cache.setSlot_same]
    exact hplaced

theorem inv_diskRead (h : InvAt m.cache m.data (some (.diskRead, f))) : (m.exec f .diskRead).Inv := by
  obtain ⟨hrep, hloc, hev⟩ := h
  apply refilled_setSlot hloc (fun i _ => hrep.slot i) (fun k _ => hrep.stored k) hev
  · exact hev f.sector hloc.ptr.symm
  · exact fun hd => hrep.placed f.ptr hd

theorem inv_setUsed (h : InvAt m.cache m.data (some (.setUsed, f))) : (m.exec f .setUsed).Inv := by
  refine ⟨refilled_setSlot h.located h.others h.stored h.evicted h.content h.placed, ?_⟩
  show ((m.cache.setSlot f.ptr _).buf f.ptr).used = true
  rw [Cache.setSlot_same]

theorem inv_setSector (h : InvAt m.cache m.data (some (.setSector, f))) : (m.exec f .setSector).Inv := by
  obtain ⟨hre, hused⟩ := h
  have hre' : Refilled (m.cache.setSlot f.ptr { m.slot f with sector := f.sector }) m.data f :=
    refilled_setSlot hre.located hre.others hre.stored hre.evicted hre.content
      fun _ => hre.located.ptr.symm
  have hslot : (m.cache.setSlot f.ptr { m.slot f with sector := f.sector }).buf f.ptr
      = { m.slot f with sector := f.sector } := Cache.setSlot_same ..
  refine ⟨⟨?_, ?_⟩, ⟨hre.located, ?_, ?_⟩, hre'.evicted⟩
  · -- now the slot names the sector whose bytes it has
    intro i
    by_cases hi : i = f.ptr
    · subst hi
      have hright : SlotRight slotOf m.data f.ptr { m.slot f with sector := f.sector } :=
        ⟨fun _ => hused, fun _ => ⟨hre.located.ptr.symm, hre.content⟩⟩
      rw [← hslot] at hright
      exact hright
    · exact hre'.others i hi
  · intro k
    by_cases hk : slotOf k = f.ptr
    · exact .inl (hre'.evicted k hk)
    · exact hre'.stored k hk
  · show ((m.cache.setSlot f.ptr { m.slot f with sector := f.sector }).buf f.ptr).used = true
    rw [hslot]
    exact hused
  · show ((m.cache.setSlot f.ptr { m.slot f with sector := f.sector }).buf f.ptr).sector = f.sector
    rw [hslot]

theorem inv_clearDirty (h : InvAt m.cache m.data (some (.clearDirty, f))) : (m.exec f .clearDirty).Inv := by
  obtain ⟨hrep, ⟨hloc, hused, hsector⟩, hev⟩ := h
  have hfill := hrep.load hloc.ptr.symm hev
  have hsame : ({ m.slot f with dirty := false } : SectorBuf)
      = { sector := f.sector, used := true, dirty := false, content := m.cache.disk f.sector } := by
    have hcontent := ((hrep.slot f.ptr).holds hused).2
    rw [hsector, ← hev f.sector hloc.ptr.symm] at hcontent
    show Slot.mk (m.cache.buf f.ptr).sector (m.cache.buf f.ptr).used false
      (m.cache.buf f.ptr).content = _
    rw [hsector, hused, hcontent]
  have hslot : (m.cache.setSlot f.ptr { m.slot f with dirty := false }).buf f.ptr
      = { m.slot f with dirty := false } := Cache.setSlot_same ..
  refine ⟨?_, hloc, ?_, ?_⟩
  · show Represents slotOf (m.cache.setSlot f.ptr { m.slot f with dirty := false }) m.data
    rw [hsame]
    exact hfill
  · show ((m.cache.setSlot f.ptr { m.slot f with dirty := false }).buf f.ptr).used = true
    rw [hslot]
    exact hused
  · show ((m.cache.setSlot f.ptr { m.slot f with dirty := false }).buf f.ptr).sector = f.sector
    rw [hslot]
    exact hsector

/-- A sector other than the one in the slot does not depend on the slot's dirty flag. -/
theorem Stored.setSlot {c : SectorCache} {d : BitVec 32 → Sector} {k : BitVec 32} {s : SectorBuf}
    (h : Stored slotOf c d k) (hne : (c.buf f.ptr).sector ≠ k) :
    Stored slotOf (c.setSlot f.ptr s) d k := by
  by_cases hk : slotOf k = f.ptr
  · refine .inl (h.resolve_right ?_)
    rw [hk]
    exact fun hheld => hne hheld.2
  · unfold Stored
    rw [Cache.setSlot_ne _ _ hk]
    exact h

theorem inv_content (h : InvAt m.cache m.data (some (.content, f))) : (m.exec f .content).Inv := by
  obtain ⟨hrep, hloc, hused, hsector⟩ := h
  unfold exec
  cases f.access with
  | read => exact hrep
  | write b =>
      have hslot : ∀ s, (m.cache.setSlot f.ptr s).buf f.ptr = s := fun s => Cache.setSlot_same ..
      have hcontent : (m.slot f).content = m.data (sectorOf f.offset) := by
        rw [← hloc.sector, ← hsector]
        exact ((hrep.slot f.ptr).holds hused).2
      have hdata : ∀ k, k ≠ f.sector → setByte m.data f.offset b k = m.data k := by
        intro k hk
        rw [hloc.sector] at hk
        exact Function.update_of_ne hk ..
      refine ⟨?_, ?_, hloc, ?_, ?_⟩
      · intro i
        by_cases hi : i = f.ptr
        · subst hi
          show SlotRight slotOf (setByte m.data f.offset b) f.ptr
            ((m.cache.setSlot f.ptr _).buf f.ptr)
          rw [hslot]
          refine ⟨fun _ => hused, fun _ => ⟨((hrep.slot f.ptr).holds hused).1, ?_⟩⟩
          show Function.update (m.slot f).content (byteOf f.offset) b
            = setByte m.data f.offset b (m.cache.buf f.ptr).sector
          rw [hcontent, hsector, hloc.sector, setByte, Function.update_self]
        · show SlotRight slotOf (setByte m.data f.offset b) i ((m.cache.setSlot f.ptr _).buf i)
          rw [Cache.setSlot_ne _ _ hi]
          refine ⟨(hrep.slot i).used, fun hu => ⟨((hrep.slot i).holds hu).1, ?_⟩⟩
          -- another slot holds another sector
          have hne : (m.cache.buf i).sector ≠ f.sector := by
            intro hc
            have hplace := ((hrep.slot i).holds hu).1
            rw [hc, ← hloc.ptr] at hplace
            exact hi hplace.symm
          rw [hdata _ hne]
          exact ((hrep.slot i).holds hu).2
      · intro k hk
        have hkeep : Stored slotOf (m.cache.setSlot f.ptr
            { m.slot f with content := Function.update (m.slot f).content (byteOf f.offset) b })
            m.data k :=
          Stored.setSlot (hrep.stored k) (fun hc => hk (hc.symm.trans hsector))
        unfold Stored at hkeep ⊢
        rw [← hdata k hk] at hkeep
        exact hkeep
      · show ((m.cache.setSlot f.ptr _).buf f.ptr).used = true
        rw [hslot]
        exact hused
      · show ((m.cache.setSlot f.ptr _).buf f.ptr).sector = f.sector
        rw [hslot]
        exact hsector

theorem inv_setDirty (h : InvAt m.cache m.data (some (.setDirty, f))) :
    (m.exec f .setDirty).Inv := by
  obtain ⟨hslots, hstored, hloc, hused, hsector⟩ := h
  have hslot : ∀ s, (m.cache.setSlot f.ptr s).buf f.ptr = s := fun s => Cache.setSlot_same ..
  refine ⟨?_, ?_⟩
  · intro i
    by_cases hi : i = f.ptr
    · subst hi
      show SlotRight slotOf m.data f.ptr ((m.cache.setSlot f.ptr _).buf f.ptr)
      rw [hslot]
      exact ⟨fun _ => hused, (hslots f.ptr).holds⟩
    · show SlotRight slotOf m.data i ((m.cache.setSlot f.ptr _).buf i)
      rw [Cache.setSlot_ne _ _ hi]
      exact hslots i
  · intro k
    by_cases hk : k = f.sector
    · -- the sector just written is the one that the slot now holds dirty
      subst hk
      refine .inr ?_
      show ((m.cache.setSlot f.ptr _).buf (slotOf f.sector)).dirty = true ∧
        ((m.cache.setSlot f.ptr _).buf (slotOf f.sector)).sector = f.sector
      rw [← hloc.ptr, hslot]
      exact ⟨rfl, hsector⟩
    · exact Stored.setSlot (hstored k hk) (fun hc => hk (hc.symm.trans hsector))

/-- Every statement keeps the invariant. -/
theorem inv_exec (stmt : Stmt) (h : InvAt m.cache m.data (some (stmt, f))) :
    (m.exec f stmt).Inv := by
  cases stmt with
  | sector => exact ⟨h, rfl⟩
  | ptr => exact ⟨h.1, h.2, rfl⟩
  | hitTest => exact inv_hitTest h
  | dirtyTest => exact inv_dirtyTest h
  | writeBack => exact inv_writeBack h
  | diskRead => exact inv_diskRead h
  | setUsed => exact inv_setUsed h
  | setSector => exact inv_setSector h
  | clearDirty => exact inv_clearDirty h
  | content => exact inv_content h
  | setDirty => exact inv_setDirty h

end Exec

/-! ## What the invariant says in every state -/

section States

variable {c : SectorCache} {d : BitVec 32 → Sector} {pc : Option (Stmt × Frame)}

/-- The slot a miss is filling: its content and its name do not belong together. -/
def Filling (pc : Option (Stmt × Frame)) (i : Fin NR_SEC_BUF) : Prop :=
  ∃ f : Frame, (pc = some (.setUsed, f) ∨ pc = some (.setSector, f)) ∧ f.ptr = i

/-- Every slot but that one is right. -/
theorem InvAt.slot (h : InvAt c d pc) (i : Fin NR_SEC_BUF) (hi : ¬ Filling pc i) :
    SlotRight slotOf d i (c.buf i) := by
  match pc with
  | none => exact Represents.slot h i
  | some (stmt, f) =>
      cases stmt with
      | sector => exact Represents.slot h i
      | ptr | hitTest | dirtyTest | writeBack | diskRead | clearDirty | content =>
          exact h.1.slot i
      | setUsed => exact h.others i fun hc => hi ⟨f, .inl rfl, hc.symm⟩
      | setSector => exact h.1.others i fun hc => hi ⟨f, .inr rfl, hc.symm⟩
      | setDirty => exact h.1 i

theorem InvAt.placed (h : InvAt c d pc) : c.Placed slotOf := by
  intro i hd
  by_cases hi : Filling pc i
  · obtain ⟨f, rfl | rfl, rfl⟩ := hi
    · exact h.placed hd
    · exact h.1.placed hd
  · have hright := h.slot i hi
    exact (hright.holds (hright.used hd)).1

/-- Every sector is stored, but for the one whose slot the next statement marks dirty. -/
theorem InvAt.stored (h : InvAt c d pc) (k : BitVec 32)
    (hk : ∀ f, pc = some (.setDirty, f) → k ≠ f.sector) : Stored slotOf c d k := by
  have hrefilled : ∀ f, Refilled c d f → Stored slotOf c d k := by
    intro f hre
    by_cases hf : slotOf k = f.ptr
    · exact .inl (hre.evicted k hf)
    · exact hre.stored k hf
  match pc with
  | none => exact Represents.stored h k
  | some (stmt, f) =>
      cases stmt with
      | sector => exact Represents.stored h k
      | ptr | hitTest | dirtyTest | writeBack | diskRead | clearDirty | content =>
          exact h.1.stored k
      | setUsed => exact hrefilled f h
      | setSector => exact hrefilled f h.1
      | setDirty => exact h.2.1 k (hk f rfl)

/-- The slot being filled belongs to sectors that are all on disk. -/
theorem InvAt.evicted (h : InvAt c d pc) {i : Fin NR_SEC_BUF} (hi : Filling pc i) :
    Evicted slotOf c d i := by
  obtain ⟨f, rfl | rfl, rfl⟩ := hi
  · exact Refilled.evicted h
  · exact h.1.evicted

end States

section Machine

variable {m : Machine}

/-- The slot being filled is clean, or holds what it names after all. -/
def FillsClean (m : Machine) : Prop :=
  ∀ i, Filling m.pc i → (m.cache.buf i).dirty = true →
    (m.cache.buf i).content = m.data (m.cache.buf i).sector

theorem Inv.coherent (h : m.Inv) (hfill : m.FillsClean) : m.Coherent := by
  intro i hd
  by_cases hi : Filling m.pc i
  · exact hfill i hi hd
  · have hright := InvAt.slot h i hi
    exact (hright.holds (hright.used hd)).2

theorem Inv.kept (h : m.Inv) : m.Kept := by
  intro k
  by_cases hpc : ∃ f, m.pc = some (.setDirty, f) ∧ k = f.sector
  · -- the byte has been written, and the slot is about to be marked
    obtain ⟨f, hpc, rfl⟩ := hpc
    have hat : InvAt m.cache m.data (some (.setDirty, f)) := by
      rw [← hpc]
      exact h
    obtain ⟨hslots, -, -, hused, hsector⟩ := hat
    refine .inr ⟨f.ptr, hsector, ?_, .inr ⟨f, hpc, rfl⟩⟩
    rw [← hsector]
    exact ((hslots f.ptr).holds hused).2
  · rcases InvAt.stored h k (fun f hf hk => hpc ⟨f, hf, hk⟩) with hdisk | ⟨hd, hsector⟩
    · exact .inl hdisk
    · by_cases hi : Filling m.pc (slotOf k)
      · exact .inl (InvAt.evicted h hi k rfl)
      · have hright := InvAt.slot h _ hi
        have hcontent := (hright.holds (hright.used hd)).2
        rw [hsector] at hcontent
        exact .inr ⟨slotOf k, hsector, hcontent, .inl hd⟩

/-! ## The handler -/

-- a write-back cleans every slot and leaves the rest of it alone
theorem bufWriteback_slot (c : SectorCache) (i : Fin NR_SEC_BUF) :
    (bufWriteback c).buf i = { c.buf i with dirty := false } := by
  rw [bufWriteback_eq, Cache.flush_buf, if_pos (List.mem_finRange i)]

theorem Fetched.afterWriteback {c : SectorCache} {f : Frame} (h : Fetched c f) :
    Fetched (bufWriteback c) f := by
  refine ⟨h.located, ?_, ?_⟩
  · rw [bufWriteback_slot]
    exact h.used
  · rw [bufWriteback_slot]
    exact h.sector

/-- Where the dirty slots hold what they name, a write-back keeps the invariant. -/
theorem InvAt.afterWriteback {c : SectorCache} {d : BitVec 32 → Sector}
    {pc : Option (Stmt × Frame)} (h : InvAt c d pc)
    (hright : ∀ i, (c.buf i).dirty = true → (c.buf i).content = d (c.buf i).sector) :
    InvAt (bufWriteback c) d pc := by
  have hdisk : ∀ k, Stored slotOf c d k → (bufWriteback c).disk k = d k := by
    intro k hk
    rw [bufWriteback_eq]
    exact hk.flush h.placed hright List.mem_finRange
  have hrep : Represents slotOf c d → Represents slotOf (bufWriteback c) d := by
    intro hr
    rw [bufWriteback_eq]
    exact hr.flush _
  have hev : ∀ i, Evicted slotOf c d i → Evicted slotOf (bufWriteback c) d i :=
    fun i he k hk => hdisk k (.inl (he k hk))
  have hslot : ∀ i, SlotRight slotOf d i (c.buf i) →
      SlotRight slotOf d i ((bufWriteback c).buf i) := by
    intro i hi
    rw [bufWriteback_slot]
    exact hi.clean
  have hrefilled : ∀ f, Refilled c d f → Refilled (bufWriteback c) d f := by
    intro f hre
    refine ⟨hre.located, fun i hi => hslot i (hre.others i hi),
      fun k hk => .inl (hdisk k (hre.stored k hk)), hev _ hre.evicted, ?_, ?_⟩
    · rw [bufWriteback_slot]
      exact hre.content
    · rw [bufWriteback_slot]
      exact nofun
  match pc with
  | none => exact hrep h
  | some (stmt, f) =>
      cases stmt with
      | sector => exact hrep h
      | ptr => exact ⟨hrep h.1, h.2⟩
      | hitTest => exact ⟨hrep h.1, h.2⟩
      | dirtyTest => exact ⟨hrep h.1, h.2⟩
      | writeBack =>
          refine ⟨hrep h.1, h.2.1, ?_⟩
          rw [bufWriteback_slot]
          exact h.2.2
      | diskRead => exact ⟨hrep h.1, h.2.1, hev _ h.2.2⟩
      | setUsed => exact hrefilled f h
      | setSector =>
          refine ⟨hrefilled f h.1, ?_⟩
          rw [bufWriteback_slot]
          exact h.2
      | clearDirty => exact ⟨hrep h.1, h.2.1.afterWriteback, hev _ h.2.2⟩
      | content => exact ⟨hrep h.1, h.2.afterWriteback⟩
      | setDirty =>
          exact ⟨fun i => hslot i (h.1 i), fun k hk => .inl (hdisk k (h.2.1 k hk)),
            h.2.2.afterWriteback⟩

theorem ideWriteback_flushes {m : Machine} (h : m.flushes = true) :
    m.ideWriteback = { m with cache := bufWriteback m.cache, counter := 0 } :=
  if_pos (beq_iff_eq.mp h)

theorem ideWriteback_ticks {m : Machine} (h : ¬ m.flushes = true) :
    m.ideWriteback = { m with counter := m.counter + 1 } :=
  if_neg fun hc => h (beq_iff_eq.mpr hc)

-- a call starts when no other is running, and a statement runs when one is
theorem step_call_idle {m : Machine} (hpc : m.pc = none) (access : Access) (offset : BitVec 32) :
    m.step (.call access offset)
      = m.goto .sector
          { access := access, offset := offset, sector := 0, ptr := slotOf 0 } := by
  rw [step, hpc]

theorem step_call_busy {m : Machine} {p : Stmt × Frame} (hpc : m.pc = some p) (access : Access)
    (offset : BitVec 32) : m.step (.call access offset) = m := by
  rw [step, hpc]

theorem step_stmt_idle {m : Machine} (hpc : m.pc = none) : m.step .stmt = m := by
  rw [step, hpc]

theorem step_stmt {m : Machine} {stmt : Stmt} {f : Frame} (hpc : m.pc = some (stmt, f)) :
    m.step .stmt = m.exec f stmt := by
  rw [step, hpc]

/-- A step that meets the condition on write-backs keeps the invariant. -/
theorem inv_step (h : m.Inv) {e : Event} (he : m.FlushesAside e) : (m.step e).Inv := by
  cases e with
  | call access offset =>
      cases hpc : m.pc with
      | none =>
          rw [step_call_idle hpc]
          have hat : InvAt m.cache m.data none := by
            rw [← hpc]
            exact h
          exact hat
      | some p =>
          rw [step_call_busy hpc]
          exact h
  | stmt =>
      cases hpc : m.pc with
      | none =>
          rw [step_stmt_idle hpc]
          exact h
      | some p =>
          rw [step_stmt hpc]
          have hat : InvAt m.cache m.data (some p) := by
            rw [← hpc]
            exact h
          exact inv_exec p.1 hat
  | timer =>
      show m.ideWriteback.Inv
      by_cases hflush : m.flushes = true
      · have hfill : m.FillsClean := by
          rintro i ⟨f, hpc, rfl⟩ hd
          exact he rfl hflush f hpc hd
        have hat : InvAt m.cache m.data m.pc := h
        have hafter := hat.afterWriteback (Inv.coherent h hfill)
        rw [ideWriteback_flushes hflush, Inv]
        dsimp only
        exact hafter
      · rw [ideWriteback_ticks hflush]
        exact h

/-- Under the invariant, the disk receives in a step only what belongs there, if the step
    meets the condition. -/
theorem writesOwn (h : m.Inv) {e : Event} (he : m.FlushesAside e) : m.WritesOwn e := by
  cases e with
  | call access offset => trivial
  | stmt =>
      intro f hpc
      have hat : InvAt m.cache m.data (some (.writeBack, f)) := by
        rw [← hpc]
        exact h
      exact ((hat.1.slot f.ptr).holds hat.2.2).2
  | timer =>
      intro hflush
      apply Inv.coherent h
      rintro i ⟨f, hpc, rfl⟩ hd
      exact he rfl hflush f hpc hd

end Machine

/-! ## Runs -/

section Runs

theorem diskSafe_of_flushesAside (es : List Event) : ∀ {m : Machine}, m.Inv →
    m.Always FlushesAside es → m.DiskSafe es := by
  induction es with
  | nil => exact fun h _ => ⟨trivial, Inv.kept h⟩
  | cons e es ih =>
      intro m h hall
      obtain ⟨howns, hkept⟩ := ih (inv_step h hall.1) hall.2
      exact ⟨⟨writesOwn h hall.1, howns⟩, Inv.kept h, hkept⟩

theorem flushesAside_of_writesOwn (es : List Event) : ∀ {m : Machine},
    m.Always WritesOwn es → m.Always FlushesAside es := by
  induction es with
  | nil => exact fun _ => trivial
  | cons e es ih =>
      rintro m ⟨howns, hrest⟩
      refine ⟨?_, ih hrest⟩
      rintro rfl hflush f - hd
      exact howns hflush f.ptr hd

/-- While the slot being filled is clean, every write-back is aside. -/
theorem FillsClean.flushesAside {m : Machine} (h : m.FillsClean) (e : Event) : m.FlushesAside e :=
  fun _ _ f hpc hd => h f.ptr ⟨f, hpc, rfl⟩ hd

-- no slot is being filled at a statement other than these two
theorem not_filling {pc : Option (Stmt × Frame)} {i : Fin NR_SEC_BUF}
    (h : ∀ f, pc ≠ some (.setUsed, f) ∧ pc ≠ some (.setSector, f)) : ¬ Filling pc i := by
  rintro ⟨f, hpc | hpc, -⟩
  · exact (h f).1 hpc
  · exact (h f).2 hpc

-- these are reached from the two statements before them only
theorem exec_pc_ne (m : Machine) (f g : Frame) {stmt : Stmt} (hread : stmt ≠ .diskRead)
    (hused : stmt ≠ .setUsed) :
    (m.exec f stmt).pc ≠ some (.setUsed, g) ∧ (m.exec f stmt).pc ≠ some (.setSector, g) := by
  cases stmt with
  | diskRead => exact absurd rfl hread
  | setUsed => exact absurd rfl hused
  | hitTest | dirtyTest =>
      simp only [exec]
      split <;> simp [goto]
  | content =>
      simp only [exec]
      cases f.access <;> simp [goto]
  | sector | ptr | writeBack | setSector | clearDirty | setDirty =>
      simp [exec, goto]

theorem fillsClean_exec {m : Machine} {stmt : Stmt} {f : Frame} (hpc : m.pc = some (stmt, f))
    (h : m.FillsClean) (he : m.LoadsClean .stmt) : (m.exec f stmt).FillsClean := by
  have hslot : ∀ s, (m.cache.setSlot f.ptr s).buf f.ptr = s := fun s => Cache.setSlot_same ..
  cases stmt with
  | diskRead =>
      rintro i ⟨g, hg | hg, rfl⟩
      · -- the content is now that of the new sector
        cases hg
        show ((m.cache.setSlot f.ptr _).buf f.ptr).dirty = true →
          ((m.cache.setSlot f.ptr _).buf f.ptr).content
            = m.data ((m.cache.setSlot f.ptr _).buf f.ptr).sector
        rw [hslot]
        exact fun hd => he rfl f hpc hd
      · cases hg
  | setUsed =>
      rintro i ⟨g, hg | hg, rfl⟩
      · cases hg
      · cases hg
        show ((m.cache.setSlot f.ptr _).buf f.ptr).dirty = true →
          ((m.cache.setSlot f.ptr _).buf f.ptr).content
            = m.data ((m.cache.setSlot f.ptr _).buf f.ptr).sector
        rw [hslot]
        exact fun hd => h f.ptr ⟨f, .inl hpc, rfl⟩ hd
  | sector | ptr | hitTest | dirtyTest | writeBack | setSector | clearDirty | content | setDirty =>
      intro i hi
      exact absurd hi (not_filling fun g => exec_pc_ne m f g nofun nofun)

theorem fillsClean_step {m : Machine} (h : m.FillsClean) {e : Event} (he : m.LoadsClean e) :
    (m.step e).FillsClean := by
  cases e with
  | call access offset =>
      cases hpc : m.pc with
      | none =>
          rw [step_call_idle hpc]
          -- the call stands at its first statement
          rintro i ⟨g, hg | hg, -⟩
          · cases hg
          · cases hg
      | some p =>
          rw [step_call_busy hpc]
          exact h
  | stmt =>
      cases hpc : m.pc with
      | none =>
          rw [step_stmt_idle hpc]
          exact h
      | some p =>
          rw [step_stmt hpc]
          exact fillsClean_exec hpc h he
  | timer =>
      show m.ideWriteback.FillsClean
      by_cases hflush : m.flushes = true
      · rw [ideWriteback_flushes hflush]
        intro i _ hd
        -- a write-back leaves no slot dirty
        dsimp only at hd
        rw [bufWriteback_slot] at hd
        cases hd
      · rw [ideWriteback_ticks hflush]
        exact h

theorem safe_of_loadsClean (es : List Event) : ∀ {m : Machine}, m.Inv → m.FillsClean →
    m.Always LoadsClean es → m.Throughout Coherent es ∧ m.Always FlushesAside es := by
  induction es with
  | nil => exact fun h hfill _ => ⟨Inv.coherent h hfill, trivial⟩
  | cons e es ih =>
      intro m h hfill hall
      have haside := hfill.flushesAside e
      obtain ⟨hcoh, hrest⟩ := ih (inv_step h haside) (fillsClean_step hfill hall.1) hall.2
      exact ⟨⟨Inv.coherent h hfill, hcoh⟩, haside, hrest⟩

theorem throughout_head {P : Machine → Prop} {m : Machine} {es : List Event}
    (h : m.Throughout P es) : P m := by
  cases es with
  | nil => exact h
  | cons e es => exact h.1

theorem loadsClean_of_coherent (es : List Event) : ∀ {m : Machine},
    m.Throughout Coherent es → m.Always LoadsClean es := by
  induction es with
  | nil => exact fun _ => trivial
  | cons e es ih =>
      rintro m ⟨-, hrest⟩
      refine ⟨?_, ih hrest⟩
      rintro rfl f hpc hd
      -- the next state has the new bytes under the old name
      have hnext := throughout_head hrest f.ptr
      have hstep := step_stmt hpc
      have hslot : (m.exec f .diskRead).cache.buf f.ptr
          = { m.slot f with content := m.cache.disk f.sector } := Cache.setSlot_same ..
      rw [hstep, hslot] at hnext
      exact hnext hd

/-- **Interrupt safety.** From `init_ide` on, with the handler between any two statements:
    the disk receives only what belongs there, nothing is lost and every dirty slot holds
    what it names, exactly if no sector is read into a slot still marked dirty; and the first
    two of these hold exactly if no write-back falls between the read and the assignment of
    the sector. -/
theorem safe_iff (disk : BitVec 32 → Sector) (es : List Event) :
    ((start disk).Safe es ↔ (start disk).Always LoadsClean es) ∧
    ((start disk).DiskSafe es ↔ (start disk).Always FlushesAside es) := by
  have hinv := inv_start disk
  have hfill : (start disk).FillsClean := by
    rintro i ⟨f, hpc | hpc, -⟩
    · cases hpc
    · cases hpc
  refine ⟨⟨fun h => loadsClean_of_coherent es h.2, fun h => ?_⟩,
    ⟨fun h => flushesAside_of_writesOwn es h.1, diskSafe_of_flushesAside es hinv⟩⟩
  obtain ⟨hcoh, haside⟩ := safe_of_loadsClean es hinv hfill h
  exact ⟨diskSafe_of_flushesAside es hinv haside, hcoh⟩

-- the state after the events
def run (m : Machine) (es : List Event) : Machine := es.foldl step m

theorem always_at {P : Machine → Event → Prop} {e : Event} {es' : List Event} (es : List Event) :
    ∀ {m : Machine}, m.Always P (es ++ e :: es') → P (m.run es) e := by
  induction es with
  | nil => exact fun h => h.1
  | cons e₀ es ih => exact fun h => ih h.2

end Runs

/-- Byte 0 is written; just before the hundredth tick, sector 128, which has the same slot,
    has been read from disk. -/
def beforeTick : List Event :=
  [.call (.write 1) 0] ++ List.replicate 10 .stmt ++ List.replicate 99 .timer ++
    [.call .read 0x10000] ++ List.replicate 6 .stmt

/-- On that tick the disk receives the bytes of sector 128 as those of sector 0, and the byte
    written there is lost. -/
theorem tick_overwrites_sector :
    ¬ (start fun _ _ => 0).DiskSafe (beforeTick ++ [.timer]) := by
  rintro ⟨howns, -⟩
  have hown := always_at beforeTick howns
  have hflush : ((start fun _ _ => 0).run beforeTick).flushes = true := by decide +kernel
  have hdirty : (((start fun _ _ => 0).run beforeTick).cache.buf (slotOf 0)).dirty = true := by
    decide +kernel
  have hbyte : (((start fun _ _ => 0).run beforeTick).cache.buf (slotOf 0)).content 0
      ≠ ((start fun _ _ => 0).run beforeTick).data
        (((start fun _ _ => 0).run beforeTick).cache.buf (slotOf 0)).sector 0 := by
    decide +kernel
  generalize (start fun _ _ => 0).run beforeTick = m at hown hflush hdirty hbyte
  exact hbyte (congrFun (hown hflush (slotOf 0) hdirty) 0)

end Machine

end Nemu.Kernel
