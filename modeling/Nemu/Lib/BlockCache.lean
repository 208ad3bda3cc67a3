/-
  Nemu.Lib.BlockCache

  A write-back cache of blocks in front of a disk: a table of slots, each of which
  can hold one block of those that `index` maps to it.  Sectors, slots and blocks
  are of any type.

  `Represents` is what such a cache means: cache and disk together stand for the
  contents `d`.  The lemmas say what the steps of a cache keep of it: writing
  slots back, loading a sector into its slot, storing into a slot.
-/

import Mathlib.Logic.Function.Basic

namespace BlockCache

/-- One slot of the table. -/
structure Slot (K B : Type _) where
  sector : K
  used : Bool
  dirty : Bool
  content : B

/-- A disk and the slots in front of it. -/
structure Cache (K I B : Type _) where
  disk : K → B
  buf : I → Slot K B

variable {K I B : Type _} [DecidableEq K] [DecidableEq I]

namespace Cache

/-! ## Assignments -/

def setSlot (c : Cache K I B) (i : I) (s : Slot K B) : Cache K I B :=
  { c with buf := Function.update c.buf i s }

def writeDisk (c : Cache K I B) (k : K) (b : B) : Cache K I B :=
  { c with disk := Function.update c.disk k b }

section Fields

variable (c : Cache K I B) (i j : I) (k l : K) (s : Slot K B) (b : B)

omit [DecidableEq K] in
@[simp] theorem setSlot_disk : (c.setSlot i s).disk = c.disk := rfl

omit [DecidableEq K] in
@[simp] theorem setSlot_same : (c.setSlot i s).buf i = s := Function.update_self ..

omit [DecidableEq K] in
theorem setSlot_ne {i j : I} (h : j ≠ i) : (c.setSlot i s).buf j = c.buf j :=
  Function.update_of_ne h ..

omit [DecidableEq K] in
@[simp] theorem setSlot_setSlot (t : Slot K B) : (c.setSlot i s).setSlot i t = c.setSlot i t := by
  rw [setSlot, setSlot, setSlot, Function.update_idem]

omit [DecidableEq I] in
@[simp] theorem writeDisk_buf : (c.writeDisk k b).buf = c.buf := rfl

omit [DecidableEq I] in
@[simp] theorem writeDisk_same : (c.writeDisk k b).disk k = b := Function.update_self ..

omit [DecidableEq I] in
theorem writeDisk_ne {k l : K} (h : l ≠ k) : (c.writeDisk k b).disk l = c.disk l :=
  Function.update_of_ne h ..

end Fields

/-! ## Writing back -/

/-- Write slot `i` back if it is dirty. -/
def flushSlot (c : Cache K I B) (i : I) : Cache K I B :=
  if (c.buf i).dirty = true then
    (c.writeDisk (c.buf i).sector (c.buf i).content).setSlot i { c.buf i with dirty := false }
  else c

/-- Write the slots of the list back, one after the other. -/
def flush (c : Cache K I B) (l : List I) : Cache K I B := l.foldl flushSlot c

/-- A dirty slot holds a sector that belongs into it. -/
def Placed (index : K → I) (c : Cache K I B) : Prop :=
  ∀ i, (c.buf i).dirty = true → index (c.buf i).sector = i

theorem flushSlot_same (c : Cache K I B) (i : I) :
    (c.flushSlot i).buf i = { c.buf i with dirty := false } := by
  unfold flushSlot
  by_cases h : (c.buf i).dirty = true
  · rw [if_pos h, setSlot_same]
  · rw [if_neg h]
    rw [Bool.not_eq_true] at h
    rw [← h]

theorem flushSlot_ne (c : Cache K I B) {i j : I} (h : j ≠ i) : (c.flushSlot i).buf j = c.buf j := by
  unfold flushSlot
  split
  · rw [setSlot_ne _ _ h, writeDisk_buf]
  · rfl

theorem flush_buf (l : List I) (c : Cache K I B) (i : I) :
    (c.flush l).buf i = if i ∈ l then { c.buf i with dirty := false } else c.buf i := by
  induction l generalizing c with
  | nil => rfl
  | cons j l ih =>
      show ((c.flushSlot j).flush l).buf i = _
      rw [ih]
      by_cases hj : i = j
      · subst hj
        rw [flushSlot_same, if_pos (List.mem_cons_self ..), ite_self]
      · rw [flushSlot_ne c hj]
        simp only [List.mem_cons, hj, false_or]

section Placed

variable {index : K → I} {c : Cache K I B}

theorem Placed.flushSlot (h : Placed index c) (i : I) : Placed index (c.flushSlot i) := by
  intro j hj
  by_cases hji : j = i
  · subst hji
    rw [flushSlot_same] at hj
    exact nomatch hj
  · rw [flushSlot_ne c hji] at hj ⊢
    exact h j hj

/-- Writing one slot back reaches no sector but the one it holds. -/
theorem Placed.flushSlot_disk (h : Placed index c) (i : I) (k : K) :
    (c.flushSlot i).disk k =
      if index k = i ∧ (c.buf i).dirty = true ∧ (c.buf i).sector = k then (c.buf i).content
      else c.disk k := by
  unfold Cache.flushSlot
  by_cases hd : (c.buf i).dirty = true
  · rw [if_pos hd, setSlot_disk]
    by_cases hk : (c.buf i).sector = k
    · subst hk
      rw [writeDisk_same, if_pos ⟨h i hd, hd, rfl⟩]
    · rw [writeDisk_ne _ _ (Ne.symm hk), if_neg (fun hc => hk hc.2.2)]
  · rw [if_neg hd, if_neg (fun hc => hd hc.2.1)]

/-- Writing slots back stores what they hold, and nothing else changes on disk. -/
theorem Placed.flush_disk (h : Placed index c) (l : List I) (k : K) :
    (c.flush l).disk k =
      if index k ∈ l ∧ (c.buf (index k)).dirty = true ∧ (c.buf (index k)).sector = k then
        (c.buf (index k)).content
      else c.disk k := by
  induction l generalizing c with
  | nil => simp [flush]
  | cons i l ih =>
      show ((c.flushSlot i).flush l).disk k = _
      rw [ih (h.flushSlot i), h.flushSlot_disk i k]
      by_cases hik : index k = i
      · subst hik
        rw [flushSlot_same]
        simp
      · rw [flushSlot_ne c hik]
        simp [hik]

end Placed

end Cache

/-! ## What a cache stands for -/

/-- A slot that is in use belongs at its place and holds the data of its sector. -/
structure SlotRight (index : K → I) (d : K → B) (i : I) (s : Slot K B) : Prop where
  used : s.dirty = true → s.used = true
  holds : s.used = true → index s.sector = i ∧ s.content = d s.sector

/-- The data of a sector is on disk, or a dirty slot still has it. -/
def Stored (index : K → I) (c : Cache K I B) (d : K → B) (k : K) : Prop :=
  c.disk k = d k ∨ ((c.buf (index k)).dirty = true ∧ (c.buf (index k)).sector = k)

/-- Cache and disk together stand for the contents `d`. -/
structure Represents (index : K → I) (c : Cache K I B) (d : K → B) : Prop where
  slot : ∀ i, SlotRight index d i (c.buf i)
  stored : ∀ k, Stored index c d k

/-- Every sector that belongs into slot `i` is on disk: the slot may be given away. -/
def Evicted (index : K → I) (c : Cache K I B) (d : K → B) (i : I) : Prop :=
  ∀ k, index k = i → c.disk k = d k

section Represents

variable {index : K → I} {c : Cache K I B} {d : K → B} {i : I} {k : K}

omit [DecidableEq K] [DecidableEq I] in
theorem SlotRight.clean {s : Slot K B} (h : SlotRight index d i s) :
    SlotRight index d i { s with dirty := false } :=
  ⟨nofun, h.holds⟩

omit [DecidableEq K] [DecidableEq I] in
/-- A cache with no slot in use stands for its disk. -/
theorem represents_unused (hused : ∀ i, (c.buf i).used = false)
    (hdirty : ∀ i, (c.buf i).dirty = false) : Represents index c c.disk where
  slot i := by
    refine ⟨fun h => ?_, fun h => ?_⟩
    · rw [hdirty i] at h
      exact nomatch h
    · rw [hused i] at h
      exact nomatch h
  stored _ := .inl rfl

omit [DecidableEq K] [DecidableEq I] in
theorem Represents.placed (h : Represents index c d) : c.Placed index := by
  intro i hi
  exact ((h.slot i).holds ((h.slot i).used hi)).1

omit [DecidableEq K] [DecidableEq I] in
/-- The dirty slot of a sector has its data. -/
theorem Represents.dirty_content (h : Represents index c d) (hd : (c.buf i).dirty = true) :
    (c.buf i).content = d (c.buf i).sector :=
  ((h.slot i).holds ((h.slot i).used hd)).2

omit [DecidableEq K] [DecidableEq I] in
/-- What no dirty slot holds is on disk. -/
theorem Represents.evicted (h : Represents index c d)
    (hd : (c.buf i).dirty = true → c.disk (c.buf i).sector = d (c.buf i).sector) :
    Evicted index c d i := by
  intro k hk
  rcases h.stored k with hdisk | ⟨hdirty, hsector⟩
  · exact hdisk
  · rw [hk] at hdirty hsector
    rw [← hsector]
    exact hd hdirty

/-- Writing all slots back puts every stored sector on disk, if what the dirty slots hold
    is right. -/
theorem Stored.flush (h : Stored index c d k) (hplaced : c.Placed index)
    (hright : ∀ i, (c.buf i).dirty = true → (c.buf i).content = d (c.buf i).sector)
    {l : List I} (hl : ∀ i, i ∈ l) : (c.flush l).disk k = d k := by
  rw [hplaced.flush_disk l k]
  by_cases hheld : (c.buf (index k)).dirty = true ∧ (c.buf (index k)).sector = k
  · rw [if_pos ⟨hl _, hheld⟩, hright _ hheld.1, hheld.2]
  · rw [if_neg (fun hc => hheld hc.2)]
    exact h.resolve_right hheld

/-- Writing slots back changes nothing about the contents. -/
theorem Represents.flush (h : Represents index c d) (l : List I) :
    Represents index (c.flush l) d where
  slot i := by
    rw [Cache.flush_buf]
    split
    · exact (h.slot i).clean
    · exact h.slot i
  stored k := by
    unfold Stored
    rw [h.placed.flush_disk l k, Cache.flush_buf]
    by_cases hheld : (c.buf (index k)).dirty = true ∧ (c.buf (index k)).sector = k
    · by_cases hl : index k ∈ l
      · refine .inl ?_
        rw [if_pos ⟨hl, hheld⟩, h.dirty_content hheld.1, hheld.2]
      · rw [if_neg hl]
        exact .inr hheld
    · refine .inl ?_
      rw [if_neg (fun hc => hheld hc.2)]
      exact (h.stored k).resolve_right hheld

/-- Once every slot was written back, the disk itself has the contents. -/
theorem Represents.flush_all (h : Represents index c d) {l : List I} (hl : ∀ i, i ∈ l) :
    (c.flush l).disk = d ∧ ∀ i, ((c.flush l).buf i).dirty = false := by
  have hclean : ∀ i, ((c.flush l).buf i).dirty = false := by
    intro i
    rw [Cache.flush_buf, if_pos (hl i)]
  refine ⟨?_, hclean⟩
  funext k
  exact (h.stored k).flush h.placed (fun i hi => h.dirty_content hi) hl

omit [DecidableEq I] in
/-- Writing a slot that is in use to its own sector is always right. -/
theorem Represents.writeBack (h : Represents index c d) (hused : (c.buf i).used = true) :
    Represents index (c.writeDisk (c.buf i).sector (c.buf i).content) d where
  slot := h.slot
  stored k := by
    by_cases hk : k = (c.buf i).sector
    · subst hk
      exact .inl (by rw [Cache.writeDisk_same, ((h.slot i).holds hused).2])
    · unfold Stored
      rw [Cache.writeDisk_ne _ _ hk]
      exact h.stored k

omit [DecidableEq K] in
/-- A slot that was evicted can be given to another sector of its own. -/
theorem Represents.load (h : Represents index c d) (hi : index k = i)
    (hev : Evicted index c d i) :
    Represents index
      (c.setSlot i { sector := k, used := true, dirty := false, content := c.disk k }) d where
  slot j := by
    by_cases hj : j = i
    · subst hj
      rw [Cache.setSlot_same]
      exact ⟨nofun, fun _ => ⟨hi, hev k hi⟩⟩
    · rw [Cache.setSlot_ne _ _ hj]
      exact h.slot j
  stored l := by
    by_cases hl : index l = i
    · exact .inl (hev l hl)
    · unfold Stored
      rw [Cache.setSlot_ne _ _ hl]
      exact h.stored l

/-- Storing into the slot of a sector changes the contents there. -/
theorem Represents.store (h : Represents index c d) (hused : (c.buf i).used = true)
    (hsector : (c.buf i).sector = k) (b : B) :
    Represents index (c.setSlot i { c.buf i with content := b, dirty := true })
      (Function.update d k b) where
  slot j := by
    by_cases hj : j = i
    · subst hj
      rw [Cache.setSlot_same]
      refine ⟨fun _ => hused, fun _ => ⟨((h.slot j).holds hused).1, ?_⟩⟩
      show b = Function.update d k b (c.buf j).sector
      rw [hsector, Function.update_self]
    · rw [Cache.setSlot_ne _ _ hj]
      refine ⟨(h.slot j).used, fun hu => ⟨((h.slot j).holds hu).1, ?_⟩⟩
      -- another slot holds another sector
      have hne : (c.buf j).sector ≠ k := by
        intro hjk
        have hji := ((h.slot j).holds hu).1
        rw [hjk, ← hsector, ((h.slot i).holds hused).1] at hji
        exact hj hji.symm
      rw [Function.update_of_ne hne]
      exact ((h.slot j).holds hu).2
  stored l := by
    have hki : index k = i := by
      rw [← hsector]
      exact ((h.slot i).holds hused).1
    by_cases hl : l = k
    · subst hl
      refine .inr ?_
      rw [hki, Cache.setSlot_same]
      exact ⟨rfl, hsector⟩
    · unfold Stored
      rw [Function.update_of_ne hl, Cache.setSlot_disk]
      by_cases hli : index l = i
      · -- the slot holds `k`, so `l` is on disk
        refine .inl ((h.stored l).resolve_right ?_)
        rintro ⟨-, hsec⟩
        rw [hli, hsector] at hsec
        exact hl hsec.symm
      · rw [Cache.setSlot_ne _ _ hli]
        exact h.stored l

end Represents

end BlockCache
