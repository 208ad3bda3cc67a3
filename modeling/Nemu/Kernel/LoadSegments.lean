/-
  Nemu.Kernel.LoadSegments

  What `loader` leaves in memory, for a table of program headers of any types in any order.

  `ph++` stands inside the `if` for `PT_LOAD`, so the loop looks at the first header of another
  type again and again: what is loaded is the leading run of `PT_LOAD` segments.
-/

import Mathlib.Data.List.TakeWhile
import Nemu.Kernel.Loader

namespace Nemu.Kernel

open Outcome Region Mem

/-! ## Segments -/

def isLoad (h : Elf32_Phdr) : Bool := h.p_type = PT_LOAD

theorem isLoad_iff {h : Elf32_Phdr} : isLoad h = true ↔ h.p_type = PT_LOAD := decide_eq_true_iff

namespace Elf32_Phdr

-- the region `[p_vaddr, p_vaddr + p_memsz)`
def Covers (h : Elf32_Phdr) (x : Addr) : Prop := Within h.p_vaddr h.p_memsz.toNat x

/-- Byte `j` of the segment: the file's bytes, then zeros. -/
def content (h : Elf32_Phdr) (m : Mem) (j : Nat) : Byte :=
  if j < h.p_filesz.toNat then m (RAMDISK_START + h.p_offset + BitVec.ofNat 32 j) else 0

/-- The segment in its place. -/
def load (m : Mem) (h : Elf32_Phdr) : Mem := blit m h.p_vaddr h.p_memsz.toNat (h.content m)

/-- A segment that is promised to the loader: its file part is in the ramdisk, and its place is
    apart from the ramdisk and from the buffer. -/
structure Placed (h : Elf32_Phdr) (buf : Addr) : Prop where
  sizes : h.p_filesz.toNat ≤ h.p_memsz.toNat
  file : InRamdisk h.p_offset h.p_filesz
  disk : ∀ x, h.Covers x → RAMDISK_SIZE ≤ x.toNat
  buffer : ∀ k, k < BUF_SIZE → ¬ h.Covers (buf + BitVec.ofNat 32 k)

end Elf32_Phdr

/-- The program headers of the image in the ramdisk. -/
def headers (m : Mem) : List Elf32_Phdr :=
  (List.range (m.e_phnum 0)).map fun i =>
    m.phdr (BitVec.ofNat 32 ((m.e_phoff 0).toNat + sizeofPhdr * i))

/-- An ELF image with its table in the first 4096 bytes and its segments apart. -/
structure Image (buf : Addr) (m : Mem) : Prop where
  magic : m.loadWord 0 = elf_magic
  table : (m.e_phoff 0).toNat + sizeofPhdr * m.e_phnum 0 ≤ BUF_SIZE
  above : RAMDISK_SIZE ≤ buf.toNat
  below : buf.toNat + BUF_SIZE ≤ 2 ^ 32
  placed : ∀ h ∈ headers m, h.p_type = PT_LOAD → h.Placed buf
  disjoint : ((headers m).filter isLoad).Pairwise fun a b => ∀ x, ¬ (a.Covers x ∧ b.Covers x)

/-- In `m'` every segment of the image in `m` is loaded, and nothing else has changed since the
    headers were read. -/
structure Loaded (buf : Addr) (m m' : Mem) : Prop where
  file : ∀ h ∈ headers m, h.p_type = PT_LOAD → ∀ j, j < h.p_filesz.toNat →
    m' (h.p_vaddr + BitVec.ofNat 32 j) = m (RAMDISK_START + h.p_offset + BitVec.ofNat 32 j)
  zero : ∀ h ∈ headers m, h.p_type = PT_LOAD → ∀ j, h.p_filesz.toNat ≤ j → j < h.p_memsz.toNat →
    m' (h.p_vaddr + BitVec.ofNat 32 j) = 0
  frame : ∀ x, (∀ h ∈ headers m, h.p_type = PT_LOAD → ¬ h.Covers x) → m' x = withHeader buf m x

-- memory with all of `hs` in their places
def loadAll (m : Mem) (hs : List Elf32_Phdr) : Mem := hs.foldl Elf32_Phdr.load m

-- the ramdisk of `mem` is that of `m`
def SameDisk (m mem : Mem) : Prop := ∀ x : Addr, x.toNat < RAMDISK_SIZE → mem x = m x

section Segments

variable {buf : Addr} {m mem : Mem} {h : Elf32_Phdr} {hs : List Elf32_Phdr} {x : Addr} {j : Nat}

theorem load_outside (hx : ¬ h.Covers x) : h.load m x = m x := blit_outside hx

-- a segment's place is no longer than the address space
theorem covers_add (hj : j < h.p_memsz.toNat) : h.Covers (h.p_vaddr + BitVec.ofNat 32 j) :=
  within_add hj (Nat.lt_trans hj h.p_memsz.isLt)

theorem load_inside (hj : j < h.p_memsz.toNat) :
    h.load m (h.p_vaddr + BitVec.ofNat 32 j) = h.content m j :=
  blit_add hj (Nat.lt_trans hj h.p_memsz.isLt)

/-- The content of a segment comes from the ramdisk. -/
theorem content_congr (hfile : InRamdisk h.p_offset h.p_filesz) (hdisk : SameDisk m mem) :
    h.content mem = h.content m := by
  funext j
  rw [Elf32_Phdr.content, Elf32_Phdr.content]
  by_cases hj : j < h.p_filesz.toNat
  · rw [if_pos hj, if_pos hj]
    refine hdisk _ ?_
    rw [ramdisk_address hfile hj]
    exact Nat.lt_of_lt_of_le (Nat.add_lt_add_left hj _) hfile
  · rw [if_neg hj, if_neg hj]

theorem load_sameDisk (hp : h.Placed buf) (hdisk : SameDisk m mem) : SameDisk m (h.load mem) := by
  intro x hx
  rw [load_outside (fun hcov => Nat.not_lt_of_le (hp.disk x hcov) hx)]
  exact hdisk x hx

theorem load_holdsHeader (hp : h.Placed buf) (hbuf : HoldsHeader buf m mem) :
    HoldsHeader buf m (h.load mem) := by
  intro k hk
  rw [load_outside (hp.buffer k hk)]
  exact hbuf k hk

theorem withHeader_sameDisk (habove : RAMDISK_SIZE ≤ buf.toNat) (hbelow : buf.toNat + BUF_SIZE ≤ 2 ^ 32) :
    SameDisk m (withHeader buf m) := by
  intro x hx
  rw [withHeader, memcpy]
  refine blit_outside (fun hin => ?_)
  have hlow := ((within_iff (n := BUF_SIZE) hbelow).mp hin).1
  omega

theorem loadAll_outside (hx : ∀ h ∈ hs, ¬ h.Covers x) : loadAll m hs x = m x := by
  induction hs generalizing m with
  | nil => rfl
  | cons h hs ih =>
      obtain ⟨hhead, hrest⟩ := List.forall_mem_cons.mp hx
      exact (ih hrest).trans (load_outside hhead)

/-- Segments that are apart are all there at the end. -/
theorem loadAll_inside (hp : ∀ h ∈ hs, h.Placed buf) (hdisk : SameDisk m mem)
    (hapart : hs.Pairwise fun a b => ∀ x, ¬ (a.Covers x ∧ b.Covers x)) (hh : h ∈ hs)
    (hj : j < h.p_memsz.toNat) :
    loadAll mem hs (h.p_vaddr + BitVec.ofNat 32 j) = h.content m j := by
  induction hs generalizing mem with
  | nil => exact nomatch hh
  | cons h' hs ih =>
      obtain ⟨hhead, hrest⟩ := List.forall_mem_cons.mp hp
      obtain ⟨hfirst, hothers⟩ := List.pairwise_cons.mp hapart
      rcases List.mem_cons.mp hh with rfl | hh
      · -- the later segments do not cover it
        have hkept : loadAll (h.load mem) hs (h.p_vaddr + BitVec.ofNat 32 j) = _ :=
          loadAll_outside (fun b hb hcov => hfirst b hb _ ⟨covers_add hj, hcov⟩)
        rw [← content_congr hhead.file hdisk]
        exact hkept.trans (load_inside hj)
      · exact ih hrest (load_sameDisk hhead hdisk) hothers hh

end Segments

/-! ## The loop -/

section Loop

variable {buf : Addr} {m : Mem} {s : LoadState} {h : Elf32_Phdr} {hs : List Elf32_Phdr} {t fuel : Nat}

/-- The check of `ramdisk_read` on a segment of the file: it must not end with the disk. -/
theorem fits_iff {offset len : BitVec 32} (hfile : InRamdisk offset len) :
    (offset + len).toNat < RAMDISK_SIZE ↔ offset.toNat + len.toNat ≠ RAMDISK_SIZE := by
  rw [InRamdisk, RAMDISK_SIZE] at hfile
  rw [BitVec.toNat_add, Nat.mod_eq_of_lt (by omega), RAMDISK_SIZE]
  omega

/-- The copy and the clearing of the loop put the segment in its place. -/
theorem copied_eq_load (m : Mem) (hsizes : h.p_filesz.toNat ≤ h.p_memsz.toNat) :
    (m.memcpy h.p_vaddr (RAMDISK_START + h.p_offset) h.p_filesz).memset
      (h.p_vaddr + h.p_filesz) 0 (h.p_memsz - h.p_filesz) = h.load m := by
  have hlen : (h.p_memsz - h.p_filesz).toNat = h.p_memsz.toNat - h.p_filesz.toNat :=
    BitVec.toNat_sub_of_le hsizes
  have hend : h.p_vaddr + h.p_filesz = h.p_vaddr + BitVec.ofNat 32 h.p_filesz.toNat := by
    rw [BitVec.ofNat_toNat, BitVec.setWidth_eq]
  have hjoin : blit (blit m h.p_vaddr h.p_filesz.toNat (h.content m))
        (h.p_vaddr + BitVec.ofNat 32 h.p_filesz.toNat) (h.p_memsz.toNat - h.p_filesz.toNat)
        (fun i => h.content m (h.p_filesz.toNat + i))
      = blit m h.p_vaddr (h.p_filesz.toNat + (h.p_memsz.toNat - h.p_filesz.toNat)) (h.content m) :=
    blit_append (by have := h.p_memsz.isLt; omega)
  rw [Nat.add_sub_cancel' hsizes] at hjoin
  rw [Elf32_Phdr.load, ← hjoin, memset, memcpy, hlen, hend]
  have hfile : blit m h.p_vaddr h.p_filesz.toNat
      (fun i => m (RAMDISK_START + h.p_offset + BitVec.ofNat 32 i))
        = blit m h.p_vaddr h.p_filesz.toNat (h.content m) :=
    blit_congr (fun i hi => (if_pos hi).symm)
  rw [hfile]
  exact blit_congr (fun i _ => (if_neg (by omega)).symm)

/-- At the head of the loop with `t` headers behind it, all of them loaded. -/
structure AtHeader (buf : Addr) (m : Mem) (t : Nat) (s : LoadState) : Prop where
  i : s.i = t
  ph : s.ph = buf + BitVec.ofNat 32 ((m.e_phoff 0).toNat + sizeofPhdr * t)
  header : HoldsHeader buf m s.mem
  disk : SameDisk m s.mem

theorem loadStep_segment {k : Nat} (hp : h.Placed buf) (hload : h.p_type = PT_LOAD)
    (hbuf : HoldsHeader buf m s.mem) (hph : s.ph = buf + BitVec.ofNat 32 k)
    (hk : k + sizeofPhdr ≤ BUF_SIZE) (hh : m.phdr (BitVec.ofNat 32 k) = h)
    (hfits : h.p_offset.toNat + h.p_filesz.toNat ≠ RAMDISK_SIZE) :
    loadStep s = .ok
      { mem := h.load s.mem, ph := s.ph + BitVec.ofNat 32 sizeofPhdr, i := s.i + 1 } := by
  have hcur : s.mem.phdr s.ph = h := by rw [hph, hbuf.phdr hk, hh]
  have hread : ramdiskRead s.mem h.p_vaddr h.p_offset h.p_filesz
      = .ok (s.mem.memcpy h.p_vaddr (RAMDISK_START + h.p_offset) h.p_filesz) :=
    ramdiskRead_eq_ok.mpr ⟨(fits_iff hp.file).mpr hfits, rfl⟩
  -- the header is not in the segment, so it is still there behind the copy
  have hkept : HoldsHeader buf m (s.mem.memcpy h.p_vaddr (RAMDISK_START + h.p_offset) h.p_filesz) := by
    intro j hj
    have hout : ¬ Within h.p_vaddr h.p_filesz.toNat (buf + BitVec.ofNat 32 j) :=
      fun hin => hp.buffer j hj (Nat.lt_of_lt_of_le hin hp.sizes)
    exact (blit_outside hout).trans (hbuf j hj)
  have hstill : (s.mem.memcpy h.p_vaddr (RAMDISK_START + h.p_offset) h.p_filesz).phdr s.ph = h := by
    rw [hph, hkept.phdr hk, hh]
  rw [← copied_eq_load s.mem hp.sizes]
  have hstep := loadStep_load (s := s) (by rw [hcur]; exact hload) (by rw [hcur]; exact hread)
  rw [hstill, hcur] at hstep
  exact hstep

/-- At a header of another type the loop only counts. -/
theorem loadLoop_skip (hother : (s.mem.phdr s.ph).p_type ≠ PT_LOAD)
    (hfuel : s.mem.e_phnum buf - s.i < fuel) :
    ∃ s', loadLoop buf fuel s = .ok s' ∧ s'.mem = s.mem := by
  induction fuel generalizing s with
  | zero => omega
  | succ fuel ih =>
      rw [loadLoop]
      by_cases hmore : s.i < s.mem.e_phnum buf
      · rw [if_pos hmore, loadStep_other hother, ok_bind]
        exact ih (s := { s with i := s.i + 1 }) hother
          (show s.mem.e_phnum buf - (s.i + 1) < fuel by omega)
      · exact ⟨s, if_neg hmore, rfl⟩

theorem headers_length (m : Mem) : (headers m).length = m.e_phnum 0 := by
  rw [headers, List.length_map, List.length_range]

-- header `t` of the table, where the loop looks for it
theorem phdr_eq_getElem (ht : t < (headers m).length) :
    m.phdr (BitVec.ofNat 32 ((m.e_phoff 0).toNat + sizeofPhdr * t)) = (headers m)[t] := by
  simp [headers]

theorem Image.in_buffer (himage : Image buf m) (ht : t < (headers m).length) :
    (m.e_phoff 0).toNat + sizeofPhdr * t + sizeofPhdr ≤ BUF_SIZE := by
  have htable := himage.table
  rw [headers_length] at ht
  have hmul := Nat.mul_le_mul_left sizeofPhdr ht
  rw [Nat.mul_succ] at hmul
  omega

/-- A segment that is put in its place leaves the headers and the ramdisk alone. -/
theorem AtHeader.next (hat : AtHeader buf m t s) (hp : h.Placed buf) :
    AtHeader buf m (t + 1)
      { mem := h.load s.mem, ph := s.ph + BitVec.ofNat 32 sizeofPhdr, i := s.i + 1 } := by
  refine ⟨by rw [hat.i], ?_, load_holdsHeader hp hat.header, load_sameDisk hp hat.disk⟩
  rw [hat.ph, add_ofNat_add, Nat.mul_succ, Nat.add_assoc]

/-- From there on the loop loads the leading segments, if the ramdisk gives them all. -/
theorem loadLoop_lead (himage : Image buf m) (hat : AtHeader buf m t s)
    (hrest : (headers m).drop t = hs) (hfuel : hs.length < fuel) :
    ((∀ h ∈ hs.takeWhile isLoad, h.p_offset.toNat + h.p_filesz.toNat ≠ RAMDISK_SIZE) →
      ∃ s', loadLoop buf fuel s = .ok s' ∧ s'.mem = loadAll s.mem (hs.takeWhile isLoad)) ∧
    ∀ h ∈ hs.takeWhile isLoad, h.p_offset.toNat + h.p_filesz.toNat = RAMDISK_SIZE →
      loadLoop buf fuel s = .error .assertion := by
  have hnum : s.mem.e_phnum buf = (headers m).length := by
    rw [hat.header.e_phnum, headers_length]
  induction hs generalizing s t fuel with
  | nil =>
      obtain ⟨fuel, rfl⟩ : ∃ f, fuel = f + 1 := ⟨fuel - 1, by omega⟩
      have hdone : ¬ s.i < s.mem.e_phnum buf := by
        rw [hat.i, hnum]
        exact Nat.not_lt_of_le (List.drop_eq_nil_iff.mp hrest)
      exact ⟨fun _ => ⟨s, if_neg hdone, rfl⟩, nofun⟩
  | cons h hs ih =>
      have ht : t < (headers m).length := by
        by_contra hge
        rw [List.drop_of_length_le (Nat.le_of_not_lt hge)] at hrest
        exact nomatch hrest
      rw [List.drop_eq_getElem_cons ht, List.cons.injEq] at hrest
      obtain ⟨hget, hrest⟩ := hrest
      have hlen : hs.length = (headers m).length - (t + 1) := by rw [← hrest, List.length_drop]
      have hmem : h ∈ headers m := hget ▸ List.getElem_mem ht
      -- the header is the same in the ramdisk and in the buffer
      have hh := (phdr_eq_getElem ht).trans hget
      have htab := himage.in_buffer ht
      have hcur : s.mem.phdr s.ph = h := by rw [hat.ph, hat.header.phdr htab, hh]
      obtain ⟨fuel, rfl⟩ : ∃ f, fuel = f + 1 := ⟨fuel - 1, by omega⟩
      rw [List.length_cons] at hfuel
      have hmore : s.i < s.mem.e_phnum buf := by rw [hat.i, hnum]; exact ht
      have hloop : loadLoop buf (fuel + 1) s = (loadStep s >>= loadLoop buf fuel) := if_pos hmore
      by_cases hload : isLoad h = true
      · have htype := isLoad_iff.mp hload
        have hp := himage.placed h hmem htype
        rw [List.takeWhile_cons_of_pos hload]
        by_cases hfits : h.p_offset.toNat + h.p_filesz.toNat = RAMDISK_SIZE
        · have hrefused : loadStep s = .error .assertion :=
            loadStep_refused (by rw [hcur]; exact htype)
              (by rw [hcur, fits_iff hp.file]; exact not_not.mpr hfits)
          refine ⟨fun hall => absurd hfits (hall h (List.mem_cons_self ..)), fun _ _ _ => ?_⟩
          rw [hloop, hrefused, error_bind]
        · have hstep := loadStep_segment hp htype hat.header hat.ph htab hh hfits
          have hnext := hat.next hp
          obtain ⟨hok, herr⟩ := ih hnext hrest (show hs.length < fuel by omega)
            (by rw [hnext.header.e_phnum, headers_length])
          rw [hloop, hstep, ok_bind]
          refine ⟨fun hall => hok (fun h' hh' => hall h' (List.mem_cons_of_mem _ hh')), ?_⟩
          intro h' hh' hedge
          rcases List.mem_cons.mp hh' with rfl | hh'
          · exact absurd hedge hfits
          · exact herr h' hh' hedge
      · rw [List.takeWhile_cons_of_neg hload]
        have hother : (s.mem.phdr s.ph).p_type ≠ PT_LOAD := by
          rw [hcur]
          exact fun htype => hload (isLoad_iff.mpr htype)
        refine ⟨fun _ => loadLoop_skip hother ?_, nofun⟩
        rw [hnum, hat.i]
        omega

end Loop

/-! ## The whole loader -/

section Whole

variable {buf : Addr} {m m' : Mem} {h : Elf32_Phdr} {x : Addr} {j : Nat}

theorem content_file (hj : j < h.p_filesz.toNat) :
    h.content m j = m (RAMDISK_START + h.p_offset + BitVec.ofNat 32 j) := if_pos hj

theorem content_zero (hj : h.p_filesz.toNat ≤ j) : h.content m j = 0 := if_neg (by omega)

/-- Loaded means that every segment has its content and the rest is as it was. -/
theorem loaded_iff (himage : Image buf m) : Loaded buf m m' ↔
    (∀ h ∈ headers m, h.p_type = PT_LOAD → ∀ j, j < h.p_memsz.toNat →
      m' (h.p_vaddr + BitVec.ofNat 32 j) = h.content m j) ∧
    ∀ x, (∀ h ∈ headers m, h.p_type = PT_LOAD → ¬ h.Covers x) → m' x = withHeader buf m x := by
  apply Iff.intro
  · intro hl
    refine ⟨fun h hh hload j hj => ?_, hl.frame⟩
    by_cases hfile : j < h.p_filesz.toNat
    · rw [content_file hfile]
      exact hl.file h hh hload j hfile
    · rw [content_zero (Nat.le_of_not_lt hfile)]
      exact hl.zero h hh hload j (Nat.le_of_not_lt hfile) hj
  · rintro ⟨hcontent, hframe⟩
    refine ⟨fun h hh hload j hj => ?_, fun h hh hload j hfile hj => ?_, hframe⟩
    · have hsizes := (himage.placed h hh hload).sizes
      rw [← content_file (m := m) hj]
      exact hcontent h hh hload j (by omega)
    · rw [← content_zero (m := m) hfile]
      exact hcontent h hh hload j hj

-- the segments of the leading run
theorem lead_isLoad (hh : h ∈ (headers m).takeWhile isLoad) : h ∈ headers m ∧ h.p_type = PT_LOAD :=
  ⟨(List.takeWhile_sublist _).subset hh, isLoad_iff.mp (List.mem_takeWhile_imp hh)⟩

/-- The leading segments are apart from each other and from the later ones. -/
theorem Image.lead_apart (himage : Image buf m) :
    ((headers m).takeWhile isLoad).Pairwise (fun a b => ∀ x, ¬ (a.Covers x ∧ b.Covers x)) ∧
    ∀ a ∈ (headers m).takeWhile isLoad, ∀ b ∈ (headers m).dropWhile isLoad, b.p_type = PT_LOAD →
      ∀ x, ¬ (a.Covers x ∧ b.Covers x) := by
  have hsplit : (headers m).filter isLoad
      = (headers m).takeWhile isLoad ++ ((headers m).dropWhile isLoad).filter isLoad := by
    conv_lhs => rw [← List.takeWhile_append_dropWhile (p := isLoad) (l := headers m)]
    rw [List.filter_append, List.filter_eq_self.mpr (fun a ha => List.mem_takeWhile_imp ha)]
  have hapart := himage.disjoint
  rw [hsplit, List.pairwise_append] at hapart
  refine ⟨hapart.1, fun a ha b hb hload => hapart.2.2 a ha b ?_⟩
  exact List.mem_filter.mpr ⟨hb, isLoad_iff.mpr hload⟩

/-- A byte of a segment is not in the buffer. -/
theorem withHeader_covered (hp : h.Placed buf) (hx : h.Covers x) : withHeader buf m x = m x := by
  rw [withHeader, memcpy]
  refine blit_outside (fun hin => ?_)
  have hk : (x - buf).toNat < BUF_SIZE := hin
  refine hp.buffer _ hk ?_
  rw [add_ofNat_sub]
  exact hx

/-- `loader` runs the loop from the headers in the buffer. -/
theorem loader_eq (hmagic : m.loadWord 0 = elf_magic) : loader buf m
    = (do
        let s ← loadLoop buf (2 ^ 16) { mem := withHeader buf m, ph := buf + m.e_phoff 0, i := 0 }
        return (s.mem.e_entry buf, s.mem)) := by
  rw [loader, loadHeader_run hmagic, ok_bind]

theorem Image.atHeader (himage : Image buf m) :
    AtHeader buf m 0 { mem := withHeader buf m, ph := buf + m.e_phoff 0, i := 0 } where
  i := rfl
  ph := by rw [Nat.mul_zero, Nat.add_zero, BitVec.ofNat_toNat, BitVec.setWidth_eq]
  header := withHeader_holds buf m
  disk := withHeader_sameDisk himage.above himage.below

end Whole

/-- `loader` loads every segment and nothing else exactly if no segment of the leading run ends
    with the ramdisk, and every segment behind it is in its place already. -/
theorem loader_right_iff (buf : Addr) (m : Mem) (himage : Image buf m) :
    (∃ entry m', loader buf m = .ok (entry, m') ∧ Loaded buf m m') ↔
      (∀ h ∈ (headers m).takeWhile isLoad,
        h.p_offset.toNat + h.p_filesz.toNat ≠ RAMDISK_SIZE) ∧
      ∀ h ∈ (headers m).dropWhile isLoad, h.p_type = PT_LOAD → ∀ j, j < h.p_memsz.toNat →
        m (h.p_vaddr + BitVec.ofNat 32 j) = h.content m j := by
  have hnum := e_phnum_lt m 0
  obtain ⟨hok, herr⟩ := loadLoop_lead himage himage.atHeader List.drop_zero
    (show (headers m).length < 2 ^ 16 by rw [headers_length]; exact hnum)
  have hdisk : SameDisk m (withHeader buf m) := withHeader_sameDisk himage.above himage.below
  obtain ⟨hlead, hlater⟩ := himage.lead_apart
  have hplaced : ∀ h ∈ (headers m).takeWhile isLoad, h.Placed buf :=
    fun h hh => himage.placed h (lead_isLoad hh).1 (lead_isLoad hh).2
  -- a segment behind the leading run finds memory as it was
  have hkept : ∀ h ∈ (headers m).dropWhile isLoad, h.p_type = PT_LOAD → ∀ j, j < h.p_memsz.toNat →
      loadAll (withHeader buf m) ((headers m).takeWhile isLoad) (h.p_vaddr + BitVec.ofNat 32 j)
        = m (h.p_vaddr + BitVec.ofNat 32 j) := by
    intro h hh hload j hj
    have hmem : h ∈ headers m := (List.dropWhile_sublist _).subset hh
    rw [loadAll_outside (fun a ha hcov => hlater a ha h hh hload _ ⟨hcov, covers_add hj⟩)]
    exact withHeader_covered (himage.placed h hmem hload) (covers_add hj)
  rw [loader_eq himage.magic]
  apply Iff.intro
  · rintro ⟨entry, m', hrun, hloaded⟩
    obtain ⟨s, hloop, hret⟩ := bind_eq_ok.mp hrun
    obtain ⟨-, rfl⟩ := Prod.mk.inj (pure_eq_ok.mp hret)
    have hfits : ∀ h ∈ (headers m).takeWhile isLoad,
        h.p_offset.toNat + h.p_filesz.toNat ≠ RAMDISK_SIZE := by
      intro h hh hedge
      exact nomatch (herr h hh hedge).symm.trans hloop
    refine ⟨hfits, fun h hh hload j hj => ?_⟩
    obtain ⟨s', hloop', hmem⟩ := hok hfits
    obtain rfl := Except.ok.inj (hloop'.symm.trans hloop)
    have hcontent := ((loaded_iff himage).mp hloaded).1 h ((List.dropWhile_sublist _).subset hh) hload j hj
    rw [← hkept h hh hload j hj, ← hmem]
    exact hcontent
  · rintro ⟨hfits, hthere⟩
    obtain ⟨s, hloop, hmem⟩ := hok hfits
    refine ⟨s.mem.e_entry buf, s.mem, by rw [hloop]; rfl, (loaded_iff himage).mpr ⟨?_, ?_⟩⟩
    · intro h hh hload j hj
      rw [hmem]
      rw [← List.takeWhile_append_dropWhile (p := isLoad) (l := headers m)] at hh
      rcases List.mem_append.mp hh with hh | hh
      · exact loadAll_inside hplaced hdisk hlead hh hj
      · rw [hkept h hh hload j hj]
        exact hthere h hh hload j hj
    · intro x hx
      rw [hmem]
      exact loadAll_outside (fun h hh => hx h (lead_isLoad hh).1 (lead_isLoad hh).2)

-- the first four bytes of the file and four zeros, at 0x200000
def firstSegment : Elf32_Phdr := ⟨PT_LOAD, 0, 0x200000, 4, 8⟩

-- twelve bytes of the program headers, four behind the first segment
def secondSegment : Elf32_Phdr := ⟨PT_LOAD, 52, 0x20000c, 12, 12⟩

-- a header of another type
def noSegment : Elf32_Phdr := ⟨6, 0, 0, 0, 0⟩

theorem covers_firstSegment (x : Addr) :
    firstSegment.Covers x ↔ 0x200000 ≤ x.toNat ∧ x.toNat < 0x200008 :=
  within_iff (a := 0x200000) (n := 8) (by decide)

theorem covers_secondSegment (x : Addr) :
    secondSegment.Covers x ↔ 0x20000c ≤ x.toNat ∧ x.toNat < 0x200018 :=
  within_iff (a := 0x20000c) (n := 12) (by decide)

-- above the ramdisk and the buffer
theorem placed_of_high {h : Elf32_Phdr} (hsizes : h.p_filesz.toNat ≤ h.p_memsz.toNat)
    (hdisk : InRamdisk h.p_offset h.p_filesz)
    (hhigh : ∀ x, h.Covers x → 0x200000 ≤ x.toNat) : h.Placed 0x100000 := by
  refine ⟨hsizes, hdisk, fun x hx => ?_, fun k hk hx => ?_⟩
  · exact Nat.le_trans (by decide) (hhigh x hx)
  · have hlow := hhigh _ hx
    have hbuf : (0x100000 : Addr).toNat = 0x100000 := rfl
    rw [BUF_SIZE] at hk
    rw [BitVec.toNat_add, BitVec.toNat_ofNat, hbuf] at hlow
    omega

theorem firstSegment_placed : firstSegment.Placed 0x100000 :=
  placed_of_high (by decide) (by decide) fun x hx => ((covers_firstSegment x).mp hx).1

theorem secondSegment_placed : secondSegment.Placed 0x100000 :=
  placed_of_high (by decide) (by decide) fun x hx =>
    Nat.le_trans (by decide) ((covers_secondSegment x).mp hx).1

/-- An image of two segments with a header of another type behind them is loaded. -/
theorem loader_right_two :
    ∃ entry m',
      loader 0x100000 (imageOf [firstSegment, secondSegment, noSegment]) = .ok (entry, m') ∧
        Loaded 0x100000 (imageOf [firstSegment, secondSegment, noSegment]) m' := by
  have hheaders : headers (imageOf [firstSegment, secondSegment, noSegment]) =
      [firstSegment, secondSegment, noSegment] := by decide
  refine (loader_right_iff 0x100000 (imageOf [firstSegment, secondSegment, noSegment])
    ⟨by decide, by decide, by decide, by decide, ?_, ?_⟩).mpr ⟨by decide, ?_⟩
  · rw [hheaders]
    intro h hh hload
    rcases List.mem_cons.mp hh with rfl | hh
    · exact firstSegment_placed
    rcases List.mem_cons.mp hh with rfl | hh
    · exact secondSegment_placed
    · obtain rfl := List.mem_singleton.mp hh
      exact absurd hload (by decide)
  · have hload : [firstSegment, secondSegment, noSegment].filter isLoad =
        [firstSegment, secondSegment] := by decide
    rw [hheaders, hload, List.pairwise_pair]
    rintro x ⟨hfirst, hsecond⟩
    have hend := ((covers_firstSegment x).mp hfirst).2
    have hstart := ((covers_secondSegment x).mp hsecond).1
    omega
  · rw [hheaders]
    intro h hh hload
    have hbehind : [firstSegment, secondSegment, noSegment].dropWhile isLoad = [noSegment] := by
      decide
    rw [hbehind] at hh
    obtain rfl := List.mem_singleton.mp hh
    exact absurd hload (by decide)

/-- Behind a header of another type the segment is not loaded. -/
theorem segment_not_loaded :
    ¬ ∀ (buf : Addr) (m : Mem), Image buf m →
      ∃ entry m', loader buf m = .ok (entry, m') ∧ Loaded buf m m' := by
  intro hall
  have hheaders : headers (imageOf [noSegment, firstSegment]) = [noSegment, firstSegment] := by decide
  have himage : Image 0x100000 (imageOf [noSegment, firstSegment]) := by
    refine ⟨by decide, by decide, by decide, by decide, ?_, ?_⟩
    · rw [hheaders]
      intro h hh hload
      rcases List.mem_cons.mp hh with rfl | hh
      · exact absurd hload (by decide)
      · exact List.mem_singleton.mp hh ▸ firstSegment_placed
    · rw [hheaders]
      exact List.pairwise_singleton _ _
  obtain ⟨entry, m', hrun, hloaded⟩ := hall 0x100000 _ himage
  obtain ⟨hok, -⟩ := loadLoop_lead himage himage.atHeader List.drop_zero
    (show (headers (imageOf [noSegment, firstSegment])).length < 2 ^ 16 by rw [hheaders]; decide)
  rw [hheaders] at hok
  obtain ⟨s, hloop, hmem⟩ := hok nofun
  rw [loader_eq himage.magic, hloop] at hrun
  obtain ⟨-, rfl⟩ := Prod.mk.inj (pure_eq_ok.mp hrun)
  have hbyte := hloaded.file firstSegment (by rw [hheaders]; decide) rfl 0 (by decide)
  rw [hmem] at hbyte
  exact absurd hbyte (by decide)

end Nemu.Kernel
