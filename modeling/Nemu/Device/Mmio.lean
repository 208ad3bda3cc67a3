/-
  Nemu.Device.Mmio

  `nemu/src/device/io/mmio.c`: device memory, carved in slices out of one pool.

  The slices are disjoint and inside the pool whatever is registered.  An access is only
  looked up by its first address, and `mmio_read` always reads four bytes: an access stays in
  the slice of its map exactly if the four bytes from its address on are in the map's range.

  A callback changes the state of its device and not the pool.
-/

import Nemu.Memory.DramRefinement

namespace Nemu

open ByteSeq Outcome

/-! ## `mmio.c` -/

/-- A map; `mmio_space` is an index of the pool. -/
structure MMIO_t (δ : Type) where
  low : Addr
  high : Addr
  mmio_space : Nat
  callback : Addr → Nat → Bool → δ → δ

namespace MMIO_t

variable {δ : Type}

-- the range check of `is_mmio`
def has (map : MMIO_t δ) (addr : Addr) : Bool := decide (map.low ≤ addr ∧ addr ≤ map.high)

-- `map->mmio_space + (addr - map->low)`
def place (map : MMIO_t δ) (addr : Addr) : Nat := map.mmio_space + (addr - map.low).toNat

-- the length the map was registered with
def size (map : MMIO_t δ) : Nat := (map.high - map.low + 1).toNat

/-- Index `x` of the pool is in the slice of the map. -/
def Owns (map : MMIO_t δ) (x : Nat) : Prop :=
  map.mmio_space ≤ x ∧ x < map.mmio_space + map.size

end MMIO_t

/-- The static variables, with the devices; `nr_map` is the length of `maps`.  An index of the
    pool from MMIO_SPACE_MAX on is memory behind it. -/
structure Mmio (δ : Type) where
  mmio_space_pool : Nat → Byte
  mmio_space_free_index : BitVec 32
  maps : List (MMIO_t δ)
  dev : δ

namespace Mmio

def MMIO_SPACE_MAX : Nat := 256 * 1024

def NR_MAP : Nat := 8

variable {δ : Type}

-- zero-initialised globals
def static (dev : δ) : Mmio δ :=
  { mmio_space_pool := fun _ => 0
    mmio_space_free_index := 0
    maps := []
    dev := dev }

/-- `add_mmio_map`; a `size_t` has 64 bits, so the first sum does not wrap at 32. -/
def addMmioMap (s : Mmio δ) (addr : Addr) (len : BitVec 64) (callback : Addr → Nat → Bool → δ → δ) :
    Except Abort (Nat × Mmio δ) := do
  cAssert (decide (s.maps.length < NR_MAP))
  cAssert (decide ((s.mmio_space_free_index.setWidth 64 + len).toNat ≤ MMIO_SPACE_MAX))
  let space_base := s.mmio_space_free_index.toNat
  let map : MMIO_t δ :=
    { low := addr
      high := addr + len.setWidth 32 - 1
      mmio_space := space_base
      callback := callback }
  return (space_base, { s with
    maps := s.maps ++ [map]
    mmio_space_free_index := s.mmio_space_free_index + len.setWidth 32 })

/-- `is_mmio`; `none` stands for -1. -/
def isMmio (s : Mmio δ) (addr : Addr) : Option Nat := s.maps.findIdx? fun map => map.has addr

-- `~0u >> ((4 - len) << 3)`
def lenMask (len : Nat) : BitVec 32 := 0xffffffff#32 >>> ((4 - len) <<< 3)

/-- The word that `mmio_read` reads, before the mask. -/
def readWord (pool : Nat → Byte) (map : MMIO_t δ) (addr : Addr) : BitVec 32 :=
  Ddr3.unalignRead4 (fun i => pool (map.place addr + i))

def mmioRead (s : Mmio δ) (addr : Addr) (len : Nat) (map_NO : Nat) :
    Except Abort (BitVec 32 × Mmio δ) := do
  cAssert (len == 1 || len == 2 || len == 4)
  match s.maps[map_NO]? with
  | some map =>
      let data := readWord s.mmio_space_pool map addr &&& lenMask len
      return (data, { s with dev := map.callback addr len false s.dev })
  | none => .error .outOfBounds

def mmioWrite (s : Mmio δ) (addr : Addr) (len : Nat) (data : BitVec 32) (map_NO : Nat) :
    Except Abort (Mmio δ) := do
  cAssert (len == 1 || len == 2 || len == 4)
  match s.maps[map_NO]? with
  | some map =>
      let pool := memcpyWithMask s.mmio_space_pool (map.place addr) (leByte data.toNat) len
        (leByte (lenMask len).toNat)
      return { s with mmio_space_pool := pool, dev := map.callback addr len true s.dev }
  | none => .error .outOfBounds

/-- With room for one more map and its slice, `add_mmio_map` takes the next free bytes. -/
theorem addMmioMap_ok {s : Mmio δ} {addr : Addr} {len : BitVec 64}
    {callback : Addr → Nat → Bool → δ → δ} (hroom : s.maps.length < NR_MAP)
    (hfits : (s.mmio_space_free_index.setWidth 64 + len).toNat ≤ MMIO_SPACE_MAX) :
    s.addMmioMap addr len callback = .ok (s.mmio_space_free_index.toNat, { s with
      maps := s.maps ++ [{
        low := addr
        high := addr + len.setWidth 32 - 1
        mmio_space := s.mmio_space_free_index.toNat
        callback := callback }]
      mmio_space_free_index := s.mmio_space_free_index + len.setWidth 32 }) := by
  rw [addMmioMap, decide_eq_true hroom, decide_eq_true hfits]
  rfl

/-! ## One access -/

section Access

variable {s s' : Mmio δ} {map : MMIO_t δ} {map_NO : Nat} {addr : Addr} {data : BitVec 32}

theorem width_assert (len : Width) :
    (len.bytes == 1 || len.bytes == 2 || len.bytes == 4) = true := by cases len <;> rfl

-- the mask selects every byte of the access
theorem lenMask_byte (len : Width) {i : Nat} (hi : i < len.bytes) :
    leByte (lenMask len.bytes).toNat i ≠ 0 := by
  have hle := len.bytes_le
  have hall : ∀ b : Fin 4, b.val < len.bytes → leByte (lenMask len.bytes).toNat b.val ≠ 0 := by
    cases len <;> decide
  exact hall ⟨i, by omega⟩ hi

/-- A write puts its bytes at the place of the address and tells the device. -/
theorem mmioWrite_run (hmap : s.maps[map_NO]? = some map) (addr : Addr) (len : Width)
    (data : BitVec 32) :
    s.mmioWrite addr len.bytes data map_NO = .ok { s with
      mmio_space_pool := patch s.mmio_space_pool (map.place addr) len.bytes (leByte data.toNat)
      dev := map.callback addr len.bytes true s.dev } := by
  have hpool : memcpyWithMask s.mmio_space_pool (map.place addr) (leByte data.toNat) len.bytes
      (leByte (lenMask len.bytes).toNat)
        = patch s.mmio_space_pool (map.place addr) len.bytes (leByte data.toNat) := by
    funext x
    rw [memcpyWithMask_apply]
    by_cases hx : map.place addr ≤ x ∧ x < map.place addr + len.bytes
    · rw [if_pos ⟨hx.1, hx.2, lenMask_byte len (by omega)⟩, patch_inside hx.1 hx.2]
    · rw [if_neg (fun h => hx ⟨h.1, h.2.1⟩), patch_outside (by omega)]
  rw [mmioWrite, width_assert, cAssert_true, ok_bind, hmap, ← hpool]
  rfl

/-- A read returns the bytes at the place of the address and tells the device. -/
theorem mmioRead_run (hmap : s.maps[map_NO]? = some map) (addr : Addr) (len : Width) :
    s.mmioRead addr len.bytes map_NO
      = .ok (BitVec.ofNat 32 (load s.mmio_space_pool (map.place addr) len.bytes),
          { s with dev := map.callback addr len.bytes false s.dev }) := by
  have hdata : readWord s.mmio_space_pool map addr &&& lenMask len.bytes
      = BitVec.ofNat 32 (load s.mmio_space_pool (map.place addr) len.bytes) :=
    masked_unalignRead4 (fun _ _ => rfl)
  rw [mmioRead, width_assert, cAssert_true, ok_bind, hmap, ← hdata]
  rfl

end Access

/-! ## The slices -/

/-- The states of a run: maps are added over ranges of the address space, memory is accessed. -/
inductive Reachable : Mmio δ → Prop
  | static (dev : δ) : Reachable (static dev)
  | add {s s' : Mmio δ} {addr : Addr} {len : BitVec 64} {callback : Addr → Nat → Bool → δ → δ}
      {space_base : Nat} (h : Reachable s) (hrange : addr.toNat + len.toNat ≤ 2 ^ 32)
      (hadd : s.addMmioMap addr len callback = .ok (space_base, s')) : Reachable s'
  | read {s s' : Mmio δ} {addr : Addr} {len map_NO : Nat} {data : BitVec 32} (h : Reachable s)
      (hread : s.mmioRead addr len map_NO = .ok (data, s')) : Reachable s'
  | write {s s' : Mmio δ} {addr : Addr} {len map_NO : Nat} {data : BitVec 32} (h : Reachable s)
      (hwrite : s.mmioWrite addr len data map_NO = .ok s') : Reachable s'

/-- The maps own slices of the pool, one behind the other. -/
structure Slices (s : Mmio δ) : Prop where
  free : s.mmio_space_free_index.toNat ≤ MMIO_SPACE_MAX
  bounds : ∀ map ∈ s.maps, map.mmio_space + map.size ≤ s.mmio_space_free_index.toNat
  order : s.maps.Pairwise fun a b => a.mmio_space + a.size ≤ b.mmio_space

section Slices

variable {s s' : Mmio δ} {addr : Addr} {len : BitVec 64} {callback : Addr → Nat → Bool → δ → δ}
  {map : MMIO_t δ} {space_base : Nat}

/-- A call of `add_mmio_map` that returns found room, and took the next free bytes. -/
theorem of_addMmioMap (hadd : s.addMmioMap addr len callback = .ok (space_base, s')) :
    (s.mmio_space_free_index.setWidth 64 + len).toNat ≤ MMIO_SPACE_MAX ∧ s' = { s with
      maps := s.maps ++ [{
        low := addr
        high := addr + len.setWidth 32 - 1
        mmio_space := s.mmio_space_free_index.toNat
        callback := callback }]
      mmio_space_free_index := s.mmio_space_free_index + len.setWidth 32 } := by
  obtain ⟨_, -, hrest⟩ := bind_eq_ok.mp hadd
  obtain ⟨_, hfits, hrest⟩ := bind_eq_ok.mp hrest
  exact ⟨of_decide_eq_true (cAssert_eq_ok.mp hfits), (Prod.mk.inj (pure_eq_ok.mp hrest)).2.symm⟩

-- the last address of a range gives its length back
theorem range_size (addr len : Addr) : addr + len - 1 - addr + 1 = len := by
  rw [BitVec.sub_sub, BitVec.add_comm 1 addr, ← BitVec.sub_sub, BitVec.add_comm addr,
    BitVec.add_sub_cancel, BitVec.sub_add_cancel]

/-- A new map owns `len` bytes behind the slices there are. -/
theorem Slices.add (h : Slices s) (hrange : addr.toNat + len.toNat ≤ 2 ^ 32)
    (hadd : s.addMmioMap addr len callback = .ok (space_base, s')) : Slices s' := by
  obtain ⟨hfits, rfl⟩ := of_addMmioMap hadd
  have hfree := h.free
  have hmax : MMIO_SPACE_MAX = 262144 := rfl
  have hsum : (s.mmio_space_free_index.setWidth 64 + len).toNat
      = s.mmio_space_free_index.toNat + len.toNat := by
    rw [BitVec.toNat_add, BitVec.toNat_setWidth]
    omega
  rw [hsum] at hfits
  have hlen : (len.setWidth 32).toNat = len.toNat := by
    rw [BitVec.toNat_setWidth]
    omega
  have hnew : (s.mmio_space_free_index + len.setWidth 32).toNat
      = s.mmio_space_free_index.toNat + len.toNat := by
    rw [BitVec.toNat_add, hlen]
    omega
  have hsize : (addr + len.setWidth 32 - 1 - addr + 1).toNat = len.toNat := by
    rw [range_size, hlen]
  refine ⟨?_, fun map hmap => ?_, ?_⟩
  · rw [hnew]
    exact hfits
  · rw [hnew]
    rcases List.mem_append.mp hmap with hmap | hmap
    · exact Nat.le_trans (h.bounds map hmap) (Nat.le_add_right _ _)
    · obtain rfl := List.mem_singleton.mp hmap
      exact Nat.add_le_add_left (Nat.le_of_eq hsize) _
  · refine List.pairwise_append.mpr ⟨h.order, List.pairwise_singleton _ _, fun a ha b hb => ?_⟩
    obtain rfl := List.mem_singleton.mp hb
    exact h.bounds a ha

-- an access leaves the maps alone
theorem maps_of_read {a : Addr} {n map_NO : Nat} {data : BitVec 32}
    (h : s.mmioRead a n map_NO = .ok (data, s')) :
    s'.maps = s.maps ∧ s'.mmio_space_free_index = s.mmio_space_free_index := by
  obtain ⟨u, -, h⟩ := bind_eq_ok.mp h
  split at h
  · obtain ⟨-, rfl⟩ := Prod.mk.inj (pure_eq_ok.mp h)
    exact ⟨rfl, rfl⟩
  · exact nomatch h

theorem maps_of_write {a : Addr} {n map_NO : Nat} {data : BitVec 32}
    (h : s.mmioWrite a n data map_NO = .ok s') :
    s'.maps = s.maps ∧ s'.mmio_space_free_index = s.mmio_space_free_index := by
  obtain ⟨u, -, h⟩ := bind_eq_ok.mp h
  split at h
  · rw [← pure_eq_ok.mp h]
    exact ⟨rfl, rfl⟩
  · exact nomatch h

theorem Slices.congr (h : Slices s)
    (hsame : s'.maps = s.maps ∧ s'.mmio_space_free_index = s.mmio_space_free_index) :
    Slices s' where
  free := by rw [hsame.2]; exact h.free
  bounds := by rw [hsame.1, hsame.2]; exact h.bounds
  order := by rw [hsame.1]; exact h.order

/-- In every state of a run the maps own slices. -/
theorem Reachable.slices (h : Reachable s) : Slices s := by
  induction h with
  | static dev => exact ⟨Nat.zero_le _, nofun, List.Pairwise.nil⟩
  | add _ hrange hadd ih => exact ih.add hrange hadd
  | read _ hread ih => exact ih.congr (maps_of_read hread)
  | write _ hwrite ih => exact ih.congr (maps_of_write hwrite)

end Slices

/-! ## Accesses and slices -/

/-- An access of `len` bytes at `addr` through `map` is right: a write changes nothing outside
    the slice, a read reads nothing outside it, and returns what was written. -/
structure AccessRight (s : Mmio δ) (map_NO : Nat) (map : MMIO_t δ) (addr : Addr) (len : Width) :
    Prop where
  write : ∀ data s', s.mmioWrite addr len.bytes data map_NO = .ok s' →
    ∀ x, ¬ map.Owns x → s'.mmio_space_pool x = s.mmio_space_pool x
  read : ∀ pool, (∀ x, map.Owns x → pool x = s.mmio_space_pool x) →
    readWord pool map addr = readWord s.mmio_space_pool map addr
  readBack : ∀ data s', s.mmioWrite addr len.bytes data map_NO = .ok s' →
    ∃ s'', s'.mmioRead addr len.bytes map_NO
      = .ok (BitVec.ofNat 32 (data.toNat % 256 ^ len.bytes), s'')

section Right

variable {s : Mmio δ} {map : MMIO_t δ} {map_NO : Nat} {addr : Addr}

/-- A word read back after a write is the data, truncated. -/
theorem readBack_of_write (hmap : s.maps[map_NO]? = some map) (len : Width) (data : BitVec 32)
    {s' : Mmio δ} (h : s.mmioWrite addr len.bytes data map_NO = .ok s') :
    ∃ s'', s'.mmioRead addr len.bytes map_NO
      = .ok (BitVec.ofNat 32 (data.toNat % 256 ^ len.bytes), s'') := by
  rw [mmioWrite_run hmap] at h
  obtain rfl := Except.ok.inj h
  have hread := mmioRead_run (s := { s with
    mmio_space_pool := patch s.mmio_space_pool (map.place addr) len.bytes (leByte data.toNat)
    dev := map.callback addr len.bytes true s.dev }) hmap addr len
  have hback := load_store_same s.mmio_space_pool (map.place addr) len.bytes data.toNat
  rw [store] at hback
  rw [hback] at hread
  exact ⟨_, hread⟩

/-- Only the four bytes at the address decide what a read sees. -/
theorem readWord_local_iff (pool : Nat → Byte) (map : MMIO_t δ) (addr : Addr) (P : Nat → Prop) :
    (∀ pool', (∀ x, P x → pool' x = pool x) → readWord pool' map addr = readWord pool map addr) ↔
      ∀ i, i < 4 → P (map.place addr + i) := by
  apply Iff.intro
  · intro h i hi
    by_contra hout
    -- another value of that byte is seen
    have hbyte := h (Function.update pool (map.place addr + i) (pool (map.place addr + i) + 1))
      (fun x hx => Function.update_of_ne (by rintro rfl; exact hout hx) ..)
    have hlt : ∀ f : Nat → Byte, leNat f 4 < 2 ^ 32 := fun f => leNat_lt f 4
    have hnum := congrArg BitVec.toNat hbyte
    rw [readWord, readWord, Ddr3.unalignRead4, Ddr3.unalignRead4, BitVec.toNat_ofNat,
      BitVec.toNat_ofNat, Nat.mod_eq_of_lt (hlt _), Nat.mod_eq_of_lt (hlt _)] at hnum
    have hsame := congrArg (fun n => leByte n i) hnum
    simp only [leByte_leNat hi, Function.update_self] at hsame
    have hne : pool (map.place addr + i) + 1 ≠ pool (map.place addr + i) := by simp
    exact hne hsame
  · intro h pool' hsame
    rw [readWord, readWord, Ddr3.unalignRead4, Ddr3.unalignRead4]
    exact congrArg (BitVec.ofNat 32) (leNat_congr (fun i hi => hsame _ (h i hi)))

/-- The map that `is_mmio` finds has the address. -/
theorem has_of_isMmio (h : s.isMmio addr = some map_NO) (hmap : s.maps[map_NO]? = some map) :
    map.low.toNat ≤ addr.toNat := by
  obtain ⟨hlt, hhas, -⟩ := List.findIdx?_eq_some_iff_getElem.mp h
  obtain ⟨_, heq⟩ := List.getElem?_eq_some_iff.mp hmap
  rw [heq] at hhas
  exact (of_decide_eq_true hhas).1

end Right

/-- In every state of a run the maps own disjoint slices of the pool; an access through the map
    that has its first address is right exactly if four bytes from there are in the range. -/
theorem mmio_right_iff (s : Mmio δ) (hs : Reachable s) :
    ((∀ map ∈ s.maps, map.mmio_space + map.size ≤ MMIO_SPACE_MAX) ∧
      s.maps.Pairwise fun a b => ∀ x, ¬ (a.Owns x ∧ b.Owns x)) ∧
    ∀ addr map_NO map len, s.isMmio addr = some map_NO → s.maps[map_NO]? = some map →
      (AccessRight s map_NO map addr len ↔ addr.toNat + 4 ≤ map.low.toNat + map.size) := by
  have hslices := hs.slices
  refine ⟨⟨fun map hmap => Nat.le_trans (hslices.bounds map hmap) hslices.free,
    hslices.order.imp ?_⟩, fun addr map_NO map len hfound hmap => ?_⟩
  · rintro a b hab x ⟨ha, hb⟩
    exact absurd (Nat.lt_of_lt_of_le ha.2 hab) (Nat.not_lt_of_le hb.1)
  · have hlow := has_of_isMmio hfound hmap
    have hplace : map.place addr = map.mmio_space + (addr.toNat - map.low.toNat) :=
      congrArg (map.mmio_space + ·) (BitVec.toNat_sub_of_le hlow)
    apply Iff.intro
    · intro hright
      obtain ⟨-, hlast⟩ := (readWord_local_iff _ map addr _).mp hright.read 3 (by decide)
      rw [hplace] at hlast
      omega
    · intro hfits
      have hown : ∀ i, i < 4 → map.Owns (map.place addr + i) := by
        intro i hi
        rw [MMIO_t.Owns, hplace]
        omega
      refine ⟨fun data s' hwrite x hx => ?_, (readWord_local_iff _ map addr _).mpr hown,
        fun data s' hwrite => readBack_of_write hmap len data hwrite⟩
      rw [mmioWrite_run hmap] at hwrite
      obtain rfl := Except.ok.inj hwrite
      refine patch_outside ?_
      by_contra hin
      have hle := len.bytes_le
      have hx' := hown (x - map.place addr) (by omega)
      rw [Nat.add_sub_cancel' (by omega)] at hx'
      exact hx hx'

-- the device memory of the VGA, with a device that does nothing
def vgaOnly : Mmio Unit :=
  { static () with
    maps := [{ low := 0xa0000, high := 0xbffff, mmio_space := 0, callback := fun _ _ _ u => u }]
    mmio_space_free_index := 0x20000 }

theorem vgaOnly_reachable : Reachable vgaOnly := by
  have hrange : (0xa0000 : Addr).toNat + (0x20000 : BitVec 64).toNat ≤ 2 ^ 32 := by decide
  have hadd : (static ()).addMmioMap 0xa0000 0x20000 (fun _ _ _ u => u) = .ok (0, vgaOnly) := rfl
  exact .add (.static ()) hrange hadd

-- the first word of the video memory
theorem mmio_right_first :
    ∃ map, vgaOnly.maps[0]? = some map ∧ AccessRight vgaOnly 0 map 0xa0000 .long := by
  have hright := (mmio_right_iff vgaOnly vgaOnly_reachable).2 0xa0000 0 _ .long rfl rfl
  exact ⟨_, rfl, hright.mpr (by decide)⟩

/-- Four bytes written at the last address go on behind the slice. -/
theorem mmio_write_spills :
    ¬ ∀ (s : Mmio Unit), Reachable s → ∀ addr map_NO map len, s.isMmio addr = some map_NO →
      s.maps[map_NO]? = some map → AccessRight s map_NO map addr len := by
  intro h
  have hright := h vgaOnly vgaOnly_reachable 0xbffff 0 _ .long rfl rfl
  have hsame := hright.write 0x01010101 _ (mmioWrite_run rfl 0xbffff .long 0x01010101) 0x20000
    (fun hown => absurd hown.2 (by decide))
  exact absurd hsame (by decide)

end Mmio

end Nemu
