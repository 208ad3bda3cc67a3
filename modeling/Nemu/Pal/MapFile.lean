/-
  Nemu.Pal.MapFile

  A map is what was packed into its two archives: its tiles in the YJ_1 format into the one,
  the bitmaps of the tiles into the other.
-/

import Nemu.Pal.Map
import Nemu.Pal.MkfArchive
import Nemu.Pal.Yj1Format

namespace Nemu.Pal

open Lz77 Outcome

/-- The tiles in the order in which they are stored. -/
def tileBytes (tiles : Nat → Nat → Nat → BitVec 32) : List Byte :=
  (List.range 16384).flatMap fun n => intBytes (tiles (n / 128) (n / 2 % 64) (n % 2))

/-- The YJ_1 file of some tiles. -/
structure MapFile where
  tiles : Nat → Nat → Nat → BitVec 32
  bytes : List Byte
  unpacks : ∃ cs x, FileAt bytes cs ∧ intAt bytes 4 = .ok x ∧ ¬x > 65536 ∧
    ∀ old : List Byte, old.length = 65536 → expand old cs [] = some (tileBytes tiles)

/-- The map of a file and of bitmaps. -/
structure MapFile.IsMap (f : MapFile) (sprite : List Byte) (k : BitVec 32) (map : PALMAP) : Prop where
  Tiles : ∀ y x h, y < 128 → x < 64 → h < 2 → map.Tiles y x h = f.tiles y x h
  pTileSprite : map.pTileSprite = sprite
  iMapNum : map.iMapNum = k

/-- What loading map `k` is to answer. -/
inductive Loaded (files : List MapFile) (gops : List (List Byte)) (k : BitVec 32) :
    Option PALMAP → Prop
  | map {f : MapFile} {g : List Byte} {map : PALMAP} (hk : k ≠ 0) (hf : files[k.toNat]? = some f)
      (hg : gops[k.toNat]? = some g) (hne : g ≠ []) (hmap : f.IsMap g k map) :
      Loaded files gops k (some map)
  | missing (h : k = 0 ∨ files[k.toNat]? = none ∨ gops[k.toNat]? = none ∨ gops[k.toNat]? = some []) :
      Loaded files gops k none

/-- `malloc` finds room. -/
structure MapMemory.Enough (malloc : MapMemory) : Prop where
  buf : ∀ n, ∃ fresh, malloc.buf n = some fresh
  map : ∃ tiles : List Byte, malloc.map = some tiles ∧ tiles.length = 65536
  tree : malloc.tree = true
  sprite : ∀ n, ∃ fresh, malloc.sprite n = some fresh

/-! ## The tiles -/

theorem length_tileBytes (tiles : Nat → Nat → Nat → BitVec 32) : (tileBytes tiles).length = 65536 := by
  rw [tileBytes, FixedWidth.length_flatMap fun _ => length_intBytes _, List.length_range]

theorem byteAt_drop (src : List Byte) (k i : Nat) : byteAt (src.drop k) i = byteAt src (k + i) := by
  rw [byteAt, byteAt, List.getElem?_drop]

theorem intAt_drop (src : List Byte) (k : Nat) : intAt (src.drop k) 0 = intAt src k := by
  simp only [intAt, shortAt, byteAt_drop, Nat.zero_add, Nat.add_assoc, Nat.add_zero]

theorem tilesOf_tileBytes (tiles : Nat → Nat → Nat → BitVec 32) {y x h : Nat} (hy : y < 128)
    (hx : x < 64) (hh : h < 2) : tilesOf (tileBytes tiles) y x h = tiles y x h := by
  obtain ⟨n, hn⟩ : ∃ n, n = (y * 64 + x) * 2 + h := ⟨_, rfl⟩
  have hlt : n < 16384 := by omega
  have htake := FixedWidth.take_drop_append
    (fun n => length_intBytes (tiles (n / 128) (n / 2 % 64) (n % 2)))
    (List.getElem?_range hlt) []
  rw [List.append_nil] at htake
  have hdrop : (tileBytes tiles).drop (4 * n) =
      intBytes (tiles (n / 128) (n / 2 % 64) (n % 2)) ++ ((tileBytes tiles).drop (4 * n)).drop 4 := by
    rw [← htake]
    exact (List.take_append_drop 4 _).symm
  have hint : intAt (tileBytes tiles) (4 * n) = .ok (tiles (n / 128) (n / 2 % 64) (n % 2)) := by
    rw [← intAt_drop, hdrop]
    exact intAt_intBytes _ _
  have hcoords : n / 128 = y ∧ n / 2 % 64 = x ∧ n % 2 = h := by omega
  rw [tilesOf, ← hn, hint, hcoords.1, hcoords.2.1, hcoords.2.2]

/-! ## Loading -/

section

variable {cs : List (List Byte)} (hsize : (archive cs).length < 2 ^ 31)

include hsize

theorem chunk_lt {k : BitVec 32} {c : List Byte} (hc : cs[k.toNat]? = some c) : c.length < 2 ^ 31 := by
  have hle := offset_le cs (k.toNat + 1)
  have hsucc := offset_succ hc
  omega

theorem chunkSize_toNat {k : BitVec 32} {c : List Byte} (hc : cs[k.toNat]? = some c) :
    (BitVec.ofNat 32 c.length).toNat = c.length := by
  have hlt := chunk_lt hsize hc
  rw [BitVec.toNat_ofNat]
  exact Nat.mod_eq_of_lt (by omega)

/-- A chunk that is there, into a buffer of its size. -/
theorem mkfReadChunk_whole {k : BitVec 32} {c : List Byte} (hc : cs[k.toNat]? = some c)
    (hne : c ≠ []) (unset : Unset) (fresh : Nat → Byte) (pos : Nat) :
    ∃ pos', mkfReadChunk unset (some ((List.range c.length).map fresh)) (BitVec.ofNat 32 c.length) k
        (some { bytes := archive cs, pos := pos }) =
      .ok (BitVec.ofNat 32 c.length, some c, some { bytes := archive cs, pos := pos' }) := by
  have hlt := chunk_lt hsize hc
  have hwidth := chunkSize_toNat hsize hc
  have hne0 := ofNat_ne_zero (List.length_pos_of_ne_nil hne) (by omega)
  have hread : readChunk c ((List.range c.length).map fresh) (BitVec.ofNat 32 c.length) =
      .ok (BitVec.ofNat 32 c.length, some c) := by
    have hlen : ((List.range c.length).map fresh).length = c.length := by
      rw [List.length_map, List.length_range]
    rw [readChunk, hwidth, if_neg (Nat.lt_irrefl _), if_neg hne, if_pos (Nat.le_of_eq hlen.symm),
      List.drop_of_length_le (Nat.le_of_eq hlen), List.append_nil]
  rcases mkfReadChunk_some hsize pos hc hne0 unset ((List.range c.length).map fresh) with
    ⟨e, -, herr⟩ | ⟨n, buf, pos', hrun, hok⟩
  · rw [hread] at herr
    cases herr
  · rw [hread] at hok
    obtain ⟨rfl, hbuf⟩ := Prod.mk.inj (Except.ok.inj hok)
    rw [← hbuf] at hrun
    exact ⟨pos', hrun⟩

theorem count_toInt : (BitVec.ofNat 32 cs.length).toInt = cs.length := by
  have hlt := length_lt hsize
  have hnat : (BitVec.ofNat 32 cs.length).toNat = cs.length := by
    rw [BitVec.toNat_ofNat]
    exact Nat.mod_eq_of_lt (by omega)
  rw [BitVec.toInt_eq_toNat_of_lt (by omega), hnat]

end

theorem MapFile.nonempty (f : MapFile) : f.bytes ≠ [] := by
  obtain ⟨cs, x, hfile, -, -, -⟩ := f.unpacks
  intro hnil
  have hsig := hfile.signature
  rw [hnil] at hsig
  cases hsig

theorem MapFile.decompress (f : MapFile) {tiles : List Byte} (hlen : tiles.length = 65536) :
    ∃ x : BitVec 32, ¬x.toInt < 0 ∧
      Decompress true (some f.bytes) tiles 65536 = .ok (x, tileBytes f.tiles) := by
  obtain ⟨cs, x, hfile, hx, hfits, hout⟩ := f.unpacks
  have hlt : x.toNat ≤ 65536 := by
    rw [gt_iff_lt, BitVec.lt_def] at hfits
    exact Nat.le_of_not_lt hfits
  have hrest : tiles.drop (tileBytes f.tiles).length = [] :=
    List.drop_of_length_le (by rw [length_tileBytes, hlen])
  refine ⟨x, ?_, ?_⟩
  · rw [BitVec.toInt_eq_toNat_of_lt (by omega)]
    omega
  · rw [decompress_file hfile hx hfits (hout tiles hlen), hrest, List.append_nil]

/-- Maps are loaded as they were packed, in any order, and no map that there is nothing of. -/
theorem loadMap_archive {files : List MapFile} {gops : List (List Byte)} {malloc : MapMemory}
    (hmaps : (archive (files.map MapFile.bytes)).length < 2 ^ 31)
    (hgops : (archive gops).length < 2 ^ 31) (hmalloc : malloc.Enough) (unset : Nat → Unset)
    (k : BitVec 32) (pos pos' : Nat) :
    ∃ map p p', loadMap unset malloc k (some { bytes := archive (files.map MapFile.bytes), pos := pos })
        (some { bytes := archive gops, pos := pos' }) =
          .ok (map, some { bytes := archive (files.map MapFile.bytes), pos := p },
            some { bytes := archive gops, pos := p' }) ∧
      Loaded files gops k map := by
  have hcount := count_toInt hmaps
  have hcount' := count_toInt hgops
  have hlength := length_lt hmaps
  have hlength' := length_lt hgops
  rw [List.length_map] at hcount hlength
  have hk : k.toInt = k.toNat ∨ (k.toInt < 0 ∧ 2 ^ 31 ≤ k.toNat) := by
    rw [BitVec.toInt_eq_toNat_cond]
    split
    · exact .inl rfl
    · exact .inr ⟨by omega, by omega⟩
  rw [loadMap, mkfGetChunkCount_eq hmaps, ok_bind]
  dsimp only
  rw [List.length_map, hcount]
  by_cases hover : k.toInt ≥ files.length
  · rw [if_pos hover]
    exact ⟨_, _, _, rfl, .missing (.inr (.inl (List.getElem?_eq_none_iff.mpr (by omega))))⟩
  rw [if_neg hover, mkfGetChunkCount_eq hgops, ok_bind]
  dsimp only
  rw [hcount']
  by_cases hrange : k.toInt ≥ gops.length ∨ k.toInt ≤ 0
  · rw [if_pos hrange]
    refine ⟨_, _, _, rfl, .missing ?_⟩
    by_cases hzero : k.toNat = 0
    · exact .inl (BitVec.eq_of_toNat_eq hzero)
    · by_cases hneg : k.toInt < 0
      · -- a negative number is a large one
        exact .inr (.inl (List.getElem?_eq_none_iff.mpr (by omega)))
      · exact .inr (.inr (.inl (List.getElem?_eq_none_iff.mpr (by omega))))
  rw [if_neg hrange]
  obtain ⟨f, hf⟩ : ∃ f, files[k.toNat]? = some f := ⟨_, List.getElem?_eq_getElem (by omega)⟩
  obtain ⟨g, hg⟩ : ∃ g, gops[k.toNat]? = some g := ⟨_, List.getElem?_eq_getElem (by omega)⟩
  have hbytes : (files.map MapFile.bytes)[k.toNat]? = some f.bytes := by rw [List.getElem?_map, hf]; rfl
  obtain ⟨fresh, hfresh⟩ := hmalloc.buf f.bytes.length
  obtain ⟨tiles, htiles, hlen⟩ := hmalloc.map
  obtain ⟨p, hread⟩ := mkfReadChunk_whole hmaps hbytes f.nonempty (unset 3) fresh
    (4 * (k.toNat + 2))
  obtain ⟨x, hx, hdecompress⟩ := f.decompress hlen
  have hpos : ∀ {c : List Byte}, c.length < 2 ^ 31 → ¬(BitVec.ofNat 32 c.length).toInt < 0 := by
    intro c hc
    rw [BitVec.toInt_eq_toNat_of_lt (by rw [BitVec.toNat_ofNat]; omega)]
    omega
  rw [mkfGetChunkSize_some hmaps 4 hbytes, ok_bind]
  dsimp only
  rw [chunkSize_toNat hmaps hbytes, hfresh, htiles]
  dsimp only
  rw [hread, ok_bind]
  dsimp only
  rw [if_neg (hpos (chunk_lt hmaps hbytes)), hmalloc.tree, hdecompress, ok_bind]
  dsimp only
  rw [if_neg hx, mkfGetChunkSize_some hgops 4 hg, ok_bind]
  dsimp only
  by_cases hnil : g = []
  · subst hnil
    rw [if_pos (by decide)]
    exact ⟨_, _, _, rfl, .missing (.inr (.inr (.inr hg)))⟩
  have hgsize : ¬(BitVec.ofNat 32 g.length).toInt ≤ 0 := by
    have hlt := chunk_lt hgops hg
    have hgpos := List.length_pos_of_ne_nil hnil
    rw [BitVec.toInt_eq_toNat_of_lt (by rw [BitVec.toNat_ofNat]; omega), BitVec.toNat_ofNat]
    omega
  obtain ⟨fresh', hfresh'⟩ := hmalloc.sprite g.length
  obtain ⟨p', hread'⟩ := mkfReadChunk_whole hgops hg hnil (unset 5) fresh' (4 * (k.toNat + 2))
  rw [if_neg hgsize, chunkSize_toNat hgops hg, hfresh']
  dsimp only
  rw [hread', ok_bind]
  dsimp only
  rw [if_neg (hpos (chunk_lt hgops hg))]
  have hk0 : k ≠ 0 := by
    rintro rfl
    exact hrange (.inr (by decide))
  have htiles : ∀ y x h, y < 128 → x < 64 → h < 2 →
      tilesOf (tileBytes f.tiles) y x h = f.tiles y x h := fun _ _ _ => tilesOf_tileBytes f.tiles
  generalize tilesOf (tileBytes f.tiles) = loaded at htiles
  have hmap : f.IsMap g k { Tiles := loaded, pTileSprite := g, iMapNum := k } := ⟨htiles, rfl, rfl⟩
  exact ⟨_, p, p', rfl, .map hk0 hf hg hnil hmap⟩

/-! ## Packing -/

/-- A file with two stored blocks and no tree. -/
def storedTiles (a b : List Byte) : List Byte :=
  [0x59, 0x4a, 0x5f, 0x31, 0, 0, 1, 0, 24, 0, 1, 0, 2, 0, 0, 0, 0, 0x80, 0, 0] ++ a ++
    ([0, 0x80, 0, 0] ++ b)

theorem shortAt_drop (src : List Byte) (k i : Nat) : shortAt (src.drop k) i = shortAt src (k + i) := by
  simp only [shortAt, byteAt_drop, Nat.add_assoc]

theorem fileAt_storedTiles {a b : List Byte} (ha : a.length = 32768) (hb : b.length = 32768) :
    FileAt (storedTiles a b) ((a ++ b).map .lit) := by
  have hhead : (storedTiles a b).drop 20 = a ++ ([0, 0x80, 0, 0] ++ b) := by
    rw [storedTiles, List.append_assoc]
    exact List.drop_left' rfl
  have hrest : (storedTiles a b).drop 32788 = [0, 0x80, 0, 0] ++ b := by
    rw [storedTiles]
    exact List.drop_left' (by rw [List.length_append, ha]; rfl)
  have hlast : (storedTiles a b).drop 32792 = b := by
    rw [show 32792 = 32788 + 4 from rfl, ← List.drop_drop, hrest]
    exact List.drop_left' rfl
  refine ⟨rfl, 0, [{ value := 0, leaf := false, left := some 1, right := some 2 }], 2, rfl, ?_, rfl, ?_⟩
  · exact ⟨rfl, rfl, fun i hi => absurd hi (Nat.not_lt_zero i)⟩
  · rw [List.map_append, ← List.append_nil (b.map Cmd.lit)]
    refine @BlocksAt.stored _ _ _ _ 0x8000 _ _ rfl rfl ha ?_
      (@BlocksAt.stored _ _ _ _ 0x8000 _ _ ?_ ?_ hb ?_ .nil)
    · show ((storedTiles a b).drop 20).take 32768 = a
      rw [hhead]
      exact List.take_left' ha
    · show shortAt (storedTiles a b) (32788 + 2) = _
      rw [← shortAt_drop, hrest]
      rfl
    · show shortAt (storedTiles a b) (32788 + 0) = _
      rw [← shortAt_drop, hrest]
      rfl
    · show ((storedTiles a b).drop 32792).take 32768 = b
      rw [hlast]
      exact List.take_of_length_le (Nat.le_of_eq hb)

/-- Any tiles can be packed. -/
def MapFile.stored (tiles : Nat → Nat → Nat → BitVec 32) : MapFile where
  tiles := tiles
  bytes := storedTiles ((tileBytes tiles).take 32768) ((tileBytes tiles).drop 32768)
  unpacks := by
    have hlen := length_tileBytes tiles
    have hfile := fileAt_storedTiles (a := (tileBytes tiles).take 32768)
      (b := (tileBytes tiles).drop 32768) (by rw [List.length_take, hlen]; rfl)
      (by rw [List.length_drop, hlen])
    rw [List.take_append_drop] at hfile
    refine ⟨_, 0x10000, hfile, rfl, by decide, fun old hold => ?_⟩
    have hroom : ([] : List Byte).length + (tileBytes tiles).length ≤ old.length := by
      rw [List.length_nil, hlen, hold]
    have hout := expand_lits (tileBytes tiles) hroom
    rwa [List.nil_append] at hout

theorem MapFile.length_stored (tiles : Nat → Nat → Nat → BitVec 32) :
    (MapFile.stored tiles).bytes.length = 65560 := by
  have hlen := length_tileBytes tiles
  show (storedTiles ((tileBytes tiles).take 32768) ((tileBytes tiles).drop 32768)).length = 65560
  simp only [storedTiles, List.length_append, List.length_take, List.length_drop, hlen, List.length_cons,
    List.length_nil]
  omega

def MapFile.flat : MapFile := .stored fun _ _ _ => 0

def MapMemory.zeroed : MapMemory :=
  { buf := fun _ => some fun _ => 0
    map := some (List.replicate 65536 0)
    tree := true
    sprite := fun _ => some fun _ => 0 }

theorem MapMemory.enough_zeroed : MapMemory.zeroed.Enough :=
  ⟨fun _ => ⟨_, rfl⟩, ⟨_, rfl, List.length_replicate⟩, rfl, fun _ => ⟨_, rfl⟩⟩

theorem archive_flat_lt : (archive ([.flat, .flat].map MapFile.bytes)).length < 2 ^ 31 := by
  have hlen : MapFile.flat.bytes.length = 65560 := MapFile.length_stored _
  simp only [length_archive, offset, List.map_cons, List.map_nil, List.length_cons, List.length_nil,
    hlen, List.take_succ_cons, List.take_zero, List.sum_cons, List.sum_nil]
  omega

theorem loadMap_archive_flat :
    ∃ map p p', loadMap (fun _ => ⟨0, 0, 0, 0⟩) .zeroed 1
        (some { bytes := archive ([.flat, .flat].map MapFile.bytes), pos := 0 })
        (some { bytes := archive [[], [2, 0, 4, 0]], pos := 0 }) =
          .ok (map, some { bytes := archive ([.flat, .flat].map MapFile.bytes), pos := p },
            some { bytes := archive [[], [2, 0, 4, 0]], pos := p' }) ∧
      Loaded [.flat, .flat] [[], [2, 0, 4, 0]] 1 map :=
  loadMap_archive archive_flat_lt (by decide) MapMemory.enough_zeroed _ _ _ _

end Nemu.Pal
