/-
  Nemu.Pal.WalkingSafety

  Nobody of the party gets to a place that is blocked, whatever keys are pressed.

  The tiles of a map are diamonds that cover the plane without overlaps, and
  `PAL_CheckObstacle` finds the one at a position.
-/

import Nemu.Pal.Walking

namespace Nemu.Pal

/-! ## Free places -/

/-- The position is in the diamond around the centre of the tile. -/
def Spot.Covers (s : Spot) (q : Int × Int) : Prop :=
  -16 ≤ q.1 - (s.left + 16) + 2 * (q.2 - (s.top + 8)) ∧
    q.1 - (s.left + 16) + 2 * (q.2 - (s.top + 8)) < 16 ∧
    -16 < q.1 - (s.left + 16) - 2 * (q.2 - (s.top + 8)) ∧
    q.1 - (s.left + 16) - 2 * (q.2 - (s.top + 8)) ≤ 16

/-- The tile is on the map and has no block flag. -/
def Spot.Open (lpMap : Option PALMAP) (s : Spot) : Prop :=
  ∃ map, lpMap = some map ∧ (0 ≤ s.x ∧ s.x < 64 ∧ 0 ≤ s.y ∧ s.y < 128) ∧
    (map.Tiles s.y.toNat s.x.toNat s.h.val).getLsbD 13 = false

/-- One may stand at `q`. -/
structure Scene.Free (scene : Scene) (q : Int × Int) : Prop where
  inside : (0 ≤ q.1 ∧ q.1 < 2048) ∧ 0 ≤ q.2 ∧ q.2 < 2048
  tile : ∀ s : Spot, s.Covers q → s.Open scene.map
  apart : ∀ p ∈ scene.objects, kObjStateBlocker ≤ p.sState.toInt →
    16 ≤ (p.x.toNat - q.1).natAbs + 2 * (p.y.toNat - q.2).natAbs

/-- The diamonds do not overlap. -/
theorem Spot.covers_unique {s t : Spot} {q : Int × Int} (hs : s.Covers q) (ht : t.Covers q) :
    s = t := by
  obtain ⟨y, h, x⟩ := s
  obtain ⟨y', h', x'⟩ := t
  simp only [Spot.Covers, Spot.left, Spot.top] at hs ht
  have hlt := h.isLt
  have hlt' := h'.isLt
  obtain rfl : x = x' := by omega
  obtain rfl : y = y' := by omega
  obtain rfl : h = h' := Fin.ext (by omega)
  rfl

/-- Which of the five tiles near a position it is. -/
theorem tileAt_cases (X Y : Int) :
    (tileAt X Y = (X / 32, Y / 16, 0) ∧ X % 32 + Y % 16 * 2 < 16) ∨
      (tileAt X Y = (X / 32 + 1, Y / 16 + 1, 0) ∧ 48 ≤ X % 32 + Y % 16 * 2) ∨
      (tileAt X Y = (X / 32 + 1, Y / 16, 0) ∧ 32 - X % 32 + Y % 16 * 2 < 16) ∨
      (tileAt X Y = (X / 32, Y / 16 + 1, 0) ∧ 48 ≤ 32 - X % 32 + Y % 16 * 2) ∨
      tileAt X Y = (X / 32, Y / 16, 1) ∧ (16 ≤ X % 32 + Y % 16 * 2 ∧ X % 32 + Y % 16 * 2 < 48) ∧
        16 ≤ 32 - X % 32 + Y % 16 * 2 ∧ 32 - X % 32 + Y % 16 * 2 < 48 := by
  rw [tileAt]
  by_cases h₁ : X % 32 + Y % 16 * 2 ≥ 16
  · rw [if_pos h₁]
    by_cases h₂ : X % 32 + Y % 16 * 2 ≥ 48
    · rw [if_pos h₂]
      exact .inr (.inl ⟨rfl, h₂⟩)
    rw [if_neg h₂]
    by_cases h₃ : 32 - X % 32 + Y % 16 * 2 < 16
    · rw [if_pos h₃]
      exact .inr (.inr (.inl ⟨rfl, h₃⟩))
    rw [if_neg h₃]
    by_cases h₄ : 32 - X % 32 + Y % 16 * 2 < 48
    · rw [if_pos h₄]
      exact .inr (.inr (.inr (.inr ⟨rfl, by omega, by omega, h₄⟩)))
    · rw [if_neg h₄]
      exact .inr (.inr (.inr (.inl ⟨rfl, by omega⟩)))
  · rw [if_neg h₁]
    exact .inl ⟨rfl, by omega⟩

/-- They cover the plane, and the code finds the one that covers a position. -/
theorem tileAt_covers (q : Int × Int) : ∃ h : Fin 2, (tileAt q.1 q.2).2.2 = (h.val : Int) ∧
    Spot.Covers ⟨(tileAt q.1 q.2).2.1, h, (tileAt q.1 q.2).1⟩ q := by
  have hx := Int.mul_ediv_add_emod q.1 32
  have hy := Int.mul_ediv_add_emod q.2 16
  have hfst : ∀ {x y : Int}, Spot.Covers ⟨y, 0, x⟩ q ↔
      -16 ≤ q.1 - x * 32 + 2 * (q.2 - y * 16) ∧ q.1 - x * 32 + 2 * (q.2 - y * 16) < 16 ∧
        -16 < q.1 - x * 32 - 2 * (q.2 - y * 16) ∧ q.1 - x * 32 - 2 * (q.2 - y * 16) ≤ 16 := by
    intro x y
    simp only [Spot.Covers, Spot.left, Spot.top, Fin.val_zero]
    omega
  rcases tileAt_cases q.1 q.2 with ⟨h, hin⟩ | ⟨h, hin⟩ | ⟨h, hin⟩ | ⟨h, hin⟩ | ⟨h, hin⟩
  · rw [h]
    exact ⟨0, rfl, hfst.mpr (by dsimp only; omega)⟩
  · rw [h]
    exact ⟨0, rfl, hfst.mpr (by dsimp only; omega)⟩
  · rw [h]
    exact ⟨0, rfl, hfst.mpr (by dsimp only; omega)⟩
  · rw [h]
    exact ⟨0, rfl, hfst.mpr (by dsimp only; omega)⟩
  · rw [h]
    refine ⟨1, rfl, ?_⟩
    simp only [Spot.Covers, Spot.left, Spot.top, Fin.val_one]
    omega

theorem tileAt_range {q : Int × Int} (hx : 0 ≤ q.1 ∧ q.1 < 2048) (hy : 0 ≤ q.2 ∧ q.2 < 2048) :
    (0 ≤ (tileAt q.1 q.2).1 ∧ (tileAt q.1 q.2).1 ≤ 64) ∧
      0 ≤ (tileAt q.1 q.2).2.1 ∧ (tileAt q.1 q.2).2.1 ≤ 128 := by
  rcases tileAt_cases q.1 q.2 with ⟨h, -⟩ | ⟨h, -⟩ | ⟨h, -⟩ | ⟨h, -⟩ | ⟨h, -⟩
  all_goals
    rw [h]
    dsimp only
    omega

-- the block flag
theorem flag_eq_zero (d : BitVec 32) : (d &&& 0x2000) >>> 13 = 0 ↔ d.getLsbD 13 = false := by
  rw [show (0x2000 : BitVec 32) = BitVec.twoPow 32 13 by decide, BitVec.and_twoPow]
  cases d.getLsbD 13 with
  | false => exact iff_of_true (by decide) rfl
  | true => exact iff_of_false (by decide) Bool.false_ne_true.symm

theorem mapTileIsBlocked_iff {lpMap : Option PALMAP} {s : Spot} (hx : 0 ≤ s.x ∧ s.x ≤ 64)
    (hy : 0 ≤ s.y ∧ s.y ≤ 128) :
    mapTileIsBlocked (BitVec.ofInt 8 s.x) (BitVec.ofInt 8 s.y) (BitVec.ofInt 8 (s.h.val : Int))
      lpMap = false ↔ s.Open lpMap := by
  have hxn := toNat_ofInt_byte s.x
  have hyn := toNat_ofInt_byte s.y
  have hhn := toNat_ofInt_byte (s.h.val : Int)
  have hh := s.h.isLt
  cases lpMap with
  | none => exact iff_of_false Bool.false_ne_true.symm fun ⟨_, h, _⟩ => by cases h
  | some map =>
      rw [mapTileIsBlocked]
      by_cases hin : s.x < 64 ∧ s.y < 128
      · have hxs : (BitVec.ofInt 8 s.x).toNat = s.x.toNat := by omega
        have hys : (BitVec.ofInt 8 s.y).toNat = s.y.toNat := by omega
        have hhs : (BitVec.ofInt 8 (s.h.val : Int)).toNat = s.h.val := by omega
        have hnot : ¬(BitVec.ofInt 8 s.x ≥ 64 ∨ BitVec.ofInt 8 s.y ≥ 128 ∨
            BitVec.ofInt 8 (s.h.val : Int) > 1) := by
          simp only [ge_iff_le, gt_iff_lt, BitVec.le_def, BitVec.lt_def, BitVec.ofNat_eq_ofNat,
            BitVec.toNat_ofNat]
          omega
        rw [if_neg hnot, hxs, hys, hhs, decide_eq_false_iff_not, ne_eq, not_not, flag_eq_zero]
        constructor
        · exact fun hflag => ⟨map, rfl, by omega, hflag⟩
        · rintro ⟨map', hmap, -, hflag⟩
          cases hmap
          exact hflag
      · have hout : BitVec.ofInt 8 s.x ≥ 64 ∨ BitVec.ofInt 8 s.y ≥ 128 ∨
            BitVec.ofInt 8 (s.h.val : Int) > 1 := by
          simp only [ge_iff_le, gt_iff_lt, BitVec.le_def, BitVec.lt_def, BitVec.ofNat_eq_ofNat,
            BitVec.toNat_ofNat]
          omega
        rw [if_pos hout]
        exact iff_of_false Bool.false_ne_true.symm fun ⟨_, _, h, _⟩ => by omega

/-- `PAL_CheckObstacle` answers for a party member whether one may stand there. -/
theorem checkObstacle_iff (scene : Scene) (pos : BitVec 32) :
    checkObstacle scene pos true 0 = false ↔ scene.Free (palX pos, palY pos) := by
  rw [checkObstacle]
  by_cases hin : (0 ≤ palX pos ∧ palX pos < 2048) ∧ 0 ≤ palY pos ∧ palY pos < 2048
  · obtain ⟨h, hh, hcovers⟩ := tileAt_covers (palX pos, palY pos)
    obtain ⟨hx, hy⟩ := @tileAt_range (palX pos, palY pos) hin.1 hin.2
    have hblocked := @mapTileIsBlocked_iff scene.map ⟨_, h, _⟩ hx hy
    dsimp only at hh hcovers hblocked ⊢
    rw [if_neg (by omega), hh]
    cases hmap : mapTileIsBlocked (BitVec.ofInt 8 (tileAt (palX pos) (palY pos)).1)
        (BitVec.ofInt 8 (tileAt (palX pos) (palY pos)).2.1) (BitVec.ofInt 8 (h.val : Int))
        scene.map with
    | true =>
        rw [if_pos rfl]
        refine iff_of_false Bool.false_ne_true.symm fun hfree => ?_
        have hopen := hblocked.mpr (hfree.tile _ hcovers)
        exact Bool.false_ne_true (hopen.symm.trans hmap)
    | false =>
        rw [if_neg Bool.false_ne_true, Bool.true_and, List.any_eq_false]
        constructor
        · intro hnone
          refine ⟨hin, fun s hs => ?_, fun p hp hstate => ?_⟩
          · obtain rfl := Spot.covers_unique hs hcovers
            exact hblocked.mp hmap
          · rw [← List.zipIdx_map_fst scene.first scene.objects] at hp
            obtain ⟨⟨p, i⟩, hmem, rfl⟩ := List.mem_map.mp hp
            have hfar := hnone _ hmem
            rw [decide_eq_true_iff] at hfar
            dsimp only at hfar hstate ⊢
            omega
        · rintro hfree ⟨p, i⟩ hmem
          have hp : p ∈ scene.objects := by
            rw [← List.zipIdx_map_fst scene.first scene.objects]
            exact List.mem_map.mpr ⟨_, hmem, rfl⟩
          have hfar := hfree.apart p hp
          rw [decide_eq_true_iff]
          dsimp only at hfar ⊢
          omega
  · dsimp only
    rw [if_pos (by omega)]
    exact iff_of_false Bool.false_ne_true.symm fun hfree => hin hfree.inside

/-! ## Placing the party -/

-- positions on the map
def TRAIL.at (t : TRAIL) : Int × Int := (t.x.toNat, t.y.toNat)

namespace Party

def leader (g : Party) : Int × Int :=
  (palX g.viewport + palX g.partyoffset, palY g.viewport + palY g.partyoffset)

def member (g : Party) (i : Nat) : Int × Int :=
  ((g.rgParty i).x.toInt + palX g.viewport, (g.rgParty i).y.toInt + palY g.viewport)

/-- The members behind the first, with the follower. -/
def last (g : Party) : Nat := g.wMaxPartyMemberIndex + if g.nFollower > 0 then 1 else 0

/-- Nothing in `g` that decides where somebody goes is different in `g'`. -/
structure SameGround (g g' : Party) : Prop where
  viewport : g'.viewport = g.viewport
  partyoffset : g'.partyoffset = g.partyoffset
  rgTrail : g'.rgTrail = g.rgTrail
  wMaxPartyMemberIndex : g'.wMaxPartyMemberIndex = g.wMaxPartyMemberIndex
  nFollower : g'.nFollower = g.nFollower

theorem SameGround.refl (g : Party) : SameGround g g := ⟨rfl, rfl, rfl, rfl, rfl⟩

theorem SameGround.trans {g g' g'' : Party} (h : SameGround g g') (h' : SameGround g' g'') :
    SameGround g g'' :=
  ⟨h'.viewport.trans h.viewport, h'.partyoffset.trans h.partyoffset, h'.rgTrail.trans h.rgTrail,
    h'.wMaxPartyMemberIndex.trans h.wMaxPartyMemberIndex, h'.nFollower.trans h.nFollower⟩

theorem sameGround_modify (g : Party) (i : Nat) (f : PARTY → PARTY) : SameGround g (g.modify i f) :=
  ⟨rfl, rfl, rfl, rfl, rfl⟩

@[simp] theorem rgParty_modify (g : Party) (i : Nat) (f : PARTY → PARTY) :
    (g.modify i f).rgParty i = f (g.rgParty i) := Function.update_self ..

theorem rgParty_modify_of_ne (g : Party) {i j : Nat} (h : j ≠ i) (f : PARTY → PARTY) :
    (g.modify i f).rgParty j = g.rgParty j := Function.update_of_ne h _ _

-- a frame is not a place
theorem member_modify_frame (g : Party) (i j : Nat) (wFrame : BitVec 16) :
    (g.modify i fun p => { p with wFrame := wFrame }).member j = g.member j := by
  by_cases h : j = i
  · subst h
    rw [member, rgParty_modify]
    rfl
  · rw [member, rgParty_modify_of_ne g h]
    rfl

/-- The map on the screen. -/
structure InView (g : Party) : Prop where
  x : -400 ≤ palX g.viewport ∧ palX g.viewport ≤ 2100
  y : -400 ≤ palY g.viewport ∧ palY g.viewport ≤ 2100

end Party

theorem Party.SameGround.inView {g g' : Party} (h : SameGround g g') (hview : g.InView) :
    g'.InView := by
  obtain ⟨hx, hy⟩ := hview
  rw [← h.viewport] at hx hy
  exact ⟨hx, hy⟩

theorem toInt_ofInt_word {i : Int} (h : -32768 ≤ i ∧ i < 32768) : (BitVec.ofInt 16 i).toInt = i := by
  rw [BitVec.toInt_ofInt]
  exact Int.bmod_eq_of_le (by omega) (by omega)

theorem toInt_add_word {a b : BitVec 16} (ha : -30000 ≤ a.toInt ∧ a.toInt ≤ 30000)
    (hb : -16 ≤ b.toInt ∧ b.toInt ≤ 16) : -30016 ≤ (a + b).toInt ∧ (a + b).toInt ≤ 30016 := by
  rw [BitVec.toInt_add, Int.bmod_eq_of_le (by omega) (by omega)]
  omega

theorem aside_bounds (i : Nat) (d : BitVec 16) {x y : BitVec 16}
    (hx : -30000 ≤ x.toInt ∧ x.toInt ≤ 30000) (hy : -30000 ≤ y.toInt ∧ y.toInt ≤ 30000) :
    (-30016 ≤ (aside i d x y).1.toInt ∧ (aside i d x y).1.toInt ≤ 30016) ∧
      -30016 ≤ (aside i d x y).2.toInt ∧ (aside i d x y).2.toInt ≤ 30016 := by
  rw [aside]
  split
  · refine ⟨toInt_add_word hx ?_, toInt_add_word hy (by decide)⟩
    split <;> decide
  · refine ⟨toInt_add_word hx ?_, toInt_add_word hy ?_⟩
    · split <;> decide
    · split <;> decide

section Placing

variable {scene : Scene} {g : Party}

theorem Party.onScreen_at (hview : g.InView) {t : TRAIL} (hfree : scene.Free t.at) :
    (g.onScreen t).1.toInt = t.x.toNat - palX g.viewport ∧
      (g.onScreen t).2.toInt = t.y.toNat - palY g.viewport := by
  obtain ⟨⟨hx, hx'⟩, hy, hy'⟩ := hfree.inside
  obtain ⟨hvx, hvy⟩ := hview
  rw [TRAIL.at] at hx hx' hy hy'
  exact ⟨toInt_ofInt_word (by omega), toInt_ofInt_word (by omega)⟩

/-- A member goes beside the trail or, if something is there, on it. -/
theorem Party.placeMember_free (hview : g.InView) (hfree : scene.Free (g.rgTrail 1).at)
    (iStepFrameLeader : BitVec 32) (i : Nat) :
    scene.Free ((g.placeMember scene iStepFrameLeader i).member i) := by
  obtain ⟨hbx, hby⟩ := Party.onScreen_at hview hfree
  obtain ⟨⟨hx, hx'⟩, hy, hy'⟩ := hfree.inside
  rw [TRAIL.at] at hx hx' hy hy'
  obtain ⟨hvx, hvy⟩ := hview
  obtain ⟨hsx, hsy⟩ := @aside_bounds i (g.rgTrail 1).wDirection (g.onScreen (g.rgTrail 1)).1
    (g.onScreen (g.rgTrail 1)).2 (by omega) (by omega)
  rw [Party.placeMember, Party.member, Party.rgParty_modify]
  dsimp only
  generalize hside : aside i (g.rgTrail 1).wDirection (g.onScreen (g.rgTrail 1)).1
    (g.onScreen (g.rgTrail 1)).2 = side at hsx hsy
  show scene.Free (_ + palX g.viewport, _ + palY g.viewport)
  cases hcheck : checkObstacle scene
      (palXY (side.1.toInt + palX g.viewport) (side.2.toInt + palY g.viewport)) true 0 with
  | true =>
      rw [if_pos rfl, hbx, hby, Int.sub_add_cancel, Int.sub_add_cancel]
      exact hfree
  | false =>
      rw [if_neg Bool.false_ne_true]
      have hat := (checkObstacle_iff scene _).mp hcheck
      rwa [palX_palXY (by omega) (by omega), palY_palXY (by omega) (by omega)] at hat

theorem Party.placeMembers_free (iStepFrameLeader : BitVec 32) (n : Nat) : ∀ (i : Nat) (g : Party),
    g.InView → scene.Free (g.rgTrail 1).at →
      SameGround g (placeMembers scene iStepFrameLeader n i g) ∧
      ∀ j, (i ≤ j → j < i + n →
          scene.Free ((placeMembers scene iStepFrameLeader n i g).member j)) ∧
        (j < i → (placeMembers scene iStepFrameLeader n i g).rgParty j = g.rgParty j) := by
  induction n with
  | zero => exact fun i g _ _ => ⟨.refl g, fun j => ⟨fun _ _ => by omega, fun _ => rfl⟩⟩
  | succ n ih =>
      intro i g hview hfree
      have hplace := Party.placeMember_free hview hfree iStepFrameLeader i
      have hground : SameGround g (g.placeMember scene iStepFrameLeader i) :=
        ⟨rfl, rfl, rfl, rfl, rfl⟩
      obtain ⟨hrest, hmembers⟩ := ih (i + 1) (g.placeMember scene iStepFrameLeader i)
        (hground.inView hview) hfree
      refine ⟨hground.trans hrest, fun j => ⟨fun hij hj => ?_, fun hj => ?_⟩⟩
      · by_cases hji : j = i
        · subst hji
          have hkept := (hmembers j).2 (Nat.lt_succ_self j)
          rw [placeMembers, Party.member, hkept, hrest.viewport]
          exact hplace
        · exact (hmembers j).1 (by omega) (by omega)
      · refine ((hmembers j).2 (by omega)).trans ?_
        rw [Party.placeMember]
        exact rgParty_modify_of_ne g (Nat.ne_of_lt hj) _

theorem Party.standMembers_keeps (n : Nat) : ∀ (i : Nat) (g : Party),
    SameGround g (standMembers n i g) ∧ ∀ j, (standMembers n i g).member j = g.member j := by
  induction n with
  | zero => exact fun i g => ⟨.refl g, fun _ => rfl⟩
  | succ n ih =>
      intro i g
      obtain ⟨hground, hmembers⟩ := ih (i + 1) (g.modify i fun p =>
        { p with wFrame := g.standFrame i (g.rgTrail 2).wDirection })
      refine ⟨(sameGround_modify ..).trans hground, fun j => (hmembers j).trans ?_⟩
      exact Party.member_modify_frame g i j _

/-- Walking puts everybody behind the first on free places. -/
theorem Party.updateGestures_walking (hview : g.InView)
    (htrail : ∀ i < 5, scene.Free (g.rgTrail i).at) :
    SameGround g (updateGestures scene true g) ∧
      ∀ j, 1 ≤ j → j ≤ g.last → scene.Free ((updateGestures scene true g).member j) := by
  rw [updateGestures]
  dsimp only
  rw [if_pos rfl]
  generalize ((g.iThisStepFrame + 1) % 4) = step
  generalize (if step &&& 1 ≠ 0 then (step + 1) / 2 else 0) = iStepFrameLeader
  generalize (if step &&& 1 ≠ 0 then 3 - iStepFrameLeader else 0) = iStepFrameFollower
  generalize hfirst : Party.modify { g with iThisStepFrame := step } 0 _ = g₀
  have hground₀ : SameGround g g₀ := by
    subst hfirst
    exact ⟨rfl, rfl, rfl, rfl, rfl⟩
  have htrail₀ : ∀ i < 5, scene.Free (g₀.rgTrail i).at := by
    rw [hground₀.rgTrail]
    exact htrail
  obtain ⟨hground₁, hmembers⟩ := Party.placeMembers_free iStepFrameLeader
    g.wMaxPartyMemberIndex 1 g₀ (hground₀.inView hview) (htrail₀ 1 (by decide))
  generalize Party.placeMembers scene iStepFrameLeader g.wMaxPartyMemberIndex 1 g₀ = g₁
    at hground₁ hmembers
  have hground := hground₀.trans hground₁
  rw [hground.nFollower]
  by_cases hfollower : g.nFollower > 0
  · rw [if_pos hfollower]
    refine ⟨hground.trans (sameGround_modify ..), fun j hj hlast => ?_⟩
    rw [Party.last, if_pos hfollower] at hlast
    by_cases hjlast : j = g.wMaxPartyMemberIndex + 1
    · subst hjlast
      have hfree : scene.Free (g₁.rgTrail 3).at := by
        rw [hground.rgTrail]
        exact htrail 3 (by decide)
      obtain ⟨hx, hy⟩ := Party.onScreen_at (hground.inView hview) hfree
      rw [Party.member, Party.rgParty_modify]
      show scene.Free (_ + palX g₁.viewport, _ + palY g₁.viewport)
      dsimp only
      rw [hx, hy, Int.sub_add_cancel, Int.sub_add_cancel]
      exact hfree
    · rw [Party.member, Party.rgParty_modify_of_ne g₁ hjlast]
      exact (hmembers j).1 hj (by omega)
  · rw [if_neg hfollower]
    refine ⟨hground, fun j hj hlast => (hmembers j).1 hj ?_⟩
    rw [Party.last, if_neg hfollower] at hlast
    omega

/-- Standing moves nobody. -/
theorem Party.updateGestures_standing :
    SameGround g (updateGestures scene false g) ∧
      ∀ j, (updateGestures scene false g).member j = g.member j := by
  rw [updateGestures]
  dsimp only
  rw [if_neg Bool.false_ne_true]
  obtain ⟨hground, hmembers⟩ := Party.standMembers_keeps g.wMaxPartyMemberIndex 1
    (g.modify 0 fun p => { p with wFrame := g.standFrame 0 g.wPartyDirection })
  have hmembers' := fun j => (hmembers j).trans (Party.member_modify_frame g 0 j _)
  generalize Party.standMembers g.wMaxPartyMemberIndex 1 _ = g₁ at hground hmembers'
  have hground' : SameGround g g₁ := (sameGround_modify ..).trans hground
  by_cases hfollower : g₁.nFollower > 0
  · rw [if_pos hfollower]
    refine ⟨hground'.trans ⟨rfl, rfl, rfl, rfl, rfl⟩, fun j => ?_⟩
    exact (Party.member_modify_frame g₁ _ j _).trans (hmembers' j)
  · rw [if_neg hfollower]
    exact ⟨hground'.trans ⟨rfl, rfl, rfl, rfl, rfl⟩, hmembers'⟩

end Placing

/-! ## Walking -/

/-- The place next to `q`. -/
def nextTo (dir : Dir) (q : Int × Int) : Int × Int := (q.1 + xOffset dir, q.2 + yOffset dir)

/-- The places of a walk, the newest first. -/
inductive Walk (scene : Scene) : List (Int × Int) → Prop
  | start {q : Int × Int} (h : scene.Free q) : Walk scene [q]
  | step {q : Int × Int} {path : List (Int × Int)} (dir : Dir) (h : Walk scene (q :: path))
      (hfree : scene.Free (nextTo dir q)) : Walk scene (nextTo dir q :: q :: path)

/-- Everybody stands on a free place, and the trail has such places too. -/
structure Party.Safe (scene : Scene) (g : Party) : Prop where
  offset : (0 ≤ palX g.partyoffset ∧ palX g.partyoffset < 320) ∧
    0 ≤ palY g.partyoffset ∧ palY g.partyoffset < 200
  leader : scene.Free g.leader
  trail : ∀ i < 5, scene.Free (g.rgTrail i).at
  members : ∀ i, 1 ≤ i → i ≤ g.last → scene.Free (g.member i)

/-- The party stands at the newest place of the walk, and the trail has the five before. -/
structure Party.Follows (scene : Scene) (g : Party) (path : List (Int × Int)) : Prop where
  walk : Walk scene path
  leader : path[0]? = some g.leader
  trail : ∀ i < 5, i + 1 < path.length → path[i + 1]? = some (g.rgTrail i).at

section Walking

variable {scene : Scene} {g g' : Party}

theorem Party.SameGround.leader_eq (h : SameGround g g') : g'.leader = g.leader := by
  rw [leader, leader, h.viewport, h.partyoffset]

theorem Party.SameGround.last_eq (h : SameGround g g') : g'.last = g.last := by
  rw [last, last, h.wMaxPartyMemberIndex, h.nFollower]

/-- Nobody goes anywhere. -/
theorem Party.standing_safe (hsafe : g.Safe scene) :
    (updateGestures scene false g).Safe scene ∧
      SameGround g (updateGestures scene false g) := by
  obtain ⟨hground, hmembers⟩ := @updateGestures_standing scene g
  refine ⟨⟨?_, ?_, ?_, fun i hi hlast => ?_⟩, hground⟩
  · rw [hground.partyoffset]
    exact hsafe.offset
  · rw [hground.leader_eq]
    exact hsafe.leader
  · rw [hground.rgTrail]
    exact hsafe.trail
  · rw [hmembers]
    exact hsafe.members i hi (by rwa [hground.last_eq] at hlast)

theorem xOffset_cases (dir : Dir) : xOffset dir = -16 ∨ xOffset dir = 16 := by
  rw [xOffset]
  split
  · exact .inl rfl
  · exact .inr rfl

theorem yOffset_cases (dir : Dir) : yOffset dir = -8 ∨ yOffset dir = 8 := by
  rw [yOffset]
  split
  · exact .inl rfl
  · exact .inr rfl

/-- `m` is `g` with the leader at a free place next to the one that is left. -/
structure Party.Moved (scene : Scene) (dir : Dir) (g m : Party) : Prop where
  view : m.InView
  offset : m.partyoffset = g.partyoffset
  free : scene.Free (nextTo dir g.leader)
  leader : m.leader = nextTo dir g.leader
  first : (m.rgTrail 0).at = g.leader
  next : ∀ i < 4, m.rgTrail (i + 1) = g.rgTrail i

theorem Party.Moved.trail {dir : Dir} (hsafe : g.Safe scene) (h : Moved scene dir g g') :
    ∀ i < 5, scene.Free (g'.rgTrail i).at := by
  intro i hi
  cases i with
  | zero =>
      rw [h.first]
      exact hsafe.leader
  | succ i =>
      rw [h.next i (by omega)]
      exact hsafe.trail i (by omega)

/-- The others follow, and everybody is on free places again. -/
theorem Party.Moved.safe {dir : Dir} (hsafe : g.Safe scene) (h : Moved scene dir g g') :
    (updateGestures scene true g').Safe scene ∧ SameGround g' (updateGestures scene true g') := by
  have htrail := h.trail hsafe
  obtain ⟨hground, hmembers⟩ := @updateGestures_walking scene g' h.view htrail
  refine ⟨⟨?_, ?_, ?_, fun i hi hlast => ?_⟩, hground⟩
  · rw [hground.partyoffset, h.offset]
    exact hsafe.offset
  · rw [hground.leader_eq, h.leader]
    exact h.free
  · rw [hground.rgTrail]
    exact htrail
  · exact hmembers i hi (by rwa [hground.last_eq] at hlast)

/-- One key: the party stays, or it goes to the next place and leaves its own on the trail. -/
theorem Party.update_cases (hsafe : g.Safe scene) (dir : Dir) :
    (g.update scene dir).Safe scene ∧
      ((g.update scene dir).leader = g.leader ∧ (g.update scene dir).rgTrail = g.rgTrail ∨
        scene.Free (nextTo dir g.leader) ∧ (g.update scene dir).leader = nextTo dir g.leader ∧
          ((g.update scene dir).rgTrail 0).at = g.leader ∧
          ∀ i < 4, (g.update scene dir).rgTrail (i + 1) = g.rgTrail i) := by
  rw [update]
  by_cases hdir : dir ≠ .unknown
  · rw [if_pos hdir]
    dsimp only
    have hxo := xOffset_cases dir
    have hyo := yOffset_cases dir
    obtain ⟨⟨hx, hx'⟩, hy, hy'⟩ := hsafe.leader.inside
    obtain ⟨⟨hox, hox'⟩, hoy, hoy'⟩ := hsafe.offset
    rw [leader] at hx hx' hy hy'
    dsimp only at hx hx' hy hy'
    have hturned : Safe scene { g with wPartyDirection := dir.code } :=
      ⟨hsafe.offset, hsafe.leader, hsafe.trail, hsafe.members⟩
    cases hcheck : checkObstacle scene
        (palXY (palX g.viewport + palX g.partyoffset + xOffset dir)
          (palY g.viewport + palY g.partyoffset + yOffset dir)) true 0 with
    | true =>
        rw [if_neg fun h => h rfl]
        obtain ⟨hsafe', hground⟩ := standing_safe hturned
        exact ⟨hsafe', .inl ⟨hground.leader_eq, hground.rgTrail⟩⟩
    | false =>
        rw [if_pos Bool.false_ne_true]
        have hfree := (checkObstacle_iff scene _).mp hcheck
        rw [palX_palXY (by omega) (by omega), palY_palXY (by omega) (by omega)] at hfree
        generalize hmoved : Party.mk
          (palXY (palX g.viewport + xOffset dir) (palY g.viewport + yOffset dir)) _ _ _ _ _ _ _ _ = m
        have hvx : palX m.viewport = palX g.viewport + xOffset dir := by
          subst hmoved
          exact palX_palXY (by omega) (by omega)
        have hvy : palY m.viewport = palY g.viewport + yOffset dir := by
          subst hmoved
          exact palY_palXY (by omega) (by omega)
        have hoffset : m.partyoffset = g.partyoffset := by
          subst hmoved
          rfl
        have hfirst : (m.rgTrail 0).at = g.leader := by
          subst hmoved
          show (((BitVec.ofInt 16 _).toNat : Int), ((BitVec.ofInt 16 _).toNat : Int)) = _
          rw [BitVec.toNat_ofInt, BitVec.toNat_ofInt, leader]
          exact Prod.ext (by dsimp only; omega) (by dsimp only; omega)
        have hnext : ∀ i < 4, m.rgTrail (i + 1) = g.rgTrail i := by
          intro i hi
          subst hmoved
          exact if_pos (show i + 1 < 5 by omega)
        have hleader : m.leader = nextTo dir g.leader := by
          rw [leader, hvx, hvy, hoffset]
          exact Prod.ext (by show _ = _ + _; rw [leader]; dsimp only; omega)
            (by show _ = _ + _; rw [leader]; dsimp only; omega)
        have hmove : Moved scene dir g m :=
          ⟨⟨by omega, by omega⟩, hoffset, hfree, hleader, hfirst, hnext⟩
        obtain ⟨hsafe', hground⟩ := hmove.safe hsafe
        refine ⟨hsafe', .inr ⟨hfree, ?_, ?_, fun i hi => ?_⟩⟩
        · rw [hground.leader_eq, hleader]
        · rw [hground.rgTrail, hfirst]
        · rw [hground.rgTrail, hnext i hi]
  · rw [if_neg hdir]
    obtain ⟨hsafe', hground⟩ := standing_safe hsafe
    exact ⟨hsafe', .inl ⟨hground.leader_eq, hground.rgTrail⟩⟩

/-- One key continues the walk, or leaves it. -/
theorem Party.update_follows (hsafe : g.Safe scene) {path : List (Int × Int)}
    (hfollows : g.Follows scene path) (dir : Dir) :
    ∃ path', (g.update scene dir).Follows scene path' ∧ path <:+ path' := by
  obtain ⟨-, ⟨hleader, htrail⟩ | ⟨hfree, hleader, hfirst, hnext⟩⟩ := update_cases hsafe dir
  · refine ⟨path, ⟨hfollows.walk, ?_, ?_⟩, List.suffix_refl path⟩
    · rw [hleader]
      exact hfollows.leader
    · rw [htrail]
      exact hfollows.trail
  · cases path with
    | nil => cases hfollows.leader
    | cons q path =>
        obtain rfl : q = g.leader := Option.some.inj hfollows.leader
        refine ⟨_, ⟨.step dir hfollows.walk hfree, congrArg some hleader.symm, fun i hi hlen => ?_⟩,
          List.suffix_cons ..⟩
        cases i with
        | zero => exact congrArg some hfirst.symm
        | succ i =>
            rw [hnext i (by omega)]
            exact hfollows.trail i (by omega) (Nat.lt_of_succ_lt_succ hlen)

theorem Party.run_follows (keys : List Dir) : ∀ (g : Party) (path : List (Int × Int)),
    g.Safe scene → g.Follows scene path →
      (keys.foldl (fun g dir => g.update scene dir) g).Safe scene ∧
        ∃ path', (keys.foldl (fun g dir => g.update scene dir) g).Follows scene path' ∧
          path <:+ path' := by
  induction keys with
  | nil => exact fun g path hsafe hfollows => ⟨hsafe, path, hfollows, List.suffix_refl path⟩
  | cons dir keys ih =>
      intro g path hsafe hfollows
      obtain ⟨path', hfollows', hpath⟩ := update_follows hsafe hfollows dir
      obtain ⟨hend, path'', hfollows'', hpath'⟩ := ih _ path' (update_cases hsafe dir).1 hfollows'
      exact ⟨hend, path'', hfollows'', hpath.trans hpath'⟩

/-- **Nobody of the party ever stands on a blocked place.** Whatever keys are pressed, the player
    walks from free place to free place, and the others are on free places, on the trail of the
    player's last five places or beside it. -/
theorem party_walks (hsafe : g.Safe scene) (keys : List Dir) :
    (keys.foldl (fun g dir => g.update scene dir) g).Safe scene ∧
      ∃ path, (keys.foldl (fun g dir => g.update scene dir) g).Follows scene path ∧
        [g.leader] <:+ path :=
  Party.run_follows keys g [g.leader] hsafe
    ⟨.start hsafe.leader, rfl, fun i _ hlen => absurd hlen (by rw [List.length_singleton]; omega)⟩

end Walking

/-- Open ground with somebody who stands in the way. -/
def Scene.meadow : Scene :=
  { map := some .flat, first := 1, objects := [{ x := 300, y := 212, sState := 2 }] }

def Party.three : Party where
  viewport := palXY 100 100
  partyoffset := palXY 160 112
  wMaxPartyMemberIndex := 2
  rgParty := fun _ => { wPlayerRole := 0, x := 160, y := 112, wFrame := 0 }
  rgTrail := fun _ => { x := 260, y := 212, wDirection := 0 }
  wPartyDirection := 0
  nFollower := 0
  rgwWalkFrames := fun _ => 3
  iThisStepFrame := 0

theorem Party.safe_three : Party.three.Safe .meadow := by
  have hfree : Scene.meadow.Free (260, 212) :=
    (checkObstacle_iff .meadow (palXY 260 212)).mp (by decide)
  exact ⟨by decide, hfree, fun _ _ => hfree, fun _ _ _ => hfree⟩

theorem party_walks_three :
    ([.east, .north, .unknown, .south].foldl (fun g dir => g.update .meadow dir) Party.three).Safe
        .meadow ∧
      ∃ path, ([.east, .north, .unknown, .south].foldl (fun g dir => g.update .meadow dir)
          Party.three).Follows .meadow path ∧
        [Party.three.leader] <:+ path :=
  party_walks Party.safe_three [.east, .north, .unknown, .south]

end Nemu.Pal
