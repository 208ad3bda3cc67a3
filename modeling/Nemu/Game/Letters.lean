/-
  Nemu.Game.Letters

  The letters of the typing game over whole runs.

  `Counted` is the invariant: the letters on the screen are the used nodes of the pool, and
  together with the hits and misses they are all letters created.  Once the pool is threaded
  its free list keeps at least one node, which is never handed out, so an empty free list
  stays the mark of an unused pool.  The fixed-point arithmetic of the game is shown not to
  leave `int` on the way.
-/

import Nemu.Game.LinkListRules
import Nemu.Game.Typing
import Nemu.LibCommon.FloatMulDiv

namespace Nemu

open LinkedList LinkList Outcome

namespace Typing

/-! ## The fixed-point arithmetic -/

section Arithmetic

open FLOAT

theorem toInt_int2F {n : Nat} (h : n < 32768) : (int2F (BitVec.ofNat 32 n)).toInt = n * 65536 := by
  have hnat : (int2F (BitVec.ofNat 32 n)).toNat = n * 65536 := by
    rw [int2F, BitVec.toNat_shiftLeft, BitVec.toNat_ofNat, Nat.shiftLeft_eq,
      Nat.mod_eq_of_lt (show n < 2 ^ 32 by omega)]
    exact Nat.mod_eq_of_lt (by omega)
  rw [BitVec.toInt_eq_toNat_of_lt (by omega), hnat]
  exact Int.natCast_mul n 65536

theorem addInt_run {a b : FLOAT} (h : InInt (a.toInt + b.toInt)) :
    ∃ r, addInt a b = .ok r ∧ r.toInt = a.toInt + b.toInt :=
  ⟨_, intOf_eq_ok.mpr ⟨h, toInt_ofInt h⟩, toInt_ofInt h⟩

-- 0.5 and 7.9
theorem f2F_half : f2F 0x3f000000 = .ok 32768 := by decide

theorem f2F_size : f2F 0x40fccccd = .ok 517734 := by decide

/-- The speed of a letter. -/
theorem fallSpeed_val (rand : Nat) :
    ∃ v, fallSpeed rand = .ok v ∧ v.toInt = (rand % 1000 : Nat) * 65536 / 2000 + 32768 := by
  have hmod : rand % 1000 < 1000 := Nat.mod_lt _ (by decide)
  have hnum := toInt_int2F (show rand % 1000 < 32768 by omega)
  have hden : (int2F 2000).toInt = 131072000 := by decide
  rw [fallSpeed]
  generalize rand % 1000 = n at hmod hnum ⊢
  have hquot : ((int2F (BitVec.ofNat 32 n)).toInt * 65536).tdiv (int2F 2000).toInt
      = n * 65536 * 65536 / 131072000 := by
    rw [hnum, hden, Int.tdiv_eq_ediv_of_nonneg (by omega)]
  have hfits : InInt (n * 65536 * 65536 / 131072000 : Int) := ⟨by omega, by omega⟩
  obtain ⟨q, hdiv, hq⟩ : ∃ q, fDivF (int2F (BitVec.ofNat 32 n)) (int2F 2000) = .ok q ∧
      q.toInt = n * 65536 * 65536 / 131072000 := by
    refine ⟨_, fDivF_eq_ok.mpr ⟨by decide, ?_, ?_⟩, toInt_ofInt hfits⟩
    · rwa [hquot]
    · rw [hquot, toInt_ofInt hfits]
  have hhalf : (32768 : FLOAT).toInt = 32768 := by decide
  obtain ⟨v, hadd, hv⟩ := addInt_run (a := q) (b := 32768) ⟨by omega, by omega⟩
  refine ⟨v, ?_, by omega⟩
  rw [hdiv, ok_bind, f2F_half, ok_bind, hadd]

/-- A letter falls with a speed from a half to one. -/
theorem fallSpeed_run (rand : Nat) :
    ∃ v, fallSpeed rand = .ok v ∧ 32768 ≤ v.toInt ∧ v.toInt < 65536 := by
  have hmod : rand % 1000 < 1000 := Nat.mod_lt _ (by decide)
  obtain ⟨v, hv, hval⟩ := fallSpeed_val rand
  exact ⟨v, hv, by omega, by omega⟩

/-- Near the screen the test for leaving it is exact. -/
theorem offScreen_run {x : FLOAT} (hx : x.toInt ≤ 13238271) :
    offScreen x = .ok (decide (x.toInt < 0 ∨ 13107200 < x.toInt + 517734)) := by
  rw [offScreen]
  by_cases hneg : x.toInt < 0
  · rw [if_pos hneg, decide_eq_true (.inl hneg)]
    rfl
  · have hsize : (517734 : FLOAT).toInt = 517734 := by decide
    have hheight : (int2F (BitVec.ofNat 32 SCR_HEIGHT)).toInt = 13107200 := by decide
    obtain ⟨bottom, hadd, hbottom⟩ := addInt_run (a := x) (b := 517734) ⟨by omega, by omega⟩
    rw [if_neg hneg, f2F_size, ok_bind, hadd, ok_bind, hheight, hbottom, hsize]
    simp [hneg]

end Arithmetic

/-! ## The invariant -/

/-- A letter between two steps of the game: on the screen, with a speed that the game sets. -/
structure Letter.Fits (letter : Letter) : Prop where
  x_nonneg : 0 ≤ letter.x.toInt
  x_le : letter.x.toInt ≤ 13107200
  le_v : -196608 ≤ letter.v.toInt
  v_le : letter.v.toInt < 131072
  text_nonneg : 0 ≤ letter.text
  text_lt : letter.text < 26

/-- After `n` letters: `active` are on the screen, from the head on. -/
structure Counted (n : Nat) (s : State) (active free : List FlyPtr) : Prop where
  shape : Shape s.fly s.head active free
  letters : ∀ i ∈ active, (s.fly.data i).Fits
  count : s.hit + s.miss + active.length = n
  threaded : n ≠ 0 → free ≠ []
  unused : n = 0 → free = [] ∧ s.fly.next (Fin.last FLY_SIZE) = none

theorem counted_init : Counted 0 State.init [] [] := by
  exact ⟨⟨.nil, rfl, List.nodup_nil, nofun⟩, nofun, rfl, fun h => absurd rfl h,
    fun _ => ⟨rfl, rfl⟩⟩

section Keys

variable {index : Int}

theorem keyIndex_run (h₀ : 0 ≤ index) (h : index < 26) : ∃ i, keyIndex index = .ok i :=
  ⟨_, dif_pos ⟨h₀, h⟩⟩

-- the keys are no part of the invariant
theorem releaseKey_run (h₀ : 0 ≤ index) (h : index < 26) (s : State) :
    ∃ keys, releaseKey index s = .ok { s with letter_pressed := keys } := by
  obtain ⟨i, hi⟩ := keyIndex_run h₀ h
  exact ⟨Function.update s.letter_pressed i false, by rw [releaseKey, hi]; rfl⟩

theorem queryKey_run (h₀ : 0 ≤ index) (h : index < 26) (s : State) :
    ∃ pressed, queryKey index s = .ok pressed := by
  obtain ⟨i, hi⟩ := keyIndex_run h₀ h
  exact ⟨s.letter_pressed i, by rw [queryKey, hi]; rfl⟩

end Keys

section Invariant

variable {n : Nat} {s : State} {active free done rest : List FlyPtr} {i : FlyPtr} {letter : Letter}

theorem Counted.of_keys (h : Counted n s active free) (keys : Fin 26 → Bool) :
    Counted n { s with letter_pressed := keys } active free :=
  ⟨h.shape, h.letters, h.count, h.threaded, h.unused⟩

-- a letter may change
theorem fits_setData {fly : Pool Letter FLY_SIZE} (hletter : letter.Fits)
    (hothers : ∀ j ∈ active, j ≠ i → (fly.data j).Fits) :
    ∀ j ∈ active, ((fly.setData i letter).data j).Fits := by
  intro j hj
  rw [Pool.data_setData]
  by_cases hji : j = i
  · rw [hji, Function.update_self]
    exact hletter
  · rw [Function.update_of_ne hji]
    exact hothers j hj hji

theorem Counted.setData (h : Counted n s active free) (i : FlyPtr) (hletter : letter.Fits) :
    Counted n { s with fly := s.fly.setData i letter } active free := by
  refine ⟨h.shape.setData letter, fits_setData hletter fun j hj _ => h.letters j hj, h.count,
    h.threaded, fun hn => ?_⟩
  obtain ⟨hfree, hlast⟩ := h.unused hn
  refine ⟨hfree, ?_⟩
  show (s.fly.setData i letter).next _ = none
  rw [Pool.next_setData]
  exact hlast

/-! ## `update_letter_pos` -/

/-- The state once the letter `it` has left the screen at `x`. -/
def leaves (it : FlyPtr) (x : FLOAT) (s : State) : State :=
  { fly := (s.fly.remove it).free it
    head := if some it = s.head then s.fly.next it else s.head
    hit := if x.toInt < 0 then s.hit + 1 else s.hit
    miss := if x.toInt < 0 then s.miss else s.miss + 1
    letter_pressed := s.letter_pressed }

/-- One turn of the loop, for a letter that stays and for one that leaves. -/
theorem updateLoop_turn {fuel : Nat} {it : FlyPtr} {x : FLOAT} {off : Bool}
    (hx : FLOAT.addInt (s.fly.data it).x (s.fly.data it).v = .ok x) (hoff : offScreen x = .ok off) :
    updateLoop (fuel + 1) (some it) s =
      updateLoop fuel (s.fly.next it)
        (if off then leaves it x { s with fly := s.fly.setData it { s.fly.data it with x := x } }
          else { s with fly := s.fly.setData it { s.fly.data it with x := x } }) := by
  rw [updateLoop]
  dsimp only
  rw [hx, float, ok_bind, hoff, float, ok_bind]
  cases off with
  | false => rfl
  | true =>
      rw [if_pos rfl, if_pos rfl, leaves]
      dsimp only
      rw [Pool.next_setData]
      by_cases hneg : x.toInt < 0 <;> by_cases hhead : some it = s.head <;> simp [hneg, hhead]

/-- A letter that leaves is a hit or a miss; its data no longer matter. -/
theorem Counted.leaves (h : Counted n s (done ++ i :: rest) free) (letter : Letter) (x : FLOAT) :
    Counted n (leaves i x { s with fly := s.fly.setData i letter }) (done ++ rest) (i :: free) := by
  have hcount := h.count
  rw [List.length_append, List.length_cons] at hcount
  have hpos : n ≠ 0 := by omega
  have hnodup := h.shape.linked.nodup
  have hi : i ∉ done ++ rest := (List.nodup_middle.mp hnodup).notMem
  obtain ⟨hshape, hdata⟩ := (h.shape.setData letter).release
  refine ⟨?_, fun j hj => ?_, ?_, fun _ => List.cons_ne_nil i free, fun hn => absurd hn hpos⟩
  · rw [Typing.leaves]
    simp only [chain_head_iff hnodup h.shape.linked.chain]
    exact hshape
  · show ((((s.fly.setData i letter).remove i).free i).data j).Fits
    have hji : j ≠ i := fun hji => hi (hji ▸ hj)
    rw [hdata, Pool.data_setData, Function.update_of_ne hji]
    exact h.letters j (((List.sublist_cons_self i rest).append_left done).subset hj)
  · rw [Typing.leaves, List.length_append]
    by_cases hneg : x.toInt < 0
    · simp only [if_pos hneg]
      omega
    · simp only [if_neg hneg]
      omega

/-- The loop keeps the invariant: `done` are the letters before `it` that stay. -/
theorem updateLoop_run (rest : List FlyPtr) : ∀ (fuel : Nat) (it : Option FlyPtr) (s : State)
    (done free : List FlyPtr), rest.length ≤ fuel → Counted n s (done ++ rest) free →
      Chain s.fly.next it rest →
      ∃ s' active' free', updateLoop fuel it s = .ok s' ∧ Counted n s' active' free' := by
  induction rest with
  | nil =>
      intro fuel it s done free _ h hit
      obtain rfl : it = none := hit
      exact ⟨s, _, free, by cases fuel <;> rfl, h⟩
  | cons i rest ih =>
      intro fuel it s done free hfuel h hit
      obtain ⟨rfl, hrest⟩ := hit
      obtain ⟨fuel, rfl⟩ : ∃ m, fuel = m + 1 := ⟨fuel - 1, by rw [List.length_cons] at hfuel; omega⟩
      have hfits := h.letters i (List.mem_append_right _ (List.mem_cons_self ..))
      obtain ⟨hx₀, hx₁, hv₀, hv₁, ht₀, ht₁⟩ := hfits
      obtain ⟨x, hx, hval⟩ := addInt_run (a := (s.fly.data i).x) (b := (s.fly.data i).v)
        ⟨by omega, by omega⟩
      rw [updateLoop_turn hx (offScreen_run (by omega))]
      by_cases hoff : x.toInt < 0 ∨ 13107200 < x.toInt + 517734
      · rw [if_pos (decide_eq_true hoff)]
        have hleft := h.leaves { s.fly.data i with x := x } x
        refine ih fuel _ _ done _ (Nat.le_of_succ_le_succ hfuel) hleft ?_
        rw [chain_head hrest]
        exact chain_suffix hleft.shape.linked.chain
      · rw [if_neg (by simpa using hoff)]
        have hmoved : Letter.Fits { s.fly.data i with x := x } :=
          ⟨by dsimp only; omega, by dsimp only; omega, hv₀, hv₁, ht₀, ht₁⟩
        have hstays := h.setData i hmoved
        rw [← List.singleton_append, ← List.append_assoc] at hstays
        refine ih fuel _ _ (done ++ [i]) _ (Nat.le_of_succ_le_succ hfuel) hstays ?_
        rw [chain_head hrest]
        exact chain_suffix hstays.shape.linked.chain

theorem updateLetterPos_run (h : Counted n s active free) :
    ∃ s' active' free', updateLetterPos s = .ok s' ∧ Counted n s' active' free' :=
  updateLoop_run active (FLY_SIZE + 1) s.head s [] free h.shape.length_le h h.shape.linked.chain

/-! ## `update_keypress` -/

/-- One turn of the search takes the letter or not. -/
theorem keyLoop_turn (hfits : (s.fly.data i).Fits) (fuel : Nat) (min : FLOAT)
    (target : Option FlyPtr) : ∃ found : Bool, keyLoop (fuel + 1) (some i) min target s =
      if found then keyLoop fuel (s.fly.next i) (s.fly.data i).x (some i) s
      else keyLoop fuel (s.fly.next i) min target s := by
  obtain ⟨k, hk⟩ := keyIndex_run hfits.text_nonneg hfits.text_lt
  obtain ⟨pressed, hpressed⟩ := queryKey_run hfits.text_nonneg hfits.text_lt s
  rw [keyLoop]
  dsimp only
  rw [hk, ok_bind]
  by_cases hfalls : 0 < (s.fly.data i).v.toInt ∧ min.toInt < (s.fly.data i).x.toInt
  · rw [if_pos hfalls, hpressed]
    exact ⟨pressed, rfl⟩
  · rw [if_neg hfalls]
    exact ⟨false, rfl⟩

/-- The search ends with an active letter or with none. -/
theorem keyLoop_run (hletters : ∀ i ∈ active, (s.fly.data i).Fits) (rest : List FlyPtr) :
    ∀ (fuel : Nat) (it : Option FlyPtr) (min : FLOAT) (target : Option FlyPtr),
      rest.length ≤ fuel → Chain s.fly.next it rest → (∀ i ∈ rest, i ∈ active) →
      (∀ i ∈ target, i ∈ active) →
      ∃ target', keyLoop fuel it min target s = .ok target' ∧ ∀ i ∈ target', i ∈ active := by
  induction rest with
  | nil =>
      intro fuel it min target _ hit _ htarget
      obtain rfl : it = none := hit
      exact ⟨target, by cases fuel <;> rfl, htarget⟩
  | cons i rest ih =>
      intro fuel it min target hfuel hit hmem htarget
      obtain ⟨rfl, hrest⟩ := hit
      obtain ⟨fuel, rfl⟩ : ∃ m, fuel = m + 1 := ⟨fuel - 1, by rw [List.length_cons] at hfuel; omega⟩
      have hi := hmem i (List.mem_cons_self ..)
      have hmem' : ∀ j ∈ rest, j ∈ active := fun j hj => hmem j (List.mem_cons_of_mem _ hj)
      have hfuel' := Nat.le_of_succ_le_succ hfuel
      obtain ⟨found, hturn⟩ := keyLoop_turn (hletters i hi) fuel min target
      rw [hturn]
      cases found with
      | false => exact ih fuel _ min target hfuel' hrest hmem' htarget
      | true =>
          refine ih fuel _ _ (some i) hfuel' hrest hmem' (fun j hj => ?_)
          obtain rfl := Option.some.inj hj
          exact hi

theorem updateKeypress_run (h : Counted n s active free) :
    ∃ found s', updateKeypress s = .ok (found, s') ∧ Counted n s' active free := by
  have hmin : FLOAT.negInt (FLOAT.int2F 100) = .ok (-6553600) := by decide
  have hup : FLOAT.negInt (FLOAT.int2F 3) = .ok (-196608) := by decide
  obtain ⟨target, hloop, htarget⟩ := keyLoop_run h.letters active (FLY_SIZE + 1) s.head
    (-6553600) none h.shape.length_le h.shape.linked.chain (fun i hi => hi) nofun
  rw [updateKeypress, hmin, float, ok_bind, hloop, ok_bind]
  cases target with
  | none => exact ⟨false, s, rfl, h⟩
  | some i =>
      obtain ⟨hx₀, hx₁, hv₀, hv₁, ht₀, ht₁⟩ := h.letters i (htarget i rfl)
      obtain ⟨keys, hkeys⟩ := releaseKey_run ht₀ ht₁ s
      have hrises : Letter.Fits { s.fly.data i with v := -196608 } :=
        ⟨hx₀, hx₁, by dsimp only; decide, by dsimp only; decide, ht₀, ht₁⟩
      refine ⟨true, _, ?_, (h.of_keys keys).setData i hrises⟩
      dsimp only
      rw [hkeys, ok_bind, hup, float, ok_bind]
      rfl

/-! ## `create_new_letter` -/

/-- `fly_new` stops the game or hands out a node that is not active, and keeps a free one. -/
theorem Counted.new_run (h : Counted n s active free) : s.fly.new = .error .poolEmpty ∨
    ∃ i fly free', s.fly.new = .ok (i, fly) ∧ HandedOut fly s.head active free' i ∧
      free' ≠ [] ∧ fly.data = s.fly.data := by
  by_cases hn : n = 0
  · -- the first call threads the pool
    obtain ⟨rfl, hlast⟩ := h.unused hn
    obtain rfl : active = [] := by
      have hcount := h.count
      exact List.length_eq_zero_iff.mp (by omega)
    obtain ⟨i, fly, j, r, hnew, hout, hdata⟩ := h.shape.new_first hlast (by decide)
    exact .inr ⟨i, fly, _, hnew, hout, List.cons_ne_nil j r, hdata⟩
  · rcases free with _ | ⟨i, _ | ⟨j, free⟩⟩
    · exact absurd rfl (h.threaded hn)
    · exact .inl h.shape.new_stop
    · obtain ⟨fly, hnew, hout, hdata⟩ := h.shape.new_run
      exact .inr ⟨i, fly, _, hnew, hout, List.cons_ne_nil _ _, hdata⟩

/-- No node is handed out twice. -/
theorem Counted.new_fresh (h : Counted n s active free) {fly : Pool Letter FLY_SIZE}
    (hnew : s.fly.new = .ok (i, fly)) : i ∉ active := by
  rcases h.new_run with hstop | ⟨j, fly', free', hrun, hout, -⟩
  · exact nomatch hstop.symm.trans hnew
  · obtain ⟨rfl, -⟩ := Prod.mk.inj (Except.ok.inj (hrun.symm.trans hnew))
    exact hout.notUsed

/-- How the new letter `now` comes before the others. -/
def link (head : Option FlyPtr) (now : FlyPtr) (fly : Pool Letter FLY_SIZE) :
    Except GameStop (Pool Letter FLY_SIZE) :=
  match head with
  | none => .ok fly
  | some head => fly.insert none (some head) now

theorem link_run {fly : Pool Letter FLY_SIZE} {head : Option FlyPtr}
    (h : HandedOut fly head active free i) : ∃ fly', link head i fly = .ok fly' ∧
      Shape fly' (some i) (i :: active) free ∧ fly'.data = fly.data := by
  cases head with
  | none =>
      obtain rfl : active = [] := List.head?_eq_none_iff.mp (chain_head h.shape.linked.chain).symm
      exact ⟨fly, rfl, h.shape.single h.next_eq h.prev_eq h.notFree, rfl⟩
  | some head => exact h.shape.insert h.notUsed h.notFree

theorem createNewLetter_eq {fly fly' : Pool Letter FLY_SIZE} {v : FLOAT} {rand₂ : Nat}
    (hnew : s.fly.new = .ok (i, fly)) (hlink : link s.head i fly = .ok fly')
    (hv : fallSpeed rand₂ = .ok v) (rand₁ rand₃ : Nat) :
    createNewLetter rand₁ rand₂ rand₃ s = releaseKey (rand₃ % 26 : Nat)
      { s with
        fly := fly'.setData i
          { x := 0, y := rand₁ % (SCR_WIDTH / 8 - 2) * 8 + 8, v := v, text := (rand₃ % 26 : Nat) }
        head := some i } := by
  rw [createNewLetter, hnew, ok_bind]
  dsimp only
  cases hhead : s.head with
  | none =>
      rw [hhead] at hlink
      obtain rfl := Except.ok.inj hlink
      rw [hv]
      rfl
  | some head =>
      rw [hhead] at hlink
      have hinsert : fly.insert none (some head) i = .ok fly' := hlink
      dsimp only
      rw [hinsert, ok_bind, hv]
      rfl

theorem createNewLetter_run (h : Counted n s active free) (rand₁ rand₂ rand₃ : Nat) :
    createNewLetter rand₁ rand₂ rand₃ s = .error .poolEmpty ∨
      ∃ s' active' free', createNewLetter rand₁ rand₂ rand₃ s = .ok s' ∧
        Counted (n + 1) s' active' free' := by
  rcases h.new_run with hstop | ⟨i, fly, free', hnew, hout, hfree, hdata⟩
  · exact .inl (by rw [createNewLetter, hstop, error_bind])
  obtain ⟨fly', hlink, hshape, hdata'⟩ := link_run hout
  obtain ⟨v, hv, hv₀, hv₁⟩ := fallSpeed_run rand₂
  have hcreate := createNewLetter_eq hnew hlink hv rand₁ rand₃
  generalize (rand₁ % (SCR_WIDTH / 8 - 2) * 8 + 8 : Int) = y at hcreate
  have htext₀ : 0 ≤ ((rand₃ % 26 : Nat) : Int) := Int.natCast_nonneg _
  have htext₁ : ((rand₃ % 26 : Nat) : Int) < 26 := by omega
  obtain ⟨keys, hkeys⟩ := releaseKey_run htext₀ htext₁
    { s with
      fly := fly'.setData i { x := 0, y := y, v := v, text := (rand₃ % 26 : Nat) }
      head := some i }
  rw [hcreate, hkeys]
  have hx : (0 : FLOAT).toInt = 0 := by decide
  have hfits : Letter.Fits { x := 0, y := y, v := v, text := (rand₃ % 26 : Nat) } :=
    ⟨by dsimp only; omega, by dsimp only; omega, by dsimp only; omega, by dsimp only; omega, htext₀,
      htext₁⟩
  refine .inr ⟨_, i :: active, free', rfl, hshape.setData _, fits_setData hfits fun j hj hji => ?_, ?_,
    fun _ => hfree, fun hn => absurd hn (Nat.succ_ne_zero n)⟩
  · rw [hdata', hdata]
    exact h.letters j ((List.mem_cons.mp hj).resolve_left hji)
  · have hcount := h.count
    rw [List.length_cons]
    show s.hit + s.miss + (active.length + 1) = n + 1
    omega

end Invariant

/-! ## Runs -/

/-- What holds after `n` letters: `active` are the nodes from `head` on and `free` those of the
    free list. -/
structure ListsRight (n : Nat) (s : State) (active free : List FlyPtr) : Prop where
  chain : Chain s.fly.next s.head active
  nodup : active.Nodup
  inverse : ∀ i ∈ active, ∀ j ∈ active, s.fly.next i = some j ↔ s.fly.prev j = some i
  head_prev : ∀ i, s.head = some i → s.fly.prev i = none
  freeChain : Chain s.fly.next s.fly.free_head free
  disjoint : ∀ i ∈ active, i ∉ free
  /-- The node that the next call of `fly_new` hands out is not active. -/
  fresh : ∀ i fly, s.fly.new = .ok (i, fly) → i ∉ active
  /-- `fly_new` does not find an empty free list again. -/
  threaded : n ≠ 0 → s.fly.free_head ≠ none
  count : s.hit + s.miss + active.length = n

theorem Counted.right {n : Nat} {s : State} {active free : List FlyPtr}
    (h : Counted n s active free) : ListsRight n s active free where
  chain := h.shape.linked.chain
  nodup := h.shape.linked.nodup
  inverse := fun _ hi _ hj => h.shape.linked.next_iff_prev hi hj
  head_prev := by
    intro i hi
    have hlinked := h.shape.linked
    rw [hi] at hlinked
    exact hlinked.prev_head
  freeChain := h.shape.freeChain
  disjoint := h.shape.disjoint
  fresh := fun _ _ hnew => h.new_fresh hnew
  threaded := by
    intro hn hnull
    have hchain := h.shape.freeChain
    rw [hnull] at hchain
    exact h.threaded hn (List.head?_eq_none_iff.mp (chain_head hchain).symm)
  count := h.count

theorem created_append (ops : List Op) (op : Op) :
    created (ops ++ [op]) = created ops + created [op] := List.countP_append

/-- Every call keeps the invariant or stops in the pool assertion. -/
theorem step_run (before : List Op) (s : State) (op : Op)
    (h : ∃ active free, Counted (created before) s active free) :
    (∃ e, step s op = .error e ∧ e = .poolEmpty) ∨
      ∃ o s', step s op = .ok (o, s') ∧
        ∃ active free, Counted (created (before ++ [op])) s' active free := by
  obtain ⟨active, free, h⟩ := h
  rw [created_append]
  cases op with
  | create rand₁ rand₂ rand₃ =>
      rcases createNewLetter_run h rand₁ rand₂ rand₃ with hstop | ⟨s', active', free', hrun, h'⟩
      · exact .inl ⟨_, by rw [step, hstop, error_bind], rfl⟩
      · exact .inr ⟨(), s', by rw [step, hrun]; rfl, active', free', h'⟩
  | update =>
      obtain ⟨s', active', free', hrun, h'⟩ := updateLetterPos_run h
      exact .inr ⟨(), s', by rw [step, hrun]; rfl, active', free', h'⟩
  | keypress =>
      obtain ⟨found, s', hrun, h'⟩ := updateKeypress_run h
      exact .inr ⟨(), s', by rw [step, hrun]; rfl, active, free, h'⟩
  | key scan_code => exact .inr ⟨(), _, rfl, active, free, h.of_keys _⟩

/-- **The letters of the game.** Every sequence of calls either stops in the pool assertion of
    `fly_new` or ends with correct lists. -/
theorem letters_right (ops : List Op) : run ops = .error .poolEmpty ∨
    ∃ s, run ops = .ok s ∧ ∃ active free, ListsRight (created ops) s active free := by
  rcases DetSystem.run_history step_run ops [] .init ⟨[], [], counted_init⟩ with
    ⟨e, hrun, rfl⟩ | ⟨os, s, hrun, active, free, h⟩
  · exact .inl (by rw [run, hrun, error_bind])
  · exact .inr ⟨s, by rw [run, hrun]; rfl, active, free, h.right⟩

-- the second letter in front of the first
example : (run [.create 0 999 7, .create 5 0 7, .update]).toOption.map
    (fun s => (s.head, s.fly.next 1, s.fly.prev 0, s.fly.next 0))
      = some (some 1, some 0, some 1, none) := by decide

end Typing

end Nemu
