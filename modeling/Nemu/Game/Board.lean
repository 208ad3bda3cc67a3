/-
  Nemu.Game.Board

  What the typing game plays on: the letters on the screen as a plain list, the newest
  first, with exact positions.  The game on its pool of linked nodes refines the game on
  that list, call by call: the pool has room for a letter exactly while fewer than
  `FLY_SIZE` letters are on the screen, and no node carries over anything of the letter it
  had before.
-/

import Nemu.Game.Letters
import Mathlib.Data.List.MinMax

namespace Nemu

open LinkedList LinkList Outcome

namespace Typing

/-! ## The game on a list -/

/-- A letter on the screen; its position and speed count 65536ths of a pixel. -/
structure Falling where
  x : Int
  y : Int
  text : Fin 26
  v : Int
deriving DecidableEq, Repr

namespace Falling

def moved (a : Falling) : Falling := { a with x := a.x + a.v }

-- 200 pixels, less the 7.9 of a letter
def onScreen (a : Falling) : Bool := 0 ≤ a.x ∧ a.x + 517734 ≤ 13107200

def flewOut (a : Falling) : Bool := a.x < 0

def fellOut (a : Falling) : Bool := 13107200 < a.x + 517734

-- the speed of three pixels upwards
def struck (a : Falling) : Falling := { a with v := -196608 }

end Falling

/-- The letters, the counters and the keys. -/
structure Board where
  letters : List Falling
  hit : Nat
  miss : Nat
  pressed : Fin 26 → Bool

namespace Board

def init : Board := { letters := [], hit := 0, miss := 0, pressed := fun _ => false }

def create (rand₁ rand₂ rand₃ : Nat) (b : Board) : Except GameStop Board :=
  if b.letters.length < FLY_SIZE then
    let text : Fin 26 := ⟨rand₃ % 26, Nat.mod_lt _ (by decide)⟩
    let letter : Falling :=
      { x := 0
        y := (rand₁ % 38 * 8 + 8 : Nat)
        text := text
        v := (rand₂ % 1000 : Nat) * 65536 / 2000 + 32768 }
    .ok { b with letters := letter :: b.letters, pressed := Function.update b.pressed text false }
  else .error .poolEmpty

/-- All letters move; those that leave are counted and gone. -/
def update (b : Board) : Board :=
  let moved := b.letters.map Falling.moved
  { b with
    letters := moved.filter Falling.onScreen
    hit := b.hit + moved.countP Falling.flewOut
    miss := b.miss + moved.countP Falling.fellOut }

def candidate (b : Board) (a : Falling) : Bool := 0 < a.v ∧ b.pressed a.text

/-- The lowest letter, the newest of several at one height. -/
def lowest (letters : List Falling) : Option Falling :=
  -- with the order of `Int` that computes
  @List.argmax Falling Int Int.instLinearOrder.toPreorder Int.decLt Falling.x letters

/-- The lowest of the falling letters whose key is pressed turns round. -/
def keypress (b : Board) : Bool × Board :=
  match lowest (b.letters.filter b.candidate) with
  | some a =>
      (true, { b with
        letters := b.letters.replace a a.struck
        pressed := Function.update b.pressed a.text false })
  | none => (false, b)

def key (scan_code : Int) (b : Board) : Board :=
  { b with pressed := fun i =>
      if letter_code.getD i.val 0 = scan_code then true else b.pressed i }

def step (b : Board) : Op → Except GameStop (Unit × Board)
  | .create rand₁ rand₂ rand₃ => do
      let b ← b.create rand₁ rand₂ rand₃
      return ((), b)
  | .update => .ok ((), b.update)
  | .keypress => .ok ((), b.keypress.2)
  | .key scan_code => .ok ((), b.key scan_code)

end Board

theorem Board.lowest_concat (l : List Falling) (a : Falling) :
    lowest (l ++ [a]) =
      match lowest l with
      | none => some a
      | some c => if c.x < a.x then some a else some c := by
  rw [lowest, lowest, List.argmax_concat]
  cases List.argmax Falling.x l <;> rfl

/-- A key press changes one letter, or nothing. -/
theorem Board.keypress_cases (b : Board) :
    (b.keypress = (false, b) ∧ ∀ a ∈ b.letters, b.candidate a = false) ∨
      ∃ l a r, b.letters = l ++ a :: r ∧ b.candidate a = true ∧
        b.keypress = (true, { b with
          letters := l ++ a.struck :: r
          pressed := Function.update b.pressed a.text false }) := by
  cases hmax : Board.lowest (b.letters.filter b.candidate) with
  | none =>
      refine .inl ⟨by rw [keypress, hmax], fun a ha => ?_⟩
      have hnil := List.argmax_eq_none.mp hmax
      rw [← Bool.not_eq_true]
      exact List.filter_eq_nil_iff.mp hnil a ha
  | some a =>
      obtain ⟨hmem, hcand⟩ := List.mem_filter.mp (List.argmax_mem hmax)
      obtain ⟨l, r, heq, hfirst⟩ := List.eq_append_cons_of_mem hmem
      refine .inr ⟨l, a, r, heq, hcand, ?_⟩
      rw [keypress, hmax]
      dsimp only
      rw [heq, List.replace_append_right hfirst, List.replace_cons_self]

/-! ## The relation -/

def Letter.view (l : Letter) : Falling :=
  { x := l.x.toInt, y := l.y, text := Fin.ofNat 26 l.text.toNat, v := l.v.toInt }

-- the letters of some nodes
def views (s : State) (l : List FlyPtr) : List Falling := l.map fun i => (s.fly.data i).view

/-- After `n` letters the state shows the board: the nodes from the head on are its letters, and
    every node of the pool is one of them or free. -/
structure Shows (n : Nat) (s : State) (b : Board) (active free : List FlyPtr) : Prop where
  counted : Counted n s active free
  nodes : n ≠ 0 → active.length + free.length = FLY_SIZE + 1
  letters : views s active = b.letters
  hit : s.hit = b.hit
  miss : s.miss = b.miss
  pressed : s.letter_pressed = b.pressed

theorem shows_init : Shows 0 State.init Board.init [] [] :=
  ⟨counted_init, fun h => absurd rfl h, rfl, rfl, rfl, rfl⟩

section Views

variable {s : State} {active : List FlyPtr} {i : FlyPtr} {letter : Letter}

theorem views_congr {s' : State} {l : List FlyPtr} (h : ∀ i ∈ l, s'.fly.data i = s.fly.data i) :
    views s' l = views s l :=
  List.map_congr_left fun i hi => congrArg Letter.view (h i hi)

theorem length_views (s : State) (l : List FlyPtr) : (views s l).length = l.length :=
  List.length_map _

-- a node that is not among them may change
theorem views_setData {l : List FlyPtr} (hi : i ∉ l) :
    views { s with fly := s.fly.setData i letter } l = views s l := by
  apply views_congr
  intro j hj
  have hji : j ≠ i := fun hji => hi (hji ▸ hj)
  show (s.fly.setData i letter).data j = _
  rw [Pool.data_setData, Function.update_of_ne hji]

theorem views_setData_same : views { s with fly := s.fly.setData i letter } [i] = [letter.view] := by
  show [((s.fly.setData i letter).data i).view] = _
  rw [Pool.data_setData, Function.update_self]

theorem views_append (s : State) (l r : List FlyPtr) :
    views s (l ++ r) = views s l ++ views s r := List.map_append

-- nor does the node that leaves count
theorem views_leaves {l : List FlyPtr} {x : FLOAT} (hi : i ∉ l) :
    views (leaves i x { s with fly := s.fly.setData i letter }) l = views s l := by
  refine (views_congr fun j hj => ?_).trans (@views_setData _ _ letter _ hi)
  show (((s.fly.setData i letter).remove i).free i).data j = _
  rw [Pool.data_free, Pool.data_remove]

/-- A letter's index is that of its key. -/
theorem keyIndex_view (h : letter.Fits) : keyIndex letter.text = .ok letter.view.text := by
  have h₀ := h.text_nonneg
  have h₁ := h.text_lt
  rw [keyIndex, dif_pos ⟨h₀, h₁⟩]
  congr 1
  apply Fin.ext
  show letter.text.toNat = letter.text.toNat % 26
  exact (Nat.mod_eq_of_lt (by omega)).symm

end Views

/-! ## `update_letter_pos` -/

section Update

variable {n : Nat} {s : State} {b : Board} {active free done rest : List FlyPtr} {i : FlyPtr}

theorem moved_view (letter : Letter) {x : FLOAT} (hx : x.toInt = letter.x.toInt + letter.v.toInt) :
    letter.view.moved = Letter.view { letter with x := x } := by
  rw [Falling.moved, Letter.view, Letter.view]
  dsimp only
  rw [hx]

theorem onScreen_eq (a : Falling) : a.onScreen = !decide (a.x < 0 ∨ 13107200 < a.x + 517734) := by
  rw [Falling.onScreen, ← decide_not, decide_eq_decide]
  omega

/-- The loop moves the letters from `it` on and takes those off that leave; `done` are the
    letters before. -/
theorem updateLoop_shows (rest : List FlyPtr) : ∀ (fuel : Nat) (it : Option FlyPtr) (s : State)
    (done free : List FlyPtr), rest.length ≤ fuel → Counted n s (done ++ rest) free →
      Chain s.fly.next it rest →
      ∃ s' active' free', updateLoop fuel it s = .ok s' ∧ Counted n s' active' free' ∧
        active'.length + free'.length = (done ++ rest).length + free.length ∧
        views s' active' = views s done ++ ((views s rest).map Falling.moved).filter Falling.onScreen ∧
        s'.hit = s.hit + ((views s rest).map Falling.moved).countP Falling.flewOut ∧
        s'.miss = s.miss + ((views s rest).map Falling.moved).countP Falling.fellOut ∧
        s'.letter_pressed = s.letter_pressed := by
  induction rest with
  | nil =>
      intro fuel it s done free _ h hit
      obtain rfl : it = none := hit
      refine ⟨s, _, free, by cases fuel <;> rfl, h, rfl, ?_, rfl, rfl, rfl⟩
      rw [List.append_nil]
      exact (List.append_nil _).symm
  | cons i rest ih =>
      intro fuel it s done free hfuel h hit
      obtain ⟨rfl, hrest⟩ := hit
      obtain ⟨fuel, rfl⟩ : ∃ m, fuel = m + 1 := ⟨fuel - 1, by rw [List.length_cons] at hfuel; omega⟩
      have hi : i ∉ done ++ rest := (List.nodup_middle.mp h.shape.linked.nodup).notMem
      have hidone : i ∉ done := fun hmem => hi (List.mem_append_left _ hmem)
      have hirest : i ∉ rest := fun hmem => hi (List.mem_append_right _ hmem)
      have hfits := h.letters i (List.mem_append_right _ (List.mem_cons_self ..))
      obtain ⟨hx₀, hx₁, hv₀, hv₁, ht₀, ht₁⟩ := hfits
      obtain ⟨x, hx, hval⟩ := addInt_run (a := (s.fly.data i).x) (b := (s.fly.data i).v)
        ⟨by omega, by omega⟩
      have hstays : ¬(x.toInt < 0 ∨ 13107200 < x.toInt + 517734) →
          Letter.Fits { s.fly.data i with x := x } := fun hoff =>
        ⟨by dsimp only; omega, by dsimp only; omega, hv₀, hv₁, ht₀, ht₁⟩
      have hviews : views s (i :: rest) = (s.fly.data i).view :: views s rest := rfl
      rw [updateLoop_turn hx (offScreen_run (by omega)), hviews, List.map_cons,
        moved_view (s.fly.data i) hval, List.filter_cons, List.countP_cons, List.countP_cons]
      have hlx : ({ s.fly.data i with x := x } : Letter).view.x = x.toInt := rfl
      generalize ({ s.fly.data i with x := x } : Letter) = letter at hstays hlx ⊢
      rw [onScreen_eq, Falling.flewOut, Falling.fellOut, hlx]
      by_cases hoff : x.toInt < 0 ∨ 13107200 < x.toInt + 517734
      · -- the letter leaves
        have hleft := h.leaves letter x
        obtain ⟨s', active', free', hrun, hcounted, hnodes, hviews', hhit, hmiss, hkeys⟩ :=
          ih fuel (s.fly.next i) _ done _ (Nat.le_of_succ_le_succ hfuel) hleft (by
            rw [chain_head hrest]
            exact chain_suffix hleft.shape.linked.chain)
        rw [views_leaves hidone, views_leaves hirest] at hviews'
        rw [views_leaves hirest] at hhit hmiss
        rw [decide_eq_true hoff]
        refine ⟨s', active', free', hrun, hcounted, ?_, hviews', ?_, ?_, hkeys⟩
        · rw [hnodes]
          simp only [List.length_append, List.length_cons]
          omega
        · rw [hhit, leaves]
          by_cases hneg : x.toInt < 0
          · simp only [hneg, if_true, decide_true]
            omega
          · simp only [hneg, if_false, decide_false]
            rfl
        · rw [hmiss, leaves]
          by_cases hneg : x.toInt < 0
          · have hfell : ¬13107200 < x.toInt + 517734 := by omega
            simp only [hneg, hfell, if_true, decide_false]
            rfl
          · have hfell : 13107200 < x.toInt + 517734 := by omega
            simp only [hneg, hfell, if_false, decide_true, if_true]
            omega
      · -- the letter stays
        have hmoved := h.setData i (hstays hoff)
        rw [← List.singleton_append, ← List.append_assoc] at hmoved
        obtain ⟨s', active', free', hrun, hcounted, hnodes, hviews', hhit, hmiss, hkeys⟩ :=
          ih fuel (s.fly.next i) _ (done ++ [i]) _ (Nat.le_of_succ_le_succ hfuel) hmoved (by
            rw [chain_head hrest]
            exact chain_suffix hmoved.shape.linked.chain)
        rw [views_append, views_setData hidone, views_setData hirest, views_setData_same] at hviews'
        rw [views_setData hirest] at hhit hmiss
        have hneg : ¬x.toInt < 0 := fun hneg => hoff (.inl hneg)
        have hfell : ¬13107200 < x.toInt + 517734 := fun hfell => hoff (.inr hfell)
        rw [decide_eq_false hoff, decide_eq_false hneg, decide_eq_false hfell]
        refine ⟨s', active', free', hrun, hcounted, ?_, ?_, hhit, hmiss, hkeys⟩
        · rw [hnodes]
          simp only [List.length_append, List.length_cons, List.length_nil]
          omega
        · rw [hviews', List.append_assoc, List.singleton_append]
          rfl

theorem updateLetterPos_shows (h : Shows n s b active free) :
    ∃ s' active' free', updateLetterPos s = .ok s' ∧ Shows n s' b.update active' free' := by
  obtain ⟨s', active', free', hrun, hcounted, hnodes, hviews, hhit, hmiss, hkeys⟩ :=
    updateLoop_shows active (FLY_SIZE + 1) s.head s [] free h.counted.shape.length_le h.counted
      h.counted.shape.linked.chain
  rw [h.letters] at hviews hhit hmiss
  refine ⟨s', active', free', hrun, hcounted, ?_, hviews, ?_, ?_, hkeys.trans h.pressed⟩
  · rw [hnodes]
    exact h.nodes
  · rw [hhit, h.hit]
    rfl
  · rw [hmiss, h.miss]
    rfl

end Update

/-! ## `update_keypress` -/

section Keypress

variable {n : Nat} {s : State} {b : Board} {active free rest : List FlyPtr} {i : FlyPtr}

/-- What the search has found among the letters before it: none that could be chosen, or the
    lowest of them, at its first node. -/
def Best (s : State) (candidate : Falling → Bool) (min : FLOAT) (done : List FlyPtr) :
    Option FlyPtr → Prop
  | none => (views s done).filter candidate = [] ∧ min.toInt < 0
  | some i => ∃ l r, done = l ++ i :: r ∧ (s.fly.data i).view ∉ views s l ∧
      min = (s.fly.data i).x ∧
      Board.lowest ((views s done).filter candidate) = some (s.fly.data i).view

variable {candidate : Falling → Bool} {min : FLOAT} {done : List FlyPtr} {target : Option FlyPtr}

theorem Best.filter_append (s : State) (candidate : Falling → Bool) (done : List FlyPtr)
    (i : FlyPtr) : (views s (done ++ [i])).filter candidate
      = (views s done).filter candidate ++
        (if candidate (s.fly.data i).view then [(s.fly.data i).view] else []) := by
  rw [views_append, List.filter_append]
  congr 1
  show List.filter candidate [(s.fly.data i).view] = _
  rw [List.filter_cons]
  rfl

/-- A letter that is not lower, or whose key is not pressed, changes nothing. -/
theorem Best.skip (h : Best s candidate min done target)
    (hx : 0 ≤ (s.fly.data i).x.toInt)
    (hnot : ¬(candidate (s.fly.data i).view = true ∧ min.toInt < (s.fly.data i).x.toInt)) :
    Best s candidate min (done ++ [i]) target := by
  cases target with
  | none =>
      obtain ⟨hnone, hmin⟩ := h
      refine ⟨?_, hmin⟩
      have hc : ¬candidate (s.fly.data i).view = true := fun hc => hnot ⟨hc, by omega⟩
      rw [Best.filter_append, hnone, if_neg hc]
      rfl
  | some j =>
      obtain ⟨l, r, rfl, hfirst, rfl, hbest⟩ := h
      refine ⟨l, r ++ [i], by simp, hfirst, rfl, ?_⟩
      rw [Best.filter_append]
      by_cases hc : candidate (s.fly.data i).view = true
      · have hle : ¬(s.fly.data j).view.x < (s.fly.data i).view.x := fun hlt => hnot ⟨hc, hlt⟩
        rw [if_pos hc, Board.lowest_concat, hbest]
        exact if_neg hle
      · rw [if_neg hc, List.append_nil]
        exact hbest

/-- A letter that is lower is the best so far, and no letter before is equal to it. -/
theorem Best.take (h : Best s candidate min done target)
    (hc : candidate (s.fly.data i).view = true) (hlt : min.toInt < (s.fly.data i).x.toInt) :
    Best s candidate (s.fly.data i).x (done ++ [i]) (some i) := by
  have hfirst : (s.fly.data i).view ∉ views s done := by
    intro hmem
    have hin : (s.fly.data i).view ∈ (views s done).filter candidate :=
      List.mem_filter.mpr ⟨hmem, hc⟩
    cases target with
    | none =>
        rw [h.1] at hin
        exact nomatch hin
    | some j =>
        obtain ⟨l, r, -, -, rfl, hbest⟩ := h
        have hle : (s.fly.data i).view.x ≤ (s.fly.data j).view.x := List.le_of_mem_argmax hin hbest
        exact absurd hlt (Int.not_lt.mpr hle)
  refine ⟨done, [], rfl, hfirst, rfl, ?_⟩
  rw [Best.filter_append, if_pos hc, Board.lowest_concat]
  cases target with
  | none =>
      rw [h.1]
      rfl
  | some j =>
      obtain ⟨l, r, -, -, rfl, hbest⟩ := h
      rw [hbest]
      exact if_pos hlt

/-- One turn of the search. -/
theorem keyLoop_found (hfits : (s.fly.data i).Fits) (hkeys : s.letter_pressed = b.pressed)
    (fuel : Nat) (min : FLOAT) (target : Option FlyPtr) :
    keyLoop (fuel + 1) (some i) min target s =
      if b.candidate (s.fly.data i).view = true ∧ min.toInt < (s.fly.data i).x.toInt then
        keyLoop fuel (s.fly.next i) (s.fly.data i).x (some i) s
      else keyLoop fuel (s.fly.next i) min target s := by
  rw [keyLoop]
  dsimp only
  rw [queryKey, keyIndex_view hfits, ok_bind, ok_bind, hkeys, Board.candidate]
  by_cases hfalls : 0 < (s.fly.data i).v.toInt ∧ min.toInt < (s.fly.data i).x.toInt
  · rw [if_pos hfalls]
    by_cases hpressed : b.pressed (s.fly.data i).view.text = true
    · have hboth : decide (0 < (s.fly.data i).view.v ∧ b.pressed (s.fly.data i).view.text = true)
          = true := decide_eq_true ⟨hfalls.1, hpressed⟩
      rw [if_pos ⟨hboth, hfalls.2⟩, hpressed]
      rfl
    · have hboth : ¬decide (0 < (s.fly.data i).view.v ∧ b.pressed (s.fly.data i).view.text = true)
          = true := fun hc => hpressed (decide_eq_true_iff.mp hc).2
      rw [if_neg (fun hc => hboth hc.1), Bool.not_eq_true] at *
      rw [hpressed]
      rfl
  · rw [if_neg hfalls, if_neg (fun hc => hfalls ⟨(decide_eq_true_iff.mp hc.1).1, hc.2⟩)]
    rfl

/-- The search ends with the best of all letters. -/
theorem keyLoop_best (hletters : ∀ i ∈ active, (s.fly.data i).Fits)
    (hkeys : s.letter_pressed = b.pressed) (rest : List FlyPtr) :
    ∀ (fuel : Nat) (it : Option FlyPtr) (min : FLOAT) (target : Option FlyPtr)
      (done : List FlyPtr), rest.length ≤ fuel → Chain s.fly.next it rest →
      active = done ++ rest → Best s b.candidate min done target →
      ∃ min' target', keyLoop fuel it min target s = .ok target' ∧
        Best s b.candidate min' active target' := by
  induction rest with
  | nil =>
      intro fuel it min target done _ hit hactive hbest
      obtain rfl : it = none := hit
      rw [List.append_nil] at hactive
      rw [hactive]
      exact ⟨min, target, by cases fuel <;> rfl, hbest⟩
  | cons i rest ih =>
      intro fuel it min target done hfuel hit hactive hbest
      obtain ⟨rfl, hrest⟩ := hit
      obtain ⟨fuel, rfl⟩ : ∃ m, fuel = m + 1 := ⟨fuel - 1, by rw [List.length_cons] at hfuel; omega⟩
      have hi : (s.fly.data i).Fits := hletters i (by rw [hactive]; simp)
      have hactive' : active = (done ++ [i]) ++ rest := by rw [hactive]; simp
      have hfuel' := Nat.le_of_succ_le_succ hfuel
      rw [keyLoop_found hi hkeys]
      by_cases htake : b.candidate (s.fly.data i).view = true ∧ min.toInt < (s.fly.data i).x.toInt
      · rw [if_pos htake]
        exact ih fuel _ _ _ _ hfuel' hrest hactive' (hbest.take htake.1 htake.2)
      · rw [if_neg htake]
        exact ih fuel _ _ _ _ hfuel' hrest hactive' (hbest.skip hi.x_nonneg htake)

theorem updateKeypress_shows (h : Shows n s b active free) :
    ∃ s', updateKeypress s = .ok (b.keypress.1, s') ∧ Shows n s' b.keypress.2 active free := by
  have hmin : FLOAT.negInt (FLOAT.int2F 100) = .ok (-6553600) := by decide
  have hup : FLOAT.negInt (FLOAT.int2F 3) = .ok (-196608) := by decide
  obtain ⟨min, target, hloop, hbest⟩ := keyLoop_best (b := b) h.counted.letters h.pressed active
    (FLY_SIZE + 1) s.head (-6553600) none [] h.counted.shape.length_le h.counted.shape.linked.chain
    rfl ⟨rfl, by decide⟩
  rw [updateKeypress, hmin, float, ok_bind, hloop, ok_bind, Board.keypress, ← h.letters]
  cases target with
  | none =>
      rw [hbest.1]
      exact ⟨s, rfl, h⟩
  | some i =>
      obtain ⟨l, r, rfl, hfirst, -, hmax⟩ := hbest
      have hi := h.counted.letters i (by simp)
      have hnodup := (List.nodup_middle.mp h.counted.shape.linked.nodup).notMem
      have hil : i ∉ l := fun hmem => hnodup (List.mem_append_left _ hmem)
      have hir : i ∉ r := fun hmem => hnodup (List.mem_append_right _ hmem)
      have hrises : Letter.Fits { s.fly.data i with v := -196608 } :=
        ⟨hi.x_nonneg, hi.x_le, by dsimp only; decide, by dsimp only; decide, hi.text_nonneg,
          hi.text_lt⟩
      have hstruck : Letter.view { s.fly.data i with v := -196608 } = (s.fly.data i).view.struck := rfl
      rw [hmax]
      dsimp only
      rw [releaseKey, keyIndex_view hi, ok_bind]
      refine ⟨_, rfl, (h.counted.of_keys _).setData i hrises, h.nodes, ?_, h.hit, h.miss, ?_⟩
      · show views { s with fly := s.fly.setData i { s.fly.data i with v := -196608 } } (l ++ i :: r) = _
        rw [← List.singleton_append, views_append, views_append, views_setData hil,
          views_setData hir, views_setData_same, views_append, views_append,
          List.replace_append_right hfirst, hstruck]
        show _ = _ ++ List.replace ((s.fly.data i).view :: views s r) _ _
        rw [List.replace_cons_self]
        rfl
      · show Function.update s.letter_pressed _ false = _
        rw [h.pressed]

end Keypress

/-! ## `create_new_letter` -/

section Create

variable {n : Nat} {s : State} {b : Board} {active free : List FlyPtr} {i : FlyPtr}

/-- `fly_new` hands out a node exactly while fewer than `FLY_SIZE` are in use. -/
theorem Shows.new_run (h : Shows n s b active free) :
    (b.letters.length < FLY_SIZE ∧ ∃ i fly free', s.fly.new = .ok (i, fly) ∧
        HandedOut fly s.head active free' i ∧ free' ≠ [] ∧
        active.length + 1 + free'.length = FLY_SIZE + 1 ∧ fly.data = s.fly.data) ∨
      (¬b.letters.length < FLY_SIZE ∧ s.fly.new = .error .poolEmpty) := by
  have hlen : b.letters.length = active.length := by rw [← h.letters, length_views]
  rw [hlen]
  by_cases hn : n = 0
  · -- the first call threads the pool
    obtain ⟨rfl, hlast⟩ := h.counted.unused hn
    obtain rfl : active = [] := by
      have hcount := h.counted.count
      exact List.length_eq_zero_iff.mp (by omega)
    obtain ⟨i, j, r, hnodes⟩ := @finRange_cons_cons FLY_SIZE (by decide)
    have hall : (i :: j :: r).length = FLY_SIZE + 1 := by rw [← hnodes, List.length_finRange]
    have hshape := h.counted.shape.thread hlast
    rw [hnodes] at hshape
    obtain ⟨fly, hnew, hout, hdata⟩ := hshape.new_run
    rw [← new_eq_thread h.counted.shape.freeChain] at hnew
    refine .inl ⟨by decide, i, fly, _, hnew, hout, List.cons_ne_nil j r, ?_,
      hdata.trans data_thread⟩
    simp only [List.length_cons, List.length_nil] at hall ⊢
    omega
  · have hnodes := h.nodes hn
    rcases free with _ | ⟨i, _ | ⟨j, free⟩⟩
    · exact absurd rfl (h.counted.threaded hn)
    · rw [List.length_singleton] at hnodes
      exact .inr ⟨by omega, h.counted.shape.new_stop⟩
    · obtain ⟨fly, hnew, hout, hdata⟩ := h.counted.shape.new_run
      simp only [List.length_cons] at hnodes
      refine .inl ⟨by omega, i, fly, _, hnew, hout, List.cons_ne_nil _ _, ?_, hdata⟩
      rw [List.length_cons]
      omega

theorem createNewLetter_shows (h : Shows n s b active free) (rand₁ rand₂ rand₃ : Nat) :
    (∃ s' b' active' free', createNewLetter rand₁ rand₂ rand₃ s = .ok s' ∧
        b.create rand₁ rand₂ rand₃ = .ok b' ∧ Shows (n + 1) s' b' active' free') ∨
      (createNewLetter rand₁ rand₂ rand₃ s = .error .poolEmpty ∧
        b.create rand₁ rand₂ rand₃ = .error .poolEmpty) := by
  rcases h.new_run with ⟨hroom, i, fly, free', hnew, hout, hfree, hnodes, hdata⟩ | ⟨hfull, hstop⟩
  · obtain ⟨fly', hlink, hshape, hdata'⟩ := link_run hout
    obtain ⟨v, hv, hval⟩ := fallSpeed_val rand₂
    have hcreate := createNewLetter_eq hnew hlink hv rand₁ rand₃
    have hmod : rand₂ % 1000 < 1000 := Nat.mod_lt _ (by decide)
    have htext₁ : ((rand₃ % 26 : Nat) : Int) < 26 := by omega
    have hx : (0 : FLOAT).toInt = 0 := by decide
    let letter : Letter :=
      { x := 0, y := rand₁ % (SCR_WIDTH / 8 - 2) * 8 + 8, v := v, text := (rand₃ % 26 : Nat) }
    have hfits : letter.Fits := by
      refine ⟨?_, ?_, ?_, ?_, Int.natCast_nonneg _, htext₁⟩ <;> (dsimp only [letter]; omega)
    have hview : letter.view =
        { x := 0, y := (rand₁ % 38 * 8 + 8 : Nat), text := ⟨rand₃ % 26, Nat.mod_lt _ (by decide)⟩,
          v := (rand₂ % 1000 : Nat) * 65536 / 2000 + 32768 } := by
      have htext : Fin.ofNat 26 ((rand₃ % 26 : Nat) : Int).toNat
          = ⟨rand₃ % 26, Nat.mod_lt _ (by decide)⟩ := Fin.ext (Nat.mod_mod rand₃ 26)
      rw [Letter.view]
      dsimp only [letter]
      rw [hx, hval, htext]
      rfl
    have hkey := keyIndex_view hfits
    rw [hview] at hkey
    rw [Board.create, if_pos hroom, hcreate, releaseKey, hkey, ok_bind]
    have hold : views { s with fly := fly'.setData i letter, head := some i } active = views s active := by
      refine (views_setData (s := { s with fly := fly', head := some i }) hout.notUsed).trans ?_
      apply views_congr
      intro j _
      show fly'.data j = s.fly.data j
      rw [hdata', hdata]
    refine .inl ⟨_, _, i :: active, free', rfl, rfl,
      ⟨hshape.setData _, fits_setData hfits fun j hj hji => ?_, ?_, fun _ => hfree,
        fun hn => absurd hn (Nat.succ_ne_zero n)⟩, ?_, ?_, h.hit, h.miss, ?_⟩
    · rw [hdata', hdata]
      exact h.counted.letters j ((List.mem_cons.mp hj).resolve_left hji)
    · have hcount := h.counted.count
      rw [List.length_cons]
      show s.hit + s.miss + (active.length + 1) = n + 1
      omega
    · intro _
      rw [List.length_cons]
      exact hnodes
    · have hnew' := @views_setData_same { s with fly := fly', head := some i } i letter
      show views { s with fly := fly'.setData i letter, head := some i } ([i] ++ active) = _
      rw [views_append, hold, hnew', hview, h.letters]
      rfl
    · show Function.update s.letter_pressed _ false = _
      rw [h.pressed]
  · exact .inr ⟨by rw [createNewLetter, hstop, error_bind], if_neg hfull⟩

end Create

/-! ## Runs -/

/-- Some letters, some nodes. -/
def Shown (s : State) (b : Board) : Prop := ∃ n active free, Shows n s b active free

/-- A call does the same to the nodes and to the list. -/
theorem step_shown {s : State} {b : Board} (h : Shown s b) (op : Op) :
    DetSystem.Agree Shown (step s op) (b.step op) := by
  obtain ⟨n, active, free, h⟩ := h
  cases op with
  | create rand₁ rand₂ rand₃ =>
      rw [step, Board.step]
      rcases createNewLetter_shows h rand₁ rand₂ rand₃ with
        ⟨s', b', active', free', hrun, hboard, h'⟩ | ⟨hrun, hboard⟩
      · rw [hrun, hboard]
        exact .ok ⟨n + 1, active', free', h'⟩
      · rw [hrun, hboard]
        exact .error _
  | update =>
      obtain ⟨s', active', free', hrun, h'⟩ := updateLetterPos_shows h
      rw [step, hrun]
      exact .ok ⟨n, active', free', h'⟩
  | keypress =>
      obtain ⟨s', hrun, h'⟩ := updateKeypress_shows h
      rw [step, hrun]
      exact .ok ⟨n, active, free, h'⟩
  | key scan_code =>
      refine .ok ⟨n, active, free, h.counted.of_keys _, h.nodes, h.letters, h.hit, h.miss, ?_⟩
      rw [pressKey, Board.key, ← h.pressed]

theorem run_shown (ops : List Op) :
    DetSystem.Agree Shown (DetSystem.run step .init ops) (DetSystem.run Board.step .init ops) := by
  have hstep : ∀ s b op, Shown s b → True → DetSystem.Agree Shown (step s op) (b.step op) :=
    fun s b op h _ => step_shown h op
  have hinit : Shown State.init Board.init := ⟨0, [], [], shows_init⟩
  exact DetSystem.run_agree hstep ops _ _ hinit (fun _ _ => trivial)

/-- A call stops the game on the list in the pool assertion only. -/
theorem Board.step_error {b : Board} {op : Op} {e : GameStop} (h : b.step op = .error e) :
    e = .poolEmpty := by
  cases op with
  | create rand₁ rand₂ rand₃ =>
      rw [Board.step, Board.create] at h
      by_cases hroom : b.letters.length < FLY_SIZE
      · rw [if_pos hroom] at h
        cases h
      · rw [if_neg hroom] at h
        cases h
        rfl
  | update => cases h
  | keypress => cases h
  | key scan_code => cases h

theorem Board.run_inv {P : Board → Prop} (hinit : P .init)
    (hstep : ∀ b op o b', P b → b.step op = .ok (o, b') → P b') (ops : List Op) :
    DetSystem.run Board.step .init ops = .error .poolEmpty ∨
      ∃ os b, DetSystem.run Board.step .init ops = .ok (os, b) ∧ P b := by
  have hstop : ∀ (before : List Op) (b : Board) (op : Op), P b →
      (∃ e, b.step op = .error e ∧ e = .poolEmpty) ∨ ∃ o b', b.step op = .ok (o, b') ∧ P b' := by
    intro _ b op hP
    cases hrun : b.step op with
    | error e => exact .inl ⟨e, rfl, Board.step_error hrun⟩
    | ok p => exact .inr ⟨p.1, p.2, rfl, hstep b op p.1 p.2 hP hrun⟩
  rcases DetSystem.run_history hstop ops [] .init hinit with
    ⟨e, hrun, rfl⟩ | ⟨os, b, hrun, hP⟩
  · exact .inl hrun
  · exact .inr ⟨os, b, hrun, hP⟩

/-- **The game on its pool is the game on a list.** Every sequence of calls stops in both or in
    neither, in the pool assertion only; and where it does not stop, the nodes from the head on
    are the letters of the list, in its order, with the same hits, misses and keys. -/
theorem run_refines_board (ops : List Op) :
    (run ops = .error .poolEmpty ∧ DetSystem.run Board.step .init ops = .error .poolEmpty) ∨
      ∃ s b, run ops = .ok s ∧ (∃ os, DetSystem.run Board.step .init ops = .ok (os, b)) ∧
        (∃ active, Chain s.fly.next s.head active ∧ views s active = b.letters) ∧
        s.hit = b.hit ∧ s.miss = b.miss ∧ s.letter_pressed = b.pressed := by
  have h := run_shown ops
  have hboard := Board.run_inv (P := fun _ => True) trivial (fun _ _ _ _ _ _ => trivial) ops
  rw [run]
  generalize DetSystem.run step State.init ops = x at h ⊢
  generalize DetSystem.run Board.step Board.init ops = y at h hboard ⊢
  cases h with
  | error e =>
      rcases hboard with he | ⟨_, _, hok, -⟩
      · obtain rfl := Except.error.inj he
        exact .inl ⟨rfl, rfl⟩
      · cases hok
  | @ok os s b hshown =>
      obtain ⟨n, active, free, hs⟩ := hshown
      exact .inr ⟨s, b, rfl, ⟨os, rfl⟩, ⟨active, hs.counted.shape.linked.chain, hs.letters⟩, hs.hit,
        hs.miss, hs.pressed⟩

end Typing

end Nemu
