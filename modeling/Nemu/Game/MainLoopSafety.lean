/-
  Nemu.Game.MainLoopSafety

  The main loop of the typing game, whatever interrupts come and wherever they come.

  No assertion fails, the pool never runs out, and the letters on the screen with the hits and
  misses are one for each third of a second that the loop has dealt with.  That the pool does
  not run out is a matter of speed: a letter is gone after at most 450 moves, and a new one
  comes only every 33 (`Spaced`).  Left alone, the loop goes back to sleep (`Loop.work`
  falls with every statement), and then it has dealt with every tick so far.
-/

import Nemu.Game.MainLoop

namespace Nemu

open LinkedList LinkList Outcome

namespace Typing

/-! ## How long letters stay -/

/-- A letter falls by at least half a pixel a move, or it has been hit. -/
def Falling.Paced (a : Falling) : Prop := a.v = -196608 ∨ 32768 ≤ a.v

/-- A bound on the moves until the letter is gone, hit or not. -/
def Falling.life (a : Falling) : Nat :=
  if a.v < 0 then (a.x / 196608).toNat + 1 else ((12589466 - a.x) / 32768).toNat + 66

theorem Falling.life_pos (a : Falling) : 0 < a.life := by
  rw [life]
  split <;> omega

/-- A letter that stays has come closer to its end. -/
theorem Falling.life_moved {a : Falling} (hpaced : a.Paced) (hframed : a.Framed)
    (hon : a.moved.onScreen = true) : a.moved.life + 1 ≤ a.life := by
  obtain ⟨hx₀, hx₁, -, -⟩ := hframed
  obtain ⟨hm₀, hm₁⟩ := decide_eq_true_iff.mp hon
  have hx : a.moved.x = a.x + a.v := rfl
  rw [hx] at hm₀ hm₁
  rw [life, life, hx]
  show (if a.v < 0 then _ else _) + 1 ≤ _
  rcases hpaced with hv | hv
  · rw [if_pos (by omega), if_pos (by omega)]
    omega
  · rw [if_neg (by omega), if_neg (by omega)]
    omega

theorem Falling.life_struck {a : Falling} (hframed : a.Framed) (hv : 0 < a.v) :
    a.struck.life ≤ a.life := by
  obtain ⟨hx₀, hx₁, -, -⟩ := hframed
  have hstruck : a.struck.life = (a.x / 196608).toNat + 1 := if_pos (by decide : (-196608 : Int) < 0)
  rw [hstruck, life, if_neg (by omega)]
  omega

/-- From the newest letter on, each has 33 moves less to go than the one before may have. -/
def Spaced : Nat → List Falling → Prop
  | _, [] => True
  | moves, a :: l => a.life ≤ moves ∧ Spaced (moves - 33) l

theorem Spaced.mono {l : List Falling} : ∀ {k m : Nat}, Spaced k l → k ≤ m → Spaced m l := by
  induction l with
  | nil => exact fun _ _ => trivial
  | cons a l ih => exact fun h hkm => ⟨Nat.le_trans h.1 hkm, ih h.2 (Nat.sub_le_sub_right hkm 33)⟩

/-- So there cannot be many. -/
theorem Spaced.length_le {l : List Falling} : ∀ {k : Nat}, Spaced k l → 33 * l.length ≤ k + 32 := by
  induction l with
  | nil => exact fun _ => Nat.zero_le _
  | cons a l ih =>
      intro k h
      have hrest := ih h.2
      have hlife := a.life_pos
      have hfirst := h.1
      rw [List.length_cons]
      cases l with
      | nil => simp only [List.length_nil]; omega
      | cons c l =>
          have hlife' := c.life_pos
          have hsecond := h.2.1
          omega

theorem Spaced.moved {l : List Falling} : ∀ {k : Nat}, Spaced k l → (∀ a ∈ l, a.Paced) →
    (∀ a ∈ l, a.Framed) → Spaced (k - 1) ((l.map Falling.moved).filter Falling.onScreen) := by
  induction l with
  | nil => exact fun _ _ _ => trivial
  | cons a l ih =>
      intro k h hpaced hframed
      have hrest := ih h.2 (fun c hc => hpaced c (List.mem_cons_of_mem _ hc))
        (fun c hc => hframed c (List.mem_cons_of_mem _ hc))
      have hfirst := h.1
      rw [List.map_cons, List.filter_cons]
      by_cases hon : a.moved.onScreen = true
      · have hlife := Falling.life_moved (hpaced a (List.mem_cons_self ..))
          (hframed a (List.mem_cons_self ..)) hon
        rw [if_pos hon]
        exact ⟨by omega, hrest.mono (by omega)⟩
      · rw [if_neg hon]
        exact hrest.mono (by omega)

theorem Spaced.struck {l r : List Falling} {a : Falling} (hframed : a.Framed) (hv : 0 < a.v) :
    ∀ {k : Nat}, Spaced k (l ++ a :: r) → Spaced k (l ++ a.struck :: r) := by
  induction l with
  | nil => exact fun h => ⟨Nat.le_trans (Falling.life_struck hframed hv) h.1, h.2⟩
  | cons c l ih => exact fun h => ⟨h.1, ih h.2⟩

/-! ## The letters between two calls -/

/-- What the loop keeps of the letters when each is `moves` moves from its end at the most. -/
structure Lively (moves : Nat) (b : Board) : Prop where
  framed : ∀ a ∈ b.letters, a.Framed
  paced : ∀ a ∈ b.letters, a.Paced
  spaced : Spaced moves b.letters

section Lively

variable {moves : Nat} {b : Board}

theorem Lively.few (h : Lively moves b) (hmoves : moves ≤ 450) : b.letters.length ≤ 14 := by
  have hlen := h.spaced.length_le
  omega

/-- After 33 moves there is time for another letter. -/
theorem Lively.create (h : Lively 417 b) (rand₁ rand₂ rand₃ : Nat) :
    ∃ b', b.create rand₁ rand₂ rand₃ = .ok b' ∧ Lively 450 b' := by
  have hroom : b.letters.length < FLY_SIZE := by
    have hfew := h.few (by decide)
    rw [FLY_SIZE]
    omega
  have hrun : b.create rand₁ rand₂ rand₃ = .ok _ := if_pos hroom
  refine ⟨_, hrun, framed_step b (.create rand₁ rand₂ rand₃) () _ h.framed ?_, fun a ha => ?_, ?_,
    h.spaced⟩
  · rw [Board.step, hrun]
    rfl
  · rcases List.mem_cons.mp ha with rfl | ha
    · right
      dsimp only
      omega
    · exact h.paced a ha
  · rw [Falling.life, if_neg (by dsimp only; omega)]
    dsimp only
    omega

theorem Lively.update (h : Lively moves b) : Lively (moves - 1) b.update := by
  refine ⟨framed_step b .update _ _ h.framed rfl, fun a ha => ?_, h.spaced.moved h.paced h.framed⟩
  obtain ⟨c, hc, rfl⟩ := List.mem_map.mp (List.mem_filter.mp ha).1
  exact h.paced c hc

-- the letters that still fall
def Board.falling (b : Board) : Nat := b.letters.countP fun a => 0 < a.v

/-- A key press that finds a letter leaves one less to fall. -/
theorem Lively.keypress (h : Lively moves b) :
    Lively moves b.keypress.2 ∧ (b.keypress.1 = true → b.keypress.2.falling < b.falling) ∧
      (b.keypress.1 = false → b.keypress.2 = b) := by
  have hframed := framed_step b .keypress _ _ h.framed rfl
  rcases b.keypress_cases with ⟨hkey, -⟩ | ⟨l, a, r, heq, hcand, hkey⟩
  · rw [hkey]
    exact ⟨h, nofun, fun _ => rfl⟩
  · obtain ⟨hv, -⟩ := decide_eq_true_iff.mp hcand
    have ha : a ∈ b.letters := by rw [heq]; simp
    have hspaced := h.spaced
    rw [heq] at hspaced
    rw [hkey] at hframed ⊢
    refine ⟨⟨hframed, fun c hc => ?_, hspaced.struck (h.framed a ha) hv⟩, fun _ => ?_, nofun⟩
    · rcases List.mem_append.mp hc with hl | hr
      · exact h.paced c (by rw [heq]; simp [hl])
      · rcases List.mem_cons.mp hr with rfl | hr
        · exact .inl rfl
        · exact h.paced c (by rw [heq]; simp [hr])
    · rw [Board.falling, Board.falling, heq]
      have hup : ¬(0 < a.struck.v) := by show ¬(0 < (-196608 : Int)); decide
      simp only [List.countP_append, List.countP_cons, hup, hv, decide_true, decide_false, if_true]
      simp

end Lively

/-! ## The invariant -/

namespace Loop

/-- The letters that the statements so far have created. -/
def due (l : Loop) : Nat :=
  match l.pc with
  | .update | .redraw | .fps | .inc => l.now.toNat / 33 + 1
  | _ => (l.now.toNat + 32) / 33

/-- The moves that a letter can be from its end. -/
def moves (l : Loop) : Nat :=
  match l.pc with
  | .update => 450 - l.now.toNat % 33
  | .redraw | .fps | .inc => 449 - l.now.toNat % 33
  | _ => if l.now.toNat % 33 = 0 then 417 else 450 - l.now.toNat % 33

/-- Where interrupts are on, and how far the loop has come. -/
def At (l : Loop) : Prop :=
  match l.pc with
  | .waitIntr | .halted | .cli => l.intr = true
  | .nowTest => l.intr = false
  | .catchUp => l.intr = false ∧ l.now.toNat < l.tick.toNat
  | .sti => l.intr = false ∧ l.now.toNat < l.target.toNat ∧ l.target.toNat ≤ l.tick.toNat
  | .keypress => l.now.toNat < l.target.toNat ∧ l.target.toNat ≤ l.tick.toNat
  | .whileTest => l.intr = true ∧ l.now.toNat ≤ l.target.toNat ∧ l.target.toNat ≤ l.tick.toNat
  | .create | .update | .redraw | .fps | .inc =>
      l.intr = true ∧ l.now.toNat < l.target.toNat ∧ l.target.toNat ≤ l.tick.toNat
  | .draw => l.intr = true ∧ l.now = l.target ∧ l.target.toNat ≤ l.tick.toNat

-- the ticks dealt with since the frames were last counted
def drawn (now : Nat) : Nat := if now = 0 then 0 else (now - 1) % 50 + 1

/-- There is at most one frame a tick, and the frames are counted every 50 ticks. -/
def Frames (l : Loop) : Prop :=
  (0 ≤ l.real_fps ∧ l.real_fps ≤ FPS) ∧
    match l.pc with
    | .inc => l.num_draw ≤ l.now.toNat % 50
    | .draw => l.num_draw < drawn l.now.toNat
    | .whileTest => l.num_draw ≤ drawn l.now.toNat ∧ (l.now = l.target → l.num_draw < drawn l.now.toNat)
    | _ => l.num_draw ≤ drawn l.now.toNat

/-- The state of the program between two statements, with the board that it shows. -/
structure Held (l : Loop) (b : Board) : Prop where
  shows : ∃ active free, Shows l.due l.game b active free
  lively : Lively l.moves b
  tick_lt : l.tick.toNat < 2 ^ 31
  now_le : l.now.toNat ≤ l.tick.toNat
  frames : l.Frames
  at_pc : l.At

/-- How many statements are left until the loop sleeps, if no interrupt comes. -/
def work (l : Loop) (b : Board) : Nat :=
  match l.pc with
  | .halted => 0
  | .waitIntr => 1
  | .draw => 2
  | .inc => 6 * (l.target.toNat - l.now.toNat) - 2
  | .fps => 6 * (l.target.toNat - l.now.toNat) - 1
  | .redraw => 6 * (l.target.toNat - l.now.toNat)
  | .update => 6 * (l.target.toNat - l.now.toNat) + 1
  | .create => 6 * (l.target.toNat - l.now.toNat) + 2
  | .whileTest => 6 * (l.target.toNat - l.now.toNat) + 3
  | .keypress => 6 * (l.target.toNat - l.now.toNat) + 4 + b.falling
  | .sti => 6 * (l.target.toNat - l.now.toNat) + 5 + b.falling
  | .catchUp => 6 * (l.tick.toNat - l.now.toNat) + 6 + b.falling
  | .nowTest => 6 * (l.tick.toNat - l.now.toNat) + 7 + b.falling
  | .cli => 6 * (l.tick.toNat - l.now.toNat) + 8 + b.falling

/-- The loop has taken on every tick so far. -/
def Current (l : Loop) : Prop :=
  match l.pc with
  | .cli | .nowTest | .catchUp => True
  | .waitIntr | .halted => l.now = l.tick
  | _ => l.target = l.tick

/-- What a statement does to all this. -/
structure Next (l : Loop) (b : Board) (l' : Loop) (b' : Board) : Prop where
  held : Held l' b'
  tick : l'.tick = l.tick
  work : l.pc = .halted ∨ l'.work b' < l.work b
  current : l.Current → l'.Current

theorem start_held : Held start .init := by
  refine ⟨⟨[], [], shows_init⟩, ⟨nofun, nofun, trivial⟩, by decide, by decide, ?_, rfl⟩
  exact ⟨⟨Int.le_refl 0, by decide⟩, Nat.le_refl 0⟩

/-! ## Statements -/

section Exec

variable {l : Loop} {b : Board}

-- signed comparison, below `2 ^ 31`
theorem slt_iff {x y : BitVec 32} (hx : x.toNat < 2 ^ 31) (hy : y.toNat < 2 ^ 31) :
    x.slt y = true ↔ x.toNat < y.toNat := by
  rw [BitVec.slt, decide_eq_true_iff, BitVec.toInt_eq_toNat_of_lt (by omega),
    BitVec.toInt_eq_toNat_of_lt (by omega)]
  omega

theorem every_iff {n : Nat} (hnow : l.now.toNat < 2 ^ 31) :
    l.every n = true ↔ l.now.toNat % n = 0 := by
  rw [every, beq_iff_eq, BitVec.toInt_eq_toNat_of_lt (by omega), Int.tmod_eq_emod_of_nonneg (by omega)]
  omega

/-- Every 50 ticks the frames are counted, and the count starts again. -/
theorem Frames.fps (h : l.Frames) (hpc : l.pc = .fps) (hnow : l.now.toNat < 2 ^ 31) :
    Frames { (if l.every (HZ / 2) then l.setFps else l) with pc := .inc } := by
  have hevery := every_iff (n := HZ / 2) hnow
  rw [Frames, hpc] at h
  obtain ⟨hfps, hdraws⟩ := h
  rw [show HZ / 2 = 50 from rfl] at hevery ⊢
  by_cases hcount : l.now.toNat % 50 = 0
  · rw [if_pos (hevery.mpr hcount), setFps]
    refine ⟨?_, Nat.zero_le _⟩
    dsimp only
    rw [show FPS = 30 from rfl]
    split <;> omega
  · rw [if_neg (fun hc => hcount (hevery.mp hc))]
    refine ⟨hfps, ?_⟩
    dsimp only at hdraws ⊢
    rw [drawn] at hdraws
    split at hdraws <;> omega

-- statements that move control on and leave `now` and the game alone
theorem Held.goto {l' : Loop} (h : Held l b) (hgame : l'.game = l.game) (hnow : l'.now = l.now)
    (htick : l'.tick = l.tick) (hdue : l'.due = l.due) (hmoves : l'.moves = l.moves)
    (hframes : l'.Frames) (hat : l'.At) : Held l' b := by
  refine ⟨?_, ?_, ?_, ?_, hframes, hat⟩
  · rw [hgame, hdue]
    exact h.shows
  · rw [hmoves]
    exact h.lively
  · rw [htick]
    exact h.tick_lt
  · rw [hnow, htick]
    exact h.now_le

variable (font8x8_basic : Nat → Nat → Byte) (rand₁ rand₂ rand₃ : Nat)

/-- While interrupts are off, a key press turns a letter round or ends the loop. -/
theorem exec_keypress (h : Held l b) (hpc : l.pc = .keypress) :
    ∃ l' b', l.exec font8x8_basic rand₁ rand₂ rand₃ = .ok l' ∧ Next l b l' b' := by
  obtain ⟨game, key_code, tick, real_fps, video, intr, pc, now, target, num_draw, redraw⟩ := l
  obtain rfl : pc = .keypress := hpc
  obtain ⟨⟨active, free, hshows⟩, hlively, htick, hnow, ⟨hfps, hdraws⟩, hlt, hle⟩ := h
  obtain ⟨game', hrun, hshows'⟩ := updateKeypress_shows hshows
  obtain ⟨hlively', hturned, hsame⟩ := hlively.keypress
  dsimp only at hlt hle htick hnow
  rw [exec]
  dsimp only
  rw [hrun, ok_bind]
  dsimp only
  cases hfound : b.keypress.1 with
  | true =>
      refine ⟨_, b.keypress.2, rfl, ⟨⟨active, free, hshows'⟩, hlively', htick, hnow, ⟨hfps, hdraws⟩,
        hlt, hle⟩, rfl, .inr ?_, fun hcur => hcur⟩
      have hless := hturned hfound
      simp only [work]
      omega
  | false =>
      rw [hsame hfound] at hshows'
      refine ⟨_, b, rfl, ⟨⟨active, free, hshows'⟩, hlively, htick, hnow, ⟨hfps, hdraws, ?_⟩, rfl, ?_,
        hle⟩, rfl, .inr ?_, fun hcur => hcur⟩
      · intro heq
        dsimp only at heq
        rw [heq] at hlt
        exact absurd hlt (Nat.lt_irrefl _)
      · dsimp only
        omega
      · simp only [work]
        omega

/-- Every 33 ticks there is a new letter. -/
theorem exec_create (h : Held l b) (hpc : l.pc = .create) :
    ∃ l' b', l.exec font8x8_basic rand₁ rand₂ rand₃ = .ok l' ∧ Next l b l' b' := by
  have hevery := every_iff (l := l) (n := HZ / CHARACTER_PER_SECOND)
    (Nat.lt_of_le_of_lt h.now_le h.tick_lt)
  obtain ⟨game, key_code, tick, real_fps, video, intr, pc, now, target, num_draw, redraw⟩ := l
  obtain rfl : pc = .create := hpc
  obtain ⟨⟨active, free, hshows⟩, hlively, htick, hnow, hframes, hat⟩ := h
  rw [show HZ / CHARACTER_PER_SECOND = 33 from rfl] at hevery
  rw [exec]
  dsimp only [moves, due] at hlively hshows hevery ⊢
  by_cases hdue : now.toNat % 33 = 0
  · rw [if_pos hdue] at hlively
    obtain ⟨b', hboard, hlively'⟩ := hlively.create rand₁ rand₂ rand₃
    rcases createNewLetter_shows hshows rand₁ rand₂ rand₃ with
      ⟨game', b'', active', free', hrun, hboard', hshows'⟩ | ⟨-, hboard'⟩
    · obtain rfl := Except.ok.inj (hboard.symm.trans hboard')
      rw [show HZ / CHARACTER_PER_SECOND = 33 from rfl, if_pos (hevery.mpr hdue), hrun, ok_bind]
      refine ⟨_, b', rfl, ⟨⟨active', free', ?_⟩, ?_, htick, hnow, hframes, hat⟩, rfl, .inr ?_,
        fun hcur => hcur⟩
      · rw [show (now.toNat + 32) / 33 + 1 = now.toNat / 33 + 1 by omega] at hshows'
        exact hshows'
      · dsimp only [moves]
        rw [hdue]
        exact hlively'
      · simp only [work]
        omega
    · cases hboard.symm.trans hboard'
  · rw [if_neg hdue] at hlively
    rw [show HZ / CHARACTER_PER_SECOND = 33 from rfl, if_neg (fun hc => hdue (hevery.mp hc))]
    refine ⟨_, b, rfl, ⟨⟨active, free, ?_⟩, hlively, htick, hnow, hframes, hat⟩, rfl, .inr ?_,
      fun hcur => hcur⟩
    · rw [show (now.toNat + 32) / 33 = now.toNat / 33 + 1 by omega] at hshows
      exact hshows
    · simp only [work]
      omega

/-- Every tick the letters move. -/
theorem exec_update (h : Held l b) (hpc : l.pc = .update) :
    ∃ l' b', l.exec font8x8_basic rand₁ rand₂ rand₃ = .ok l' ∧ Next l b l' b' := by
  have hevery := every_iff (l := l) (n := HZ / UPDATE_PER_SECOND)
    (Nat.lt_of_le_of_lt h.now_le h.tick_lt)
  obtain ⟨game, key_code, tick, real_fps, video, intr, pc, now, target, num_draw, redraw⟩ := l
  obtain rfl : pc = .update := hpc
  obtain ⟨⟨active, free, hshows⟩, hlively, htick, hnow, hframes, hat⟩ := h
  obtain ⟨game', active', free', hrun, hshows'⟩ := updateLetterPos_shows hshows
  rw [exec]
  dsimp only
  rw [if_pos (hevery.mpr (Nat.mod_one _)), hrun, ok_bind]
  refine ⟨_, b.update, rfl, ⟨⟨active', free', hshows'⟩, ?_, htick, hnow, hframes, hat⟩, rfl, .inr ?_,
    fun hcur => hcur⟩
  · have hmoved := hlively.update
    dsimp only [moves] at hmoved ⊢
    rwa [Nat.sub_sub, Nat.add_comm, ← Nat.sub_sub] at hmoved
  · simp only [work]
    omega

theorem exec_draw (h : Held l b) (hpc : l.pc = .draw) :
    ∃ l' b', l.exec font8x8_basic rand₁ rand₂ rand₃ = .ok l' ∧ Next l b l' b' := by
  obtain ⟨game, key_code, tick, real_fps, video, intr, pc, now, target, num_draw, redraw⟩ := l
  obtain rfl : pc = .draw := hpc
  obtain ⟨⟨active, free, hshows⟩, hlively, htick, hnow, ⟨hfps, hdraws⟩, hintr, htarget, hle⟩ := h
  have hcurrent : target = tick → now = tick := fun hcur => htarget.trans hcur
  rw [exec]
  dsimp only
  cases redraw with
  | false =>
      exact ⟨_, b, rfl, ⟨⟨active, free, hshows⟩, hlively, htick, hnow, ⟨hfps, Nat.le_of_lt hdraws⟩,
        hintr⟩, rfl, .inr (Nat.lt_succ_self 1), hcurrent⟩
  | true =>
      have hdrawn := redrawScreen_shows font8x8_basic hshows hlively.framed key_code real_fps
      rw [if_pos rfl, hdrawn, ok_bind]
      exact ⟨_, b, rfl, ⟨⟨active, free, hshows⟩, hlively, htick, hnow, ⟨hfps, hdraws⟩, hintr⟩, rfl,
        .inr (Nat.lt_succ_self 1), hcurrent⟩

/-- Every statement keeps the invariant, and brings the loop nearer to its sleep. -/
theorem exec_next (h : Held l b) :
    ∃ l' b', l.exec font8x8_basic rand₁ rand₂ rand₃ = .ok l' ∧ Next l b l' b' := by
  cases hpc : l.pc with
  | keypress => exact exec_keypress font8x8_basic rand₁ rand₂ rand₃ h hpc
  | create => exact exec_create font8x8_basic rand₁ rand₂ rand₃ h hpc
  | update => exact exec_update font8x8_basic rand₁ rand₂ rand₃ h hpc
  | draw => exact exec_draw font8x8_basic rand₁ rand₂ rand₃ h hpc
  | halted =>
      refine ⟨l, b, by rw [exec, hpc], h, rfl, .inl hpc, fun hcur => hcur⟩
  | waitIntr =>
      obtain ⟨game, key_code, tick, real_fps, video, intr, pc, now, target, num_draw, redraw⟩ := l
      obtain rfl : pc = .waitIntr := hpc
      exact ⟨_, b, rfl, h.goto rfl rfl rfl rfl rfl h.frames h.at_pc, rfl, .inr Nat.zero_lt_one,
        fun hcur => hcur⟩
  | cli =>
      obtain ⟨game, key_code, tick, real_fps, video, intr, pc, now, target, num_draw, redraw⟩ := l
      obtain rfl : pc = .cli := hpc
      exact ⟨_, b, rfl, h.goto rfl rfl rfl rfl rfl h.frames rfl, rfl,
        .inr (by simp only [work]; omega), fun hcur => hcur⟩
  | nowTest =>
      obtain ⟨game, key_code, tick, real_fps, video, intr, pc, now, target, num_draw, redraw⟩ := l
      obtain rfl : pc = .nowTest := hpc
      have hnow : now.toNat ≤ tick.toNat := h.now_le
      rw [exec]
      dsimp only
      by_cases heq : now = tick
      · rw [if_pos heq]
        exact ⟨_, b, rfl, h.goto rfl rfl rfl rfl rfl h.frames rfl, rfl,
          .inr (by simp only [work]; omega), fun _ => heq⟩
      · have hne : now.toNat ≠ tick.toNat := fun hc => heq (BitVec.eq_of_toNat_eq hc)
        rw [if_neg heq]
        refine ⟨_, b, rfl, h.goto rfl rfl rfl rfl rfl h.frames ⟨h.at_pc, ?_⟩, rfl,
          .inr (by simp only [work]; omega), fun hcur => hcur⟩
        dsimp only
        omega
  | catchUp =>
      obtain ⟨game, key_code, tick, real_fps, video, intr, pc, now, target, num_draw, redraw⟩ := l
      obtain rfl : pc = .catchUp := hpc
      obtain ⟨hintr, hlt⟩ := h.at_pc
      have hslt := (slt_iff (Nat.lt_of_le_of_lt h.now_le h.tick_lt) h.tick_lt).mpr hlt
      rw [exec]
      dsimp only at hslt ⊢
      rw [if_pos hslt]
      exact ⟨_, b, rfl, h.goto rfl rfl rfl rfl rfl h.frames ⟨hintr, hlt, Nat.le_refl _⟩, rfl,
        .inr (by simp only [work]; omega), fun _ => rfl⟩
  | sti =>
      obtain ⟨game, key_code, tick, real_fps, video, intr, pc, now, target, num_draw, redraw⟩ := l
      obtain rfl : pc = .sti := hpc
      obtain ⟨-, hlt, hle⟩ := h.at_pc
      exact ⟨_, b, rfl, h.goto rfl rfl rfl rfl rfl h.frames ⟨hlt, hle⟩, rfl,
        .inr (by simp only [work]; omega), fun hcur => hcur⟩
  | whileTest =>
      obtain ⟨game, key_code, tick, real_fps, video, intr, pc, now, target, num_draw, redraw⟩ := l
      obtain rfl : pc = .whileTest := hpc
      obtain ⟨hintr, hnow, hle⟩ := h.at_pc
      obtain ⟨hfps, hdraws, hlast⟩ := h.frames
      have htarget := Nat.lt_of_le_of_lt hle h.tick_lt
      have hslt := slt_iff (Nat.lt_of_le_of_lt hnow htarget) htarget
      dsimp only at hintr hnow hle hslt
      rw [exec]
      dsimp only
      by_cases hlt : now.toNat < target.toNat
      · rw [if_pos (hslt.mpr hlt)]
        exact ⟨_, b, rfl, h.goto rfl rfl rfl rfl rfl ⟨hfps, hdraws⟩ ⟨hintr, hlt, hle⟩, rfl,
          .inr (by simp only [work]; omega), fun hcur => hcur⟩
      · have heq : now = target := BitVec.eq_of_toNat_eq (by omega)
        rw [if_neg (fun hc => hlt (hslt.mp hc))]
        exact ⟨_, b, rfl, h.goto rfl rfl rfl rfl rfl ⟨hfps, hlast heq⟩ ⟨hintr, heq, hle⟩, rfl,
          .inr (by simp only [work]; omega), fun hcur => hcur⟩
  | redraw =>
      obtain ⟨game, key_code, tick, real_fps, video, intr, pc, now, target, num_draw, redraw⟩ := l
      obtain rfl : pc = .redraw := hpc
      obtain ⟨hintr, hlt, hle⟩ := h.at_pc
      dsimp only at hlt
      exact ⟨_, b, rfl, h.goto rfl rfl rfl rfl rfl h.frames ⟨hintr, hlt, hle⟩, rfl,
        .inr (by simp only [work]; omega), fun hcur => hcur⟩
  | fps =>
      obtain ⟨game, key_code, tick, real_fps, video, intr, pc, now, target, num_draw, redraw⟩ := l
      obtain rfl : pc = .fps := hpc
      obtain ⟨hintr, hlt, hle⟩ := h.at_pc
      have hframes := h.frames.fps rfl (Nat.lt_of_le_of_lt h.now_le h.tick_lt)
      dsimp only at hlt
      rw [exec]
      dsimp only
      split at hframes <;> rename_i hevery
      · rw [if_pos hevery]
        exact ⟨_, b, rfl, h.goto rfl rfl rfl rfl rfl hframes ⟨hintr, hlt, hle⟩, rfl,
          .inr (by simp only [work, setFps]; omega), fun hcur => hcur⟩
      · rw [if_neg hevery]
        exact ⟨_, b, rfl, h.goto rfl rfl rfl rfl rfl hframes ⟨hintr, hlt, hle⟩, rfl,
          .inr (by simp only [work]; omega), fun hcur => hcur⟩
  | inc =>
      obtain ⟨game, key_code, tick, real_fps, video, intr, pc, now, target, num_draw, redraw⟩ := l
      obtain rfl : pc = .inc := hpc
      obtain ⟨⟨active, free, hshows⟩, hlively, htick, -, ⟨hfps, hdraws⟩, hintr, hlt, hle⟩ := h
      dsimp only [due, moves] at hshows hlively htick hdraws hintr hlt hle
      have hone : (now + 1).toNat = now.toNat + 1 := by
        rw [BitVec.toNat_add, show (1 : BitVec 32).toNat = 1 from rfl, Nat.mod_eq_of_lt (by omega)]
      have hdrawn : num_draw < drawn (now + 1).toNat := by
        rw [hone, drawn, if_neg (Nat.succ_ne_zero _), Nat.add_sub_cancel]
        omega
      refine ⟨_, b, rfl, ⟨⟨active, free, ?_⟩, ⟨hlively.framed, hlively.paced, ?_⟩, htick, ?_,
        ⟨hfps, Nat.le_of_lt hdrawn, fun _ => hdrawn⟩, hintr, ?_, hle⟩, rfl, .inr ?_,
        fun hcur => hcur⟩
      · dsimp only [due]
        rw [hone, show (now.toNat + 1 + 32) / 33 = now.toNat / 33 + 1 by omega]
        exact hshows
      · refine hlively.spaced.mono ?_
        dsimp only [moves]
        rw [hone]
        split <;> omega
      · dsimp only
        omega
      · dsimp only
        omega
      · simp only [work, hone]
        omega

end Exec

/-! ## Interrupts -/

section Interrupts

variable {l : Loop} {b : Board}

theorem Held.wake (h : Held l b) (hintr : l.intr = true) : Held l.wake b := by
  rw [Loop.wake]
  by_cases hpc : l.pc = .halted
  · rw [if_pos hpc]
    refine h.goto rfl rfl rfl ?_ ?_ ?_ hintr
    · simp only [due, hpc]
    · simp only [moves, hpc]
    · have hframes := h.frames
      rw [Frames, hpc] at hframes
      exact hframes
  · rw [if_neg hpc]
    exact h

/-- A tick is nothing that the letters depend on. -/
theorem Held.timerEvent (h : Held l b) (hintr : l.intr = true) (htick : l.tick.toNat + 1 < 2 ^ 31) :
    Held l.timerEvent b ∧ l.timerEvent.tick.toNat = l.tick.toNat + 1 := by
  have hone : (l.tick + 1).toNat = l.tick.toNat + 1 := by
    rw [BitVec.toNat_add, show (1 : BitVec 32).toNat = 1 from rfl, Nat.mod_eq_of_lt (by omega)]
  have hnow := h.now_le
  refine ⟨⟨h.shows, h.lively, ?_, ?_, h.frames, ?_⟩, hone⟩
  · rw [Loop.timerEvent, hone]
    exact htick
  · rw [Loop.timerEvent, hone]
    exact Nat.le_succ_of_le hnow
  · have hat := h.at_pc
    obtain ⟨game, key_code, tick, real_fps, video, intr, pc, now, target, num_draw, redraw⟩ := l
    obtain rfl : intr = true := hintr
    dsimp only at hone
    cases pc with
    | waitIntr | halted | cli => rfl
    | nowTest => exact nomatch hat
    | catchUp | sti => exact nomatch hat.1
    | keypress => exact ⟨hat.1, by rw [Loop.timerEvent, hone]; exact Nat.le_succ_of_le hat.2⟩
    | whileTest | create | update | redraw | fps | inc | draw =>
        exact ⟨rfl, hat.2.1, by rw [Loop.timerEvent, hone]; exact Nat.le_succ_of_le hat.2.2⟩

theorem Held.keyboardEvent (h : Held l b) (scan_code : Byte) :
    Held (l.keyboardEvent scan_code) (b.key scan_code.toNat) := by
  obtain ⟨active, free, hshows⟩ := h.shows
  refine ⟨⟨active, free, hshows.counted.of_keys _, hshows.nodes, hshows.letters, hshows.hit,
    hshows.miss, ?_⟩, ⟨h.lively.framed, h.lively.paced, h.lively.spaced⟩, h.tick_lt, h.now_le,
    h.frames, h.at_pc⟩
  rw [Loop.keyboardEvent, pressKey, Board.key, ← hshows.pressed]

end Interrupts

/-! ## Runs -/

section Runs

variable (font8x8_basic : Nat → Nat → Byte) {l : Loop} {b : Board}

/-- Every event keeps the invariant, as long as `tick` can count. -/
theorem step_held (h : Held l b) (e : LoopEvent) (htick : l.tick.toNat + timers [e] < 2 ^ 31) :
    ∃ l' b', step font8x8_basic l e = .ok ((), l') ∧ Held l' b' ∧
      l'.tick.toNat ≤ l.tick.toNat + timers [e] := by
  cases e with
  | timer =>
      have hcount : timers [.timer] = 1 := rfl
      rw [hcount] at htick ⊢
      rw [step]
      by_cases hintr : l.intr = true
      · obtain ⟨htimer, hone⟩ := h.timerEvent hintr htick
        have hsame : l.timerEvent.wake.tick = l.timerEvent.tick := by
          rw [Loop.wake]
          split <;> rfl
        rw [if_pos hintr]
        exact ⟨_, b, rfl, htimer.wake hintr, by rw [hsame, hone]⟩
      · rw [if_neg hintr]
        exact ⟨l, b, rfl, h, Nat.le_succ _⟩
  | key scan_code =>
      rw [step]
      by_cases hintr : l.intr = true
      · have hsame : (l.keyboardEvent scan_code).wake.tick = l.tick := by
          rw [Loop.wake]
          split <;> rfl
        rw [if_pos hintr]
        exact ⟨_, _, rfl, (h.keyboardEvent scan_code).wake hintr, by rw [hsame]; exact Nat.le_add_right _ _⟩
      · rw [if_neg hintr]
        exact ⟨l, b, rfl, h, Nat.le_add_right _ _⟩
  | stmt rand₁ rand₂ rand₃ =>
      obtain ⟨l', b', hrun, hnext⟩ := exec_next font8x8_basic rand₁ rand₂ rand₃ h
      refine ⟨l', b', by rw [step, hrun]; rfl, hnext.held, ?_⟩
      rw [hnext.tick]
      exact Nat.le_add_right _ _

theorem run_cons {l₁ : Loop} {e : LoopEvent} (h : step font8x8_basic l e = .ok ((), l₁))
    (es : List LoopEvent) : run font8x8_basic l (e :: es) = run font8x8_basic l₁ es := by
  rw [run, run, DetSystem.run, h, ok_bind]
  dsimp only
  cases DetSystem.run (step font8x8_basic) l₁ es with
  | error e => rfl
  | ok p => rfl

theorem run_held (es : List LoopEvent) : ∀ {l : Loop} {b : Board}, Held l b →
    l.tick.toNat + timers es < 2 ^ 31 → ∃ l' b', run font8x8_basic l es = .ok l' ∧ Held l' b' ∧
      l'.tick.toNat ≤ l.tick.toNat + timers es := by
  induction es with
  | nil => exact fun {l b} h _ => ⟨l, b, rfl, h, Nat.le_refl _⟩
  | cons e es ih =>
      intro l b h htick
      have hcount : timers (e :: es) = timers [e] + timers es :=
        @List.count_append _ _ _ [e] es
      rw [hcount] at htick ⊢
      obtain ⟨l₁, b₁, hstep, h₁, htick₁⟩ := step_held font8x8_basic h e (by omega)
      obtain ⟨l₂, b₂, hrun, h₂, htick₂⟩ := ih h₁ (by omega)
      exact ⟨l₂, b₂, (run_cons font8x8_basic hstep es).trans hrun, h₂, by omega⟩

/-- What is right about the program between two statements. -/
structure Right (l : Loop) : Prop where
  /-- `now` does not overtake `tick`. -/
  now_le : l.now.toNat ≤ l.tick.toNat
  /-- The letters created so far have been hit or missed, or they are on the screen: at most 14. -/
  letters : ∃ active, Chain l.game.fly.next l.game.head active ∧ active.length ≤ 14 ∧
    l.game.hit + l.game.miss + active.length = l.due
  /-- The counters, `int`s all of them, stay in range. -/
  counters : l.game.hit < 2 ^ 31 ∧ l.game.miss < 2 ^ 31 ∧ l.num_draw ≤ 50 ∧
    0 ≤ l.real_fps ∧ l.real_fps ≤ FPS
  /-- The loop never sleeps with interrupts off. -/
  awake : l.pc = .waitIntr ∨ l.pc = .halted → l.intr = true

theorem moves_le (l : Loop) : l.moves ≤ 450 := by
  rw [moves]
  split
  · omega
  · omega
  · omega
  · omega
  · split <;> omega

theorem drawn_le (now : Nat) : drawn now ≤ 50 := by
  rw [drawn]
  split <;> omega

theorem Frames.num_draw_le (h : l.Frames) : l.num_draw ≤ 50 := by
  have hdrawn := drawn_le l.now.toNat
  have hdraws := h.2
  split at hdraws
  · omega
  · omega
  · exact Nat.le_trans hdraws.1 hdrawn
  · omega

theorem due_lt (l : Loop) (hnow : l.now.toNat < 2 ^ 31) : l.due < 2 ^ 31 := by
  rw [due]
  split <;> omega

theorem Held.right (h : Held l b) : l.Right where
  now_le := h.now_le
  letters := by
    obtain ⟨active, free, hshows⟩ := h.shows
    refine ⟨active, hshows.counted.shape.linked.chain, ?_, hshows.counted.count⟩
    rw [← length_views l.game active, hshows.letters]
    exact h.lively.few l.moves_le
  counters := by
    obtain ⟨active, free, hshows⟩ := h.shows
    have hcount := hshows.counted.count
    have hdue := l.due_lt (Nat.lt_of_le_of_lt h.now_le h.tick_lt)
    exact ⟨by omega, by omega, h.frames.num_draw_le, h.frames.1⟩
  awake := by
    intro hpc
    have hat := h.at_pc
    rw [At] at hat
    rcases hpc with hpc | hpc
    · rw [hpc] at hat
      exact hat
    · rw [hpc] at hat
      exact hat

/-- **The main loop is safe.** Whatever interrupts come and wherever they come, fewer than
    `2 ^ 31` of them ticks, no assertion fails, no counter overflows and the pool does not run
    out. -/
theorem main_loop_safe (es : List LoopEvent) (hes : timers es < 2 ^ 31) :
    ∃ l, run font8x8_basic start es = .ok l ∧ l.Right := by
  obtain ⟨l, b, hrun, h, -⟩ := run_held font8x8_basic es start_held (by
    rw [show start.tick.toNat = 0 from rfl]
    omega)
  exact ⟨l, hrun, h.right⟩

/-- A tick, a key and the statements up to the first look at the keys. -/
theorem main_loop_safe_key :
    ∃ l, run (fun _ _ => 0) start
      [.stmt 0 0 0, .timer, .key 30, .stmt 0 0 0, .stmt 0 0 0, .stmt 0 0 0, .stmt 0 0 0, .stmt 0 0 0]
        = .ok l ∧ l.Right :=
  main_loop_safe _ _ (by decide)

/-- Statements without an interrupt, with the values of `rand` for each of them. -/
def alone (rands : Nat → Nat × Nat × Nat) (k : Nat) : List LoopEvent :=
  (List.range k).map fun i => .stmt (rands i).1 (rands i).2.1 (rands i).2.2

/-- Left alone, the loop falls asleep; if it had taken on every tick, it has dealt with them. -/
theorem settles (current : Prop) (h : Held l b) (hcur : current → l.Current)
    (rands : Nat → Nat × Nat × Nat) :
    ∃ k l', run font8x8_basic l (alone rands k) = .ok l' ∧ l'.pc = .halted ∧ l'.intr = true ∧
      l'.tick = l.tick ∧ (current → l'.now = l'.tick) ∧ l'.Right := by
  let inv : Nat → Loop → Prop := fun n l' =>
    ∃ b', Held l' b' ∧ l'.work b' = n ∧ l'.tick = l.tick ∧ (current → l'.Current)
  let ok : LoopEvent → Prop := fun e => ∃ r₁ r₂ r₃, e = .stmt r₁ r₂ r₃
  have hstep : ∀ n (s : Loop) e, inv n s → ¬s.pc = .halted → ok e →
      ∃ o s' m, step font8x8_basic s e = .ok (o, s') ∧ m < n ∧ inv m s' := by
    rintro n s e ⟨b', hheld, rfl, htick, hcur'⟩ hrest ⟨r₁, r₂, r₃, rfl⟩
    obtain ⟨s', b'', hrun, hnext⟩ := exec_next font8x8_basic r₁ r₂ r₃ hheld
    exact ⟨(), s', _, by rw [step, hrun]; rfl, hnext.work.resolve_left hrest, b'', hnext.held, rfl,
      hnext.tick.trans htick, fun hc => hnext.current (hcur' hc)⟩
  obtain ⟨k, os, l', hrun, hpc, m, b', hheld, -, htick, hcur'⟩ :=
    DetSystem.run_settles hstep _ l (fun i => .stmt (rands i).1 (rands i).2.1 (rands i).2.2)
      ⟨b, h, rfl, rfl, hcur⟩ (fun j => ⟨_, _, _, rfl⟩)
  refine ⟨k, l', by rw [run, alone, hrun]; rfl, hpc, hheld.right.awake (.inr hpc), htick, fun hc => ?_,
    hheld.right⟩
  have hnow := hcur' hc
  rw [Current, hpc] at hnow
  exact hnow

/-- **The main loop catches up.** After fewer than `2 ^ 31 - 1` ticks, wherever interrupts stop
    coming, the loop is asleep again after finitely many statements, with interrupts on. And where
    a tick wakes it, it has dealt with all ticks so far, each of them once, when it is asleep
    again. A tick between `now == tick` and the `hlt` does not wake it: it waits for the next. -/
theorem main_loop_catches_up (es : List LoopEvent) (hes : timers es + 1 < 2 ^ 31)
    (rands : Nat → Nat × Nat × Nat) :
    ∃ l, run font8x8_basic start es = .ok l ∧
      (∃ k l', run font8x8_basic l (alone rands k) = .ok l' ∧ l'.pc = .halted ∧ l'.intr = true) ∧
      (l.pc = .halted →
        ∃ k l', run font8x8_basic l (.timer :: alone rands k) = .ok l' ∧ l'.pc = .halted ∧
          l'.now = l'.tick ∧ l'.tick = l.tick + 1 ∧ l'.Right) := by
  obtain ⟨l, b, hrun, h, htick⟩ := run_held font8x8_basic es start_held (by
    rw [show start.tick.toNat = 0 from rfl]
    omega)
  rw [show start.tick.toNat = 0 from rfl] at htick
  refine ⟨l, hrun, ?_, fun hpc => ?_⟩
  · obtain ⟨k, l', hrun', hpc', hintr', -⟩ := settles font8x8_basic False h nofun rands
    exact ⟨k, l', hrun', hpc', hintr'⟩
  · have hintr := h.right.awake (.inr hpc)
    obtain ⟨htimer, -⟩ := h.timerEvent hintr (by omega)
    have hwake : l.timerEvent.wake = { l.timerEvent with pc := .cli } := if_pos hpc
    have hwoken := htimer.wake hintr
    rw [hwake] at hwoken
    obtain ⟨k, l', hrun', hpc', -, htick', hnow, hright⟩ :=
      settles font8x8_basic True hwoken (fun _ => trivial) rands
    have hstep : step font8x8_basic l .timer = .ok ((), { l.timerEvent with pc := .cli }) := by
      rw [step, if_pos hintr, hwake]
    exact ⟨k, l', (run_cons font8x8_basic hstep _).trans hrun', hpc', hnow trivial, htick', hright⟩

/-- From the start, with a tick on the way. -/
theorem main_loop_catches_up_start :
    ∃ l, run (fun _ _ => 0) start [.stmt 0 0 0, .timer] = .ok l ∧
      (∃ k l', run (fun _ _ => 0) l (alone (fun _ => (0, 0, 0)) k) = .ok l' ∧ l'.pc = .halted ∧
        l'.intr = true) ∧
      (l.pc = .halted →
        ∃ k l', run (fun _ _ => 0) l (.timer :: alone (fun _ => (0, 0, 0)) k) = .ok l' ∧
          l'.pc = .halted ∧ l'.now = l'.tick ∧ l'.tick = l.tick + 1 ∧ l'.Right) :=
  main_loop_catches_up _ _ (by decide) _

end Runs

end Loop

end Typing

end Nemu
