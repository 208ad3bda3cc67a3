/-
  Nemu.Monitor.Expr.Parens

  What `check_parentheses` decides.

  Its loop only looks for a place where the counts of the two parentheses agree, and its
  entry test asks for one of the two outer parentheses.  The depth moves by at most one
  from token to token, so that a depth which is never zero keeps its sign: with one of
  the outer parentheses there, the other one is there too and the two match.
-/

import Nemu.Monitor.Expr.Eval

namespace Nemu

/-! ## The depth -/

def depthStep (type : TokenType) : Int :=
  if type = .lparen then 1 else if type = .rparen then -1 else 0

/-- The parenthesis depth behind the first `n` tokens from `p` on. -/
def depth (t : TokenTable) (p : Int) : Nat → Int
  | 0 => 0
  | n + 1 => depth t p n + depthStep (t.tokens (p + n)).type

/-- The parentheses at `p` and `q` are there and match: the depth counted from `p` is
    positive at every position from `p` on, until it is zero at `q`. -/
structure Matching (t : TokenTable) (p q : Int) : Prop where
  left : (t.tokens p).type = .lparen
  right : (t.tokens q).type = .rparen
  inside : ∀ a, p ≤ a → a < q → 0 < depth t p (a + 1 - p).toNat
  closed : depth t p (q + 1 - p).toNat = 0

section Depth

variable (t : TokenTable) (p : Int)

theorem depthStep_le (type : TokenType) : depthStep type ≤ 1 := by
  cases type <;> decide

theorem neg_one_le_depthStep (type : TokenType) : -1 ≤ depthStep type := by
  cases type <;> decide

theorem depthStep_eq_one {type : TokenType} : depthStep type = 1 ↔ type = .lparen := by
  cases type <;> decide

theorem depthStep_eq_neg_one {type : TokenType} : depthStep type = -1 ↔ type = .rparen := by
  cases type <;> decide

theorem depth_one : depth t p 1 = depthStep (t.tokens p).type := by
  show 0 + depthStep (t.tokens (p + (0 : Nat))).type = _
  rw [Int.zero_add, Int.natCast_zero, Int.add_zero]

-- the depth counted from one token further on
theorem depth_succ_left (n : Nat) :
    depth t p (n + 1) = depthStep (t.tokens p).type + depth t (p + 1) n := by
  induction n with
  | zero =>
      show depth t p 1 = depthStep (t.tokens p).type + 0
      rw [depth_one, Int.add_zero]
  | succ n ih =>
      have hpos : p + ((n + 1 : Nat) : Int) = p + 1 + n := by omega
      show depth t p (n + 1) + depthStep (t.tokens (p + ((n + 1 : Nat) : Int))).type =
        _ + (depth t (p + 1) n + depthStep (t.tokens (p + 1 + n)).type)
      rw [ih, hpos, Int.add_assoc]

end Depth

/-! ## A walk by steps of at most one -/

/-- A sequence that falls by at most one in each step and avoids zero stays positive. -/
theorem pos_of_no_zero {d : Nat → Int} (hfall : ∀ k, d k - 1 ≤ d (k + 1)) {m n : Nat}
    (hm : 0 < d m) (hne : ∀ k, m ≤ k → k < n → d k ≠ 0) :
    ∀ k, m ≤ k → k < n → 0 < d k := by
  intro k hmk
  induction k, hmk using Nat.le_induction with
  | base => exact fun _ => hm
  | succ k hmk ih =>
      intro hk
      have hpos : 0 < d k := ih (by omega)
      have hnext : d (k + 1) ≠ 0 := hne (k + 1) (by omega) hk
      have hstep : d k - 1 ≤ d (k + 1) := hfall k
      omega

-- the same for a sequence that climbs by at most one
theorem neg_of_no_zero {d : Nat → Int} (hclimb : ∀ k, d (k + 1) ≤ d k + 1) {m n : Nat}
    (hm : d m < 0) (hne : ∀ k, m ≤ k → k < n → d k ≠ 0) :
    ∀ k, m ≤ k → k < n → d k < 0 := by
  have hfall : ∀ k, -d k - 1 ≤ -d (k + 1) := by
    intro k
    have hstep := hclimb k
    omega
  have hpos := pos_of_no_zero (d := fun k => -d k) hfall (Int.neg_pos_of_neg hm)
    (fun k hmk hk hzero => hne k hmk hk (Int.neg_eq_zero.mp hzero))
  exact fun k hmk hk => Int.neg_of_neg_pos (hpos k hmk hk)

section Walk

variable (t : TokenTable) (p : Int)

theorem depth_falls (k : Nat) : depth t p k - 1 ≤ depth t p (k + 1) := by
  have hstep := neg_one_le_depthStep (t.tokens (p + k)).type
  show depth t p k - 1 ≤ depth t p k + depthStep (t.tokens (p + k)).type
  omega

theorem depth_climbs (k : Nat) : depth t p (k + 1) ≤ depth t p k + 1 := by
  have hstep := depthStep_le (t.tokens (p + k)).type
  show depth t p k + depthStep (t.tokens (p + k)).type ≤ depth t p k + 1
  omega

end Walk

/-! ## The loop -/

/-- The loop accepts when the counts first agree at the end. -/
theorem parensLoop_eq_true (t : TokenTable) (n : Nat) : ∀ (a : Int) (j k : Nat),
    parensLoop t n a j k = true ↔
      (∀ m, 0 < m → m < n → (j : Int) - k + depth t a m ≠ 0) ∧ (j : Int) - k + depth t a n = 0 := by
  induction n with
  | zero =>
      intro a j k
      have hend : parensLoop t 0 a j k = true ↔ (j : Int) - k + depth t a 0 = 0 := by
        rw [parensLoop, beq_iff_eq, depth]
        omega
      rw [hend]
      exact ⟨fun h => ⟨fun m _ hm => absurd hm (Nat.not_lt_zero m), h⟩, And.right⟩
  | succ n ih =>
      intro a j k
      rw [parensLoop]
      -- the counts behind this token
      generalize hj : (if (t.tokens a).type = .lparen then j + 1 else j) = j'
      generalize hk : (if (t.tokens a).type = .rparen then k + 1 else k) = k'
      have hcount : (j' : Int) - k' = j - k + depthStep (t.tokens a).type := by
        rw [← hj, ← hk]
        cases (t.tokens a).type <;> simp [depthStep] <;> omega
      have hdepth : ∀ m, (j : Int) - k + depth t a (m + 1) = j' - k' + depth t (a + 1) m := by
        intro m
        rw [depth_succ_left, hcount, Int.add_assoc]
      by_cases hstop : n ≠ 0 ∧ j' = k'
      · -- the counts agree before the end
        rw [if_pos hstop]
        refine iff_of_false Bool.false_ne_true (fun h => ?_)
        have hone := h.1 1 Nat.one_pos (by omega)
        rw [hdepth 0, depth] at hone
        omega
      · rw [if_neg hstop, ih, hdepth]
        refine and_congr_left (fun _ => ?_)
        apply Iff.intro
        · intro h m hm hmn
          obtain ⟨m, rfl⟩ := Nat.exists_eq_add_one_of_ne_zero (by omega : m ≠ 0)
          rw [hdepth]
          rcases Nat.eq_zero_or_pos m with rfl | hm'
          · rw [depth]
            omega
          · exact h m hm' (by omega)
        · intro h m _ hmn
          rw [← hdepth]
          exact h (m + 1) (Nat.succ_pos m) (by omega)

/-- The loop from `p` on, as a statement about the depth. -/
theorem parensLoop_start (t : TokenTable) (p : Int) (n : Nat) :
    parensLoop t n p 0 0 = true ↔
      (∀ m, 0 < m → m < n → depth t p m ≠ 0) ∧ depth t p n = 0 := by
  rw [parensLoop_eq_true]
  simp only [Int.sub_self, Int.zero_add]

/-! ## The function -/

section Outer

variable {t : TokenTable} {p : Int} {n : Nat}

/-- A left parenthesis whose depth is zero only at the end is closed there. -/
theorem depth_pos_of_left (hleft : (t.tokens p).type = .lparen)
    (hne : ∀ m, 0 < m → m < n + 2 → depth t p m ≠ 0) :
    ∀ m, 0 < m → m < n + 2 → 0 < depth t p m := by
  have hfirst : 0 < depth t p 1 := by
    rw [depth_one, depthStep_eq_one.mpr hleft]
    exact Int.one_pos
  exact pos_of_no_zero (depth_falls t p) hfirst hne

theorem right_of_depth (hpos : 0 < depth t p (n + 1)) (hzero : depth t p (n + 2) = 0) :
    (t.tokens (p + ((n + 1 : Nat) : Int))).type = .rparen := by
  have hlow := neg_one_le_depthStep (t.tokens (p + ((n + 1 : Nat) : Int))).type
  have hlast : depth t p (n + 1) + depthStep (t.tokens (p + ((n + 1 : Nat) : Int))).type = 0 :=
    hzero
  exact depthStep_eq_neg_one.mp (by omega)

/-- A right parenthesis that brings the depth back to zero for the first time was opened
    by the first token: otherwise the depth would have been negative all along. -/
theorem left_of_right (hright : (t.tokens (p + ((n + 1 : Nat) : Int))).type = .rparen)
    (hne : ∀ m, 0 < m → m < n + 2 → depth t p m ≠ 0) (hzero : depth t p (n + 2) = 0) :
    (t.tokens p).type = .lparen := by
  have hlast : depth t p (n + 1) + depthStep (t.tokens (p + ((n + 1 : Nat) : Int))).type = 0 :=
    hzero
  rw [depthStep_eq_neg_one.mpr hright] at hlast
  have hfirst : ¬ depth t p 1 < 0 := by
    intro hneg
    have hend := neg_of_no_zero (depth_climbs t p) hneg hne (n + 1) (by omega) (by omega)
    omega
  have hne₁ : depth t p 1 ≠ 0 := hne 1 Nat.one_pos (by omega)
  have hle := depthStep_le (t.tokens p).type
  rw [depth_one] at hfirst hne₁
  exact depthStep_eq_one.mp (by omega)

end Outer

/-- **Outer parentheses.** `check_parentheses` accepts exactly the ranges whose first and
    last token are parentheses that match each other. -/
theorem checkParentheses_iff (t : TokenTable) (p q : Int) (hpq : p < q) :
    checkParentheses t p q = true ↔ Matching t p q := by
  obtain ⟨n, hn⟩ : ∃ n : Nat, (q + 1 - p).toNat = n + 2 :=
    ⟨(q - p - 1).toNat, by omega⟩
  have hq : q = p + ((n + 1 : Nat) : Int) := by omega
  rw [checkParentheses, hn]
  apply Iff.intro
  · intro h
    by_cases houter : (t.tokens p).type = .lparen ∨ (t.tokens q).type = .rparen
    · rw [if_pos houter] at h
      obtain ⟨hne, hzero⟩ := (parensLoop_start t p (n + 2)).mp h
      have hleft : (t.tokens p).type = .lparen := by
        rcases houter with hleft | hright
        · exact hleft
        · exact left_of_right (hq ▸ hright) hne hzero
      have hpos := depth_pos_of_left hleft hne
      refine ⟨hleft, ?_, fun a hpa haq => hpos _ (by omega) (by omega), by rw [hn]; exact hzero⟩
      rw [hq]
      exact right_of_depth (hpos (n + 1) (by omega) (by omega)) hzero
    · rw [if_neg houter] at h
      exact absurd h Bool.false_ne_true
  · intro h
    rw [if_pos (.inl h.left), parensLoop_start]
    refine ⟨fun m hm hmn => ?_, hn ▸ h.closed⟩
    have hinside := h.inside (p + m - 1) (by omega) (by omega)
    have hlen : (p + m - 1 + 1 - p).toNat = m := by omega
    rw [hlen] at hinside
    exact ne_of_gt hinside

-- `(1)`
theorem checkParentheses_iff_one :
    let t : TokenTable := ((TokenTable.zeroed.push .lparen []).push .NUM ['1']).push .rparen []
    checkParentheses t 0 2 = true ↔ Matching t 0 2 := by
  intro t
  exact checkParentheses_iff t 0 2 (by decide)

end Nemu
