/-
  Nemu.Lib.Interlaced

  Passes over the places below `size` at a stride: every pass takes the places of one residue,
  and a round takes the residues in some order.  `staged` is what a place has after it has
  been changed a number of times; a place is ahead of the others from its turn in a round to
  the end of the round.
-/

import Mathlib.Data.List.Basic
import Mathlib.Logic.Function.Basic

namespace Interlaced

variable {α : Type _} {m size : Nat}

/-- The places from `k` on, every `m`th. -/
def pass (m size : Nat) (f : Nat → α → α) : Nat → Nat → (Nat → α) → (Nat → α)
  | 0, _, t => t
  | n + 1, k, t =>
      if k < size then pass m size f n (k + m) (Function.update t k (f k (t k))) else t

/-- A place of the residue is changed once. -/
theorem pass_eq (hm : 0 < m) {f : Nat → α → α} {n : Nat} :
    ∀ {k : Nat} {t : Nat → α}, size ≤ k + n → ∀ p,
      pass m size f n k t p =
        if k ≤ p ∧ p < size ∧ p % m = k % m then f p (t p) else t p := by
  induction n with
  | zero => exact fun hn p => (if_neg (by omega)).symm
  | succ n ih =>
      intro k t hn p
      rw [pass]
      by_cases hk : k < size
      · rw [if_pos hk, ih (by omega), Nat.add_mod_right]
        by_cases hpk : p = k
        · subst hpk
          rw [if_neg (by omega), if_pos ⟨Nat.le_refl p, hk, rfl⟩, Function.update_self]
        · rw [Function.update_of_ne hpk]
          refine if_congr ⟨fun h => ⟨by omega, h.2⟩, fun h => ⟨?_, h.2⟩⟩ rfl rfl
          -- the next place of the residue is a stride on
          have hp := Nat.div_add_mod p m
          have hk' := Nat.div_add_mod k m
          have hlt : k / m < p / m := by
            by_contra hle
            have hmul := Nat.mul_le_mul_left m (Nat.le_of_not_lt hle)
            omega
          have hmul : m * (k / m) + m ≤ m * (p / m) := Nat.mul_le_mul_left m hlt
          omega
      · rw [if_neg hk, if_neg (by omega)]

/-- The passes of a round, with the state after each. -/
def round (m size : Nat) (f : Nat → α → α) : List Nat → (Nat → α) → List (Nat → α) × (Nat → α)
  | [], t => ([], t)
  | r :: rs, t =>
      let t := pass m size f size r t
      let (ts, t') := round m size f rs t
      (t :: ts, t')

/-- `n` rounds from round `i` on. -/
def rounds (m size : Nat) (f : Nat → Nat → α → α) (rs : List Nat) :
    Nat → Nat → (Nat → α) → List (Nat → α) × (Nat → α)
  | 0, _, t => ([], t)
  | n + 1, i, t =>
      let (ts, t) := round m size (f i) rs t
      let (ts', t') := rounds m size f rs n (i + 1) t
      (ts ++ ts', t')

/-- What `round` leaves, `done` of the residues having been taken. -/
def partly (m size : Nat) (f : Nat → α → α) (done : List Nat) (t : Nat → α) : Nat → α := fun p =>
  if p < size ∧ p % m ∈ done then f p (t p) else t p

theorem round_eq (hm : 0 < m) {f : Nat → α → α} {t : Nat → α} (rs : List Nat) :
    ∀ done : List Nat, (done ++ rs).Nodup → (∀ r ∈ rs, r < m) →
      round m size f rs (partly m size f done t) =
        ((List.range rs.length).map fun j => partly m size f (done ++ rs.take (j + 1)) t,
          partly m size f (done ++ rs) t) := by
  induction rs with
  | nil => exact fun done _ _ => by rw [List.append_nil]; rfl
  | cons r rs ih =>
      intro done hnodup hlt
      have hr : r < m := hlt r (List.mem_cons_self ..)
      have hnot : r ∉ done := fun hmem =>
        (List.nodup_append.mp hnodup).2.2 r hmem r (List.mem_cons_self ..) rfl
      have hpass : pass m size f size r (partly m size f done t) = partly m size f (done ++ [r]) t := by
        funext p
        rw [pass_eq hm (Nat.le_add_left _ _), Nat.mod_eq_of_lt hr]
        by_cases hp : p < size ∧ p % m = r
        · have hle : r ≤ p := hp.2 ▸ Nat.mod_le p m
          rw [if_pos ⟨hle, hp⟩, partly, partly, if_neg fun h => hnot (hp.2 ▸ h.2),
            if_pos ⟨hp.1, by rw [hp.2]; simp⟩]
        · rw [if_neg fun h => hp h.2, partly, partly]
          refine if_congr (and_congr_right fun hsize => ?_) rfl rfl
          rw [List.mem_append, List.mem_singleton, or_iff_left fun h => hp ⟨hsize, h⟩]
      have hsplit : ∀ l, done ++ [r] ++ l = done ++ r :: l := fun l => by
        rw [List.append_assoc, List.singleton_append]
      have hrest := ih (done ++ [r]) (by rwa [hsplit]) fun r' hr' => hlt r' (List.mem_cons_of_mem _ hr')
      simp only [round, hpass, hrest, hsplit, List.length_cons, List.range_succ_eq_map, List.map_cons,
        List.map_map, List.take_succ_cons, List.take_zero, Function.comp_def]

/-- A place after it has been changed in the first `i` rounds. -/
def staged (f : Nat → Nat → α → α) (t : Nat → α) : Nat → Nat → α
  | 0, p => t p
  | i + 1, p => f i p (staged f t i p)

/-- The state after pass `j` of round `i`. -/
def frame (m size : Nat) (f : Nat → Nat → α → α) (rs : List Nat) (t : Nat → α) (i j : Nat) : Nat → α :=
  fun p =>
    if size ≤ p then t p
    else if p % m ∈ rs.take (j + 1) then staged f t (i + 1) p else staged f t i p

/-- Rounds that take every residue once. -/
theorem rounds_eq (hm : 0 < m) {f : Nat → Nat → α → α} {rs : List Nat} {t : Nat → α}
    (hnodup : rs.Nodup) (hlt : ∀ r ∈ rs, r < m) (hall : ∀ r, r < m → r ∈ rs) (n : Nat) :
    ∀ i, rounds m size f rs n i (fun p => if size ≤ p then t p else staged f t i p) =
      ((List.range' i n).flatMap fun i => (List.range rs.length).map (frame m size f rs t i),
        fun p => if size ≤ p then t p else staged f t (i + n) p) := by
  induction n with
  | zero => exact fun i => rfl
  | succ n ih =>
      intro i
      obtain ⟨tᵢ, htᵢ⟩ : ∃ tᵢ, tᵢ = fun p => if size ≤ p then t p else staged f t i p := ⟨_, rfl⟩
      have hround := @round_eq α m size hm (f i) tᵢ rs [] hnodup hlt
      have hstart : partly m size (f i) [] tᵢ = tᵢ := by
        funext p
        exact if_neg fun h => List.not_mem_nil h.2
      have hpartly : ∀ done p, partly m size (f i) done tᵢ p =
          if size ≤ p then t p
          else if p % m ∈ done then staged f t (i + 1) p else staged f t i p := by
        intro done p
        rw [partly, htᵢ]
        dsimp only
        by_cases hp : size ≤ p
        · rw [if_neg (by omega), if_pos hp, if_pos hp]
        · rw [if_neg hp, if_neg hp]
          exact if_congr (and_iff_right (Nat.lt_of_not_le hp)) rfl rfl
      have hend : partly m size (f i) rs tᵢ = fun p => if size ≤ p then t p else staged f t (i + 1) p := by
        funext p
        rw [hpartly, if_pos (hall _ (Nat.mod_lt p hm))]
      have hframes : (fun j => partly m size (f i) (rs.take (j + 1)) tᵢ) = frame m size f rs t i := by
        funext j p
        exact hpartly _ p
      rw [hstart, List.nil_append, hend] at hround
      simp only [List.nil_append, hframes] at hround
      rw [← htᵢ, rounds, hround]
      simp only [ih, List.range'_succ, List.flatMap_cons, Nat.add_assoc, Nat.add_comm 1 n]

end Interlaced
