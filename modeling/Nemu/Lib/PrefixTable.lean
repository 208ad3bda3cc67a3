/-
  Nemu.Lib.PrefixTable

  A table with a fixed number of places, of which the first ones are used: what a search
  along it finds, and what it is after a change, with one entry more, and after the used
  entries that are to be kept have been moved together.
-/

import Mathlib.Data.List.Basic
import Mathlib.Logic.Function.Basic

namespace PrefixTable

variable {α : Type _} {free : α → Bool} {N : Nat} {t : Nat → α} {l : List α}

/-- The places below `N` hold the entries of `l`, and are free behind them. -/
structure Holds (free : α → Bool) (N : Nat) (t : Nat → α) (l : List α) : Prop where
  fits : l.length ≤ N
  entry : ∀ i (h : i < l.length), t i = l[i]
  used : ∀ x ∈ l, free x = false
  rest : ∀ i, l.length ≤ i → i < N → free (t i) = true

theorem holds_nil (h : ∀ i, i < N → free (t i) = true) : Holds free N t [] :=
  ⟨Nat.zero_le N, fun _ hi => absurd hi (Nat.not_lt_zero _), nofun, fun i _ hi => h i hi⟩

theorem Holds.append (h : Holds free N t l) (hroom : l.length < N) {x : α} (hx : free x = false) :
    Holds free N (Function.update t l.length x) (l ++ [x]) where
  fits := by rwa [List.length_append, List.length_singleton]
  entry := by
    intro i hi
    rw [List.length_append, List.length_singleton] at hi
    rcases Nat.lt_or_eq_of_le (Nat.le_of_lt_succ hi) with hlt | rfl
    · rw [Function.update_of_ne (Nat.ne_of_lt hlt), List.getElem_append_left hlt, h.entry i hlt]
    · rw [Function.update_self, List.getElem_append_right (Nat.le_refl _)]
      simp
  used := by
    intro y hy
    rcases List.mem_append.mp hy with hy | hy
    · exact h.used y hy
    · obtain rfl := List.mem_singleton.mp hy
      exact hx
  rest := by
    intro i hi hN
    rw [List.length_append, List.length_singleton] at hi
    rw [Function.update_of_ne (by omega)]
    exact h.rest i (by omega) hN

theorem Holds.set (h : Holds free N t l) (i : Nat) (hi : i < l.length) {x : α} (hx : free x = false) :
    Holds free N (Function.update t i x) (l.set i x) where
  fits := by rw [List.length_set]; exact h.fits
  entry := by
    intro k hk
    rw [List.length_set] at hk
    rw [List.getElem_set]
    by_cases hik : i = k
    · subst hik
      rw [if_pos rfl, Function.update_self]
    · rw [if_neg hik, Function.update_of_ne (Ne.symm hik), h.entry k hk]
  used := by
    intro y hy
    rcases List.mem_or_eq_of_mem_set hy with hy | rfl
    · exact h.used y hy
    · exact hx
  rest := by
    intro k hk hN
    rw [List.length_set] at hk
    rw [Function.update_of_ne (by omega)]
    exact h.rest k hk hN

/-- A place behind the entries stays free. -/
theorem Holds.setFree (h : Holds free N t l) {i : Nat} (hi : l.length ≤ i) {x : α}
    (hx : i < N → free x = true) : Holds free N (Function.update t i x) l where
  fits := h.fits
  entry := fun k hk => by rw [Function.update_of_ne (by omega)]; exact h.entry k hk
  used := h.used
  rest := by
    intro k hk hN
    by_cases hki : k = i
    · subst hki
      rw [Function.update_self]
      exact hx hN
    · rw [Function.update_of_ne hki]
      exact h.rest k hk hN

/-! ## Searching -/

/-- The first place from `i` on where `stop` holds, or the one behind the `n` places. -/
def scan (stop : α → Bool) (t : Nat → α) : Nat → Nat → Nat
  | 0, i => i
  | n + 1, i => if stop (t i) then i else scan stop t n (i + 1)

variable {stop found : α → Bool}

theorem scan_eq (hfree : ∀ x, free x = true → stop x = true) (r : List α) :
    ∀ (n i : Nat), (∀ k (hk : k < r.length), t (i + k) = r[k]) → (∀ x ∈ r, stop x = found x) →
      r.length ≤ n → (r.length < n → free (t (i + r.length)) = true) →
        scan stop t n i = i + r.findIdx found := by
  induction r with
  | nil =>
      intro n i _ _ _ hrest
      cases n with
      | zero => rfl
      | succ n =>
          have hstop : stop (t i) = true := hfree _ (hrest (Nat.succ_pos n))
          rw [scan, if_pos hstop]
          rfl
  | cons x r ih =>
      intro n i hentry hfound hn hrest
      cases n with
      | zero => exact absurd hn (Nat.not_succ_le_zero _)
      | succ n =>
          have hhead : t i = x := hentry 0 (Nat.succ_pos _)
          rw [scan, hhead, List.findIdx_cons, hfound x (List.mem_cons_self ..)]
          cases hx : found x with
          | true => rfl
          | false =>
              rw [if_neg Bool.false_ne_true, ih n (i + 1)
                (fun k hk => by
                  have h := hentry (k + 1) (Nat.succ_lt_succ hk)
                  rwa [show i + (k + 1) = i + 1 + k by omega] at h)
                (fun y hy => hfound y (List.mem_cons_of_mem _ hy))
                (Nat.le_of_succ_le_succ hn)
                (fun hlt => by
                  have h := hrest (Nat.succ_lt_succ hlt)
                  rwa [List.length_cons, show i + (r.length + 1) = i + 1 + r.length by omega] at h),
                cond_false, Nat.add_right_comm, Nat.add_assoc]

/-- A search that stops at free places finds the first entry that it is for, or the end. -/
theorem Holds.scan (h : Holds free N t l) (hfree : ∀ x, free x = true → stop x = true)
    (hfound : ∀ x, free x = false → stop x = found x) : scan stop t N 0 = l.findIdx found := by
  rw [scan_eq hfree l N 0 (fun k hk => by rw [Nat.zero_add]; exact h.entry k hk)
    (fun x hx => hfound x (h.used x hx)) h.fits
    (fun hlt => by rw [Nat.zero_add]; exact h.rest _ (Nat.le_refl _) hlt), Nat.zero_add]

/-! ## Moving together -/

/-- The entries from `i` on that `keep` holds of, moved to the places from `j` on; with the
    place behind them. -/
def compact (free keep : α → Bool) : Nat → Nat → Nat → (Nat → α) → Nat × (Nat → α)
  | 0, _, j, t => (j, t)
  | n + 1, i, j, t =>
      if free (t i) then (j, t)
      else if keep (t i) then compact free keep n (i + 1) (j + 1) (Function.update t j (t i))
      else compact free keep n (i + 1) j t

/-- `x` at `n` places from `j` on. -/
def fill (x : α) : Nat → Nat → (Nat → α) → (Nat → α)
  | 0, _, t => t
  | n + 1, j, t => fill x n (j + 1) (Function.update t j x)

theorem fill_eq (x : α) (n : Nat) : ∀ (j : Nat) (t : Nat → α) (i : Nat),
    fill x n j t i = if j ≤ i ∧ i < j + n then x else t i := by
  induction n with
  | zero => exact fun j t i => (if_neg (by omega)).symm
  | succ n ih =>
      intro j t i
      rw [fill, ih]
      by_cases hij : i = j
      · subst hij
        rw [if_neg (by omega), Function.update_self, if_pos (by omega)]
      · rw [Function.update_of_ne hij]
        exact if_congr (by omega) rfl rfl

variable {keep : α → Bool}

/-- Entries are moved only to places that have been read already. -/
theorem compact_eq (keep : α → Bool) (r : List α) : ∀ (n i j : Nat) (t : Nat → α), j ≤ i →
    (∀ k (hk : k < r.length), t (i + k) = r[k]) → (∀ x ∈ r, free x = false) → r.length ≤ n →
      (r.length < n → free (t (i + r.length)) = true) →
        ∃ t', compact free keep n i j t = (j + (r.filter keep).length, t') ∧
          (∀ k, k < j → t' k = t k) ∧
            ∀ k (hk : k < (r.filter keep).length), t' (j + k) = (r.filter keep)[k] := by
  induction r with
  | nil =>
      intro n i j t _ _ _ _ hrest
      refine ⟨t, ?_, fun _ _ => rfl, fun k hk => absurd hk (Nat.not_lt_zero k)⟩
      cases n with
      | zero => rfl
      | succ n =>
          have hend : free (t i) = true := hrest (Nat.succ_pos n)
          rw [compact, if_pos hend]
          rfl
  | cons x r ih =>
      intro n i j t hji hentry hused hn hrest
      cases n with
      | zero => exact absurd hn (Nat.not_succ_le_zero _)
      | succ n =>
          have hhead : t i = x := hentry 0 (Nat.succ_pos _)
          have hx : free x = false := hused x (List.mem_cons_self ..)
          have hnext : ∀ k (hk : k < r.length), t (i + 1 + k) = r[k] := fun k hk => by
            have h := hentry (k + 1) (Nat.succ_lt_succ hk)
            rwa [show i + (k + 1) = i + 1 + k by omega] at h
          have hlast : r.length < n → free (t (i + 1 + r.length)) = true := fun hlt => by
            have h := hrest (Nat.succ_lt_succ hlt)
            rwa [List.length_cons, show i + (r.length + 1) = i + 1 + r.length by omega] at h
          have hused' : ∀ y ∈ r, free y = false := fun y hy => hused y (List.mem_cons_of_mem _ hy)
          rw [compact, hhead, hx, if_neg Bool.false_ne_true]
          cases hkeep : keep x with
          | true =>
              -- the place `j` is not one of those still to be read
              obtain ⟨t', hrun, hbefore, hafter⟩ := ih n (i + 1) (j + 1) (Function.update t j x)
                (Nat.succ_le_succ hji)
                (fun k hk => by rw [Function.update_of_ne (by omega)]; exact hnext k hk) hused'
                (Nat.le_of_succ_le_succ hn)
                (fun hlt => by rw [Function.update_of_ne (by omega)]; exact hlast hlt)
              have hfilter : (x :: r).filter keep = x :: r.filter keep := List.filter_cons_of_pos hkeep
              refine ⟨t', ?_, fun k hk => ?_, fun k hk => ?_⟩
              · rw [if_pos rfl, hrun, hfilter, List.length_cons, Nat.add_right_comm, Nat.add_assoc]
              · rw [hbefore k (by omega), Function.update_of_ne (by omega)]
              · simp only [hfilter] at hk ⊢
                cases k with
                | zero =>
                    rw [Nat.add_zero, hbefore j (Nat.lt_succ_self j), Function.update_self]
                    rfl
                | succ k =>
                    rw [show j + (k + 1) = j + 1 + k by omega, hafter k (Nat.lt_of_succ_lt_succ hk)]
                    rfl
          | false =>
              obtain ⟨t', hrun, hbefore, hafter⟩ := ih n (i + 1) j t (Nat.le_succ_of_le hji) hnext hused'
                (Nat.le_of_succ_le_succ hn) hlast
              have hfilter : (x :: r).filter keep = r.filter keep :=
                List.filter_cons_of_neg (by rw [hkeep]; exact Bool.false_ne_true)
              refine ⟨t', ?_, hbefore, fun k hk => ?_⟩
              · rw [if_neg Bool.false_ne_true, hrun, hfilter]
              · simp only [hfilter] at hk ⊢
                exact hafter k hk

/-- What is left of a table when the entries not to be kept are removed from it. -/
theorem Holds.compact (h : Holds free N t l) {x : α} (hx : free x = true) :
    let r := compact free keep N 0 0 t
    Holds free N (fill x (N - r.1) r.1 r.2) (l.filter keep) := by
  obtain ⟨t', hrun, -, hentry⟩ := compact_eq keep l N 0 0 t (Nat.le_refl 0)
    (fun k hk => by rw [Nat.zero_add]; exact h.entry k hk) h.used h.fits
    (fun hlt => by rw [Nat.zero_add]; exact h.rest _ (Nat.le_refl _) hlt)
  have hlen := List.length_filter_le keep l
  have hfits := h.fits
  dsimp only
  rw [hrun, Nat.zero_add]
  dsimp only
  refine ⟨by omega, fun i hi => ?_, fun y hy => h.used y (List.mem_filter.mp hy).1, fun i hi hN => ?_⟩
  · rw [fill_eq, if_neg (by omega)]
    have hi' := hentry i hi
    rwa [Nat.zero_add] at hi'
  · rw [fill_eq, if_pos (by omega)]
    exact hx

end PrefixTable
