/-
  Nemu.Lib.MultiLimb

  Carries, borrows and multi-limb addition and subtraction over words of any
  width `n`.

  A number is a list of `n`-bit limbs, lowest first, and `value` is what it
  stands for.  The first half relates the comparison a program makes on a
  wrapped sum or difference to the carry it wants to know; the second half adds
  and subtracts limb by limb and says what the limbs, the carry and the signed
  overflow of the whole result are.  `Ripple` is the shape the two share: an
  operation on one limb whose flag goes into the next.
-/

import Mathlib.Tactic.Ring
import Mathlib.Data.Nat.Bitwise

namespace MultiLimb

variable {n : Nat}

/-! ## One limb -/

/-- `a + b + c` in `n` bits. -/
def addc (a b : BitVec n) (c : Bool) : BitVec n := a + b + (BitVec.ofBool c).setWidth n

/-- The carry out of `a + b + c`. -/
def carryOut (a b : BitVec n) (c : Bool) : Bool := decide (2 ^ n ≤ a.toNat + b.toNat + c.toNat)

theorem toNat_addc_mod (hn : 0 < n) (a b : BitVec n) (c : Bool) :
    (addc a b c).toNat = (a.toNat + b.toNat + c.toNat) % 2 ^ n := by
  have hc : c.toNat < 2 ^ n := by
    have h1 : 2 ^ 1 ≤ 2 ^ n := Nat.pow_le_pow_right (by decide) hn
    have h2 : c.toNat ≤ 1 := Bool.toNat_le c
    omega
  rw [addc, BitVec.toNat_add, BitVec.toNat_add, BitVec.toNat_setWidth, BitVec.toNat_ofBool,
    Nat.mod_eq_of_lt hc, Nat.mod_add_mod]

/-- The limb and its carry together lose nothing. -/
theorem toNat_addc (hn : 0 < n) (a b : BitVec n) (c : Bool) :
    (addc a b c).toNat + 2 ^ n * (carryOut a b c).toNat = a.toNat + b.toNat + c.toNat := by
  have ha := a.isLt
  have hb := b.isLt
  have hc : c.toNat ≤ 1 := Bool.toNat_le c
  rw [toNat_addc_mod hn, carryOut]
  by_cases h : 2 ^ n ≤ a.toNat + b.toNat + c.toNat
  · -- one wrap: the sum is below `2 * 2 ^ n`
    rw [Nat.mod_eq_sub_mod h, Nat.mod_eq_of_lt (by omega), decide_eq_true h, Bool.toNat_true]
    omega
  · rw [Nat.mod_eq_of_lt (by omega), decide_eq_false h, Bool.toNat_false]
    omega

theorem addc_false (a b : BitVec n) : addc a b false = a + b := by
  simp [addc]

@[simp] theorem carryOut_zero (a : BitVec n) : carryOut a 0 false = false := by
  have ha := a.isLt
  have hzero : (0 : BitVec n).toNat = 0 := by simp
  rw [carryOut, decide_eq_false_iff_not, hzero, Bool.toNat_false]
  omega

/-- Comparing the wrapped sum with the first summand finds the carry, except
    where the second summand and the carry-in wrap by themselves. -/
theorem addc_lt_iff (hn : 0 < n) (a b : BitVec n) (c : Bool) :
    addc a b c < a ↔ carryOut a b c = true ∧ ¬ (b = BitVec.allOnes n ∧ c = true) := by
  have ha := a.isLt
  have hb := b.isLt
  have hc : c.toNat ≤ 1 := Bool.toNat_le c
  have hsum := toNat_addc hn a b c
  have hall : b = BitVec.allOnes n ↔ b.toNat + 1 = 2 ^ n := by
    rw [← BitVec.toNat_inj, BitVec.toNat_allOnes]
    omega
  have hct : c = true ↔ c.toNat = 1 := by cases c <;> simp
  rw [BitVec.lt_def, hall, hct]
  cases hco : carryOut a b c with
  | false =>
      rw [hco, Bool.toNat_false, Nat.mul_zero] at hsum
      simp only [Bool.false_eq_true, false_and, iff_false]
      omega
  | true =>
      rw [hco, Bool.toNat_true, Nat.mul_one] at hsum
      simp only [true_and]
      omega

/-- So the comparison is the carry, with that one exception. -/
theorem addc_lt_eq_carry_iff (hn : 0 < n) (a b : BitVec n) (c : Bool) :
    decide (addc a b c < a) = carryOut a b c ↔ ¬ (b = BitVec.allOnes n ∧ c = true) := by
  have hlt := addc_lt_iff hn a b c
  by_cases hones : b = BitVec.allOnes n ∧ c = true
  · -- all ones and a carry wrap to zero: the carry comes out, the sum is `a` again
    have hcarry : carryOut a b c = true := by
      obtain ⟨rfl, rfl⟩ := hones
      have hpos : 0 < 2 ^ n := Nat.two_pow_pos n
      rw [carryOut, decide_eq_true_eq, BitVec.toNat_allOnes, Bool.toNat_true]
      omega
    rw [Bool.eq_iff_iff, decide_eq_true_eq, hlt]
    exact iff_of_false (fun h => (h.mpr hcarry).2 hones) (not_not_intro hones)
  · rw [Bool.eq_iff_iff, decide_eq_true_eq, hlt]
    simp [hones]

/-- Another carry-in gives another limb. -/
theorem addc_inj (hn : 0 < n) (a b : BitVec n) (c c' : Bool) :
    addc a b c = addc a b c' ↔ c = c' := by
  apply Iff.intro
  · intro h
    have hcarry := congrArg BitVec.toNat (BitVec.add_right_inj (a + b) |>.mp h)
    have hpow : 2 ≤ 2 ^ n := Nat.pow_le_pow_right (by decide : 0 < 2) hn
    have h1 : c.toNat ≤ 1 := Bool.toNat_le c
    have h2 : c'.toNat ≤ 1 := Bool.toNat_le c'
    rw [BitVec.toNat_setWidth, BitVec.toNat_setWidth, BitVec.toNat_ofBool, BitVec.toNat_ofBool,
      Nat.mod_eq_of_lt (by omega), Nat.mod_eq_of_lt (by omega)] at hcarry
    cases c <;> cases c' <;> simp at hcarry <;> rfl
  · rintro rfl
    rfl

/-- The opposite comparison is right about the carry of `a + b` only when nothing
    is added. -/
theorem lt_add_eq_carry_iff (hn : 0 < n) (a b : BitVec n) :
    decide (a < a + b) = carryOut a b false ↔ b = 0 := by
  have ha := a.isLt
  have hb := b.isLt
  have hsum := toNat_addc hn a b false
  rw [addc_false, Bool.toNat_false, Nat.add_zero] at hsum
  have hzero : b = 0 ↔ b.toNat = 0 := by
    rw [← BitVec.toNat_inj]
    simp
  rw [hzero]
  cases hco : carryOut a b false with
  | false =>
      rw [hco, Bool.toNat_false, Nat.mul_zero] at hsum
      rw [decide_eq_false_iff_not, BitVec.lt_def]
      omega
  | true =>
      rw [hco, Bool.toNat_true, Nat.mul_one] at hsum
      rw [decide_eq_true_eq, BitVec.lt_def]
      omega

/-- `a - (b + c)` in `n` bits. -/
def subb (a b : BitVec n) (c : Bool) : BitVec n := a - (b + (BitVec.ofBool c).setWidth n)

/-- The borrow out of `a - b - c`. -/
def borrowOut (a b : BitVec n) (c : Bool) : Bool := decide (a.toNat < b.toNat + c.toNat)

theorem subb_false (a b : BitVec n) : subb a b false = a - b := by
  simp [subb]

/-- The limb and its borrow together lose nothing: `subb` undoes `addc`. -/
theorem toNat_subb (hn : 0 < n) (a b : BitVec n) (c : Bool) :
    (subb a b c).toNat + b.toNat + c.toNat = a.toNat + 2 ^ n * (borrowOut a b c).toNat := by
  have hundo : addc (subb a b c) b c = a := by
    rw [subb, addc, BitVec.add_assoc, BitVec.sub_add_cancel]
  have hsum := toNat_addc hn (subb a b c) b c
  rw [hundo] at hsum
  have ha := a.isLt
  have hlt := (subb a b c).isLt
  -- the carry of the sum back is the borrow
  have hflag : carryOut (subb a b c) b c = borrowOut a b c := by
    rw [Bool.eq_iff_iff, carryOut, borrowOut, decide_eq_true_eq, decide_eq_true_eq]
    apply Iff.intro
    · intro h
      rw [carryOut, decide_eq_true h, Bool.toNat_true] at hsum
      omega
    · intro h
      by_contra hno
      rw [carryOut, decide_eq_false hno, Bool.toNat_false] at hsum
      omega
  rw [← hsum, hflag]

/-- Another borrow-in gives another limb. -/
theorem subb_inj (hn : 0 < n) (a b : BitVec n) (c c' : Bool) :
    subb a b c = subb a b c' ↔ c = c' := by
  apply Iff.intro
  · intro h
    rw [subb, subb, BitVec.sub_eq_add_neg, BitVec.sub_eq_add_neg, BitVec.add_right_inj,
      BitVec.neg_inj] at h
    apply (addc_inj hn 0#n b c c').mp
    rw [addc, addc, BitVec.zero_add, h]
  · rintro rfl
    rfl

/-- Comparing a wrapped difference for having become smaller says that there is a
    borrow only about nothing being subtracted. -/
theorem subb_lt_eq_borrow_iff (hn : 0 < n) (a b : BitVec n) (c : Bool) :
    decide (subb a b c < a) = borrowOut a b c ↔ b = 0 ∧ c = false := by
  have ha := a.isLt
  have hb := b.isLt
  have hc : c.toNat ≤ 1 := Bool.toNat_le c
  have hdiff := toNat_subb hn a b c
  have hzero : b = 0 ↔ b.toNat = 0 := by
    rw [← BitVec.toNat_inj]
    simp
  have hct : c = false ↔ c.toNat = 0 := by cases c <;> simp
  rw [hzero, hct]
  cases hbo : borrowOut a b c with
  | false =>
      rw [hbo, Bool.toNat_false, Nat.mul_zero] at hdiff
      rw [decide_eq_false_iff_not, BitVec.lt_def]
      omega
  | true =>
      rw [hbo, Bool.toNat_true, Nat.mul_one] at hdiff
      rw [borrowOut, decide_eq_true_eq] at hbo
      rw [decide_eq_true_eq, BitVec.lt_def]
      omega

@[simp] theorem borrowOut_zero (a : BitVec n) : borrowOut a 0 false = false := by
  have hzero : (0 : BitVec n).toNat = 0 := by simp
  rw [borrowOut, decide_eq_false_iff_not, hzero, Bool.toNat_false]
  omega

/-- A wrapped difference exceeds the minuend exactly on a borrow. -/
theorem lt_sub_iff (a b : BitVec n) : a < a - b ↔ a < b := by
  have ha := a.isLt
  have hb := b.isLt
  rw [BitVec.lt_def, BitVec.lt_def, BitVec.toNat_sub]
  by_cases h : b.toNat ≤ a.toNat
  · have hsplit : 2 ^ n - b.toNat + a.toNat = 2 ^ n + (a.toNat - b.toNat) := by omega
    rw [hsplit, Nat.add_mod_left, Nat.mod_eq_of_lt (by omega)]
    omega
  · rw [Nat.mod_eq_of_lt (by omega)]
    omega

/-- The signed comparison from the sign and the overflow of the difference. -/
theorem slt_eq_sub_flags (a b : BitVec n) :
    a.slt b = ((a - b).msb != ((a.msb ^^ b.msb) && (a.msb ^^ (a - b).msb))) := by
  have ha := a.isLt
  have hb := b.isLt
  have hult : a.ult b = decide (a.toNat < b.toNat) := rfl
  have hsub : (a - b).toNat = if b.toNat ≤ a.toNat then a.toNat - b.toNat
      else 2 ^ n + a.toNat - b.toNat := by
    rw [BitVec.toNat_sub]
    split
    · have hsplit : 2 ^ n - b.toNat + a.toNat = 2 ^ n + (a.toNat - b.toNat) := by omega
      rw [hsplit, Nat.add_mod_left, Nat.mod_eq_of_lt (by omega)]
    · rw [Nat.mod_eq_of_lt (by omega)]
      omega
  rw [BitVec.slt_eq_ult, hult]
  cases n with
  | zero =>
      have h0 : a = b := Subsingleton.elim a b
      subst h0
      simp [BitVec.of_length_zero]
  | succ m =>
      have hpow : 2 ^ (m + 1) = 2 * 2 ^ m := by rw [Nat.pow_succ]; omega
      simp only [BitVec.msb_eq_decide, Nat.add_sub_cancel]
      generalize (a - b).toNat = r at hsub
      -- the three sign bits and the borrow decide both sides
      by_cases h1 : 2 ^ m ≤ a.toNat <;> by_cases h2 : 2 ^ m ≤ b.toNat <;>
        by_cases h3 : b.toNat ≤ a.toNat <;> simp only [h3, ↓reduceIte] at hsub <;>
        by_cases h4 : 2 ^ m ≤ r <;> simp [h1, h2, h4] <;> omega

/-! ## Numbers -/

/-- The number a limb list stands for. -/
def value : List (BitVec n) → Nat
  | [] => 0
  | x :: xs => x.toNat + 2 ^ n * value xs

/-- The sign bit of a limb list: the top bit of its last limb. -/
def topBit : List (BitVec n) → Bool
  | [] => false
  | [x] => x.msb
  | _ :: y :: ys => topBit (y :: ys)

@[simp] theorem value_nil : value ([] : List (BitVec n)) = 0 := rfl

@[simp] theorem value_cons (x : BitVec n) (xs : List (BitVec n)) :
    value (x :: xs) = x.toNat + 2 ^ n * value xs := rfl

theorem pow_succ_length (n k : Nat) : 2 ^ (n * (k + 1)) = 2 ^ n * 2 ^ (n * k) := by
  rw [Nat.mul_succ, Nat.pow_add, Nat.mul_comm]

theorem value_lt (xs : List (BitVec n)) : value xs < 2 ^ (n * xs.length) := by
  induction xs with
  | nil => simp
  | cons x xs ih =>
      rw [value_cons, List.length_cons, pow_succ_length]
      have hx := x.isLt
      have hstep : 2 ^ n * (value xs + 1) ≤ 2 ^ n * 2 ^ (n * xs.length) :=
        Nat.mul_le_mul_left _ ih
      rw [Nat.mul_succ] at hstep
      omega

/-- Limbs are determined by the number: the representation is unique. -/
theorem value_inj : ∀ {xs ys : List (BitVec n)}, xs.length = ys.length →
    value xs = value ys → xs = ys := by
  intro xs
  induction xs with
  | nil =>
      intro ys hlen _
      exact (List.length_eq_zero_iff.mp hlen.symm).symm
  | cons x xs ih =>
      intro ys hlen hval
      cases ys with
      | nil => simp at hlen
      | cons y ys =>
          rw [value_cons, value_cons] at hval
          have hmod : x.toNat = y.toNat := by
            have h := congrArg (· % 2 ^ n) hval
            simpa [Nat.mod_eq_of_lt x.isLt, Nat.mod_eq_of_lt y.isLt] using h
          have hdiv : value xs = value ys := by
            have hpos : 0 < 2 ^ n := Nat.two_pow_pos n
            have h : 2 ^ n * value xs = 2 ^ n * value ys := by omega
            exact Nat.eq_of_mul_eq_mul_left hpos h
          rw [BitVec.eq_of_toNat_eq hmod, ih (by simpa using hlen) hdiv]

/-- The sign bit says whether the number is in the upper half of its range. -/
theorem topBit_iff (hn : 0 < n) : ∀ {xs : List (BitVec n)}, xs ≠ [] →
    (topBit xs = true ↔ 2 ^ (n * xs.length) ≤ 2 * value xs) := by
  intro xs
  induction xs with
  | nil => intro h; exact absurd rfl h
  | cons x xs ih =>
      intro _
      cases xs with
      | nil =>
          have hpow : 2 ^ n = 2 * 2 ^ (n - 1) := by
            rw [← Nat.pow_succ']
            congr 1
            omega
          simp only [topBit, BitVec.msb_eq_decide, decide_eq_true_eq, List.length_singleton,
            Nat.mul_one, value_cons, value_nil, Nat.mul_zero, Nat.add_zero]
          omega
      | cons y ys =>
          have hrest := ih (List.cons_ne_nil y ys)
          rw [topBit, hrest, value_cons x, List.length_cons (a := x), pow_succ_length]
          have heven : ∃ e, 2 ^ (n * (y :: ys).length) = 2 * e := by
            refine ⟨2 ^ (n * (y :: ys).length - 1), ?_⟩
            rw [← Nat.pow_succ']
            congr 1
            have hpos : 0 < n * (y :: ys).length := Nat.mul_pos hn (Nat.succ_pos _)
            omega
          obtain ⟨e, he⟩ := heven
          rw [he]
          generalize value (y :: ys) = v
          have hx := x.isLt
          apply Iff.intro
          · intro h
            have h' : 2 ^ n * e ≤ 2 ^ n * v := Nat.mul_le_mul_left _ (by omega)
            have hc : 2 ^ n * (2 * e) = 2 * (2 ^ n * e) := by ring
            omega
          · intro h
            -- otherwise the number is too small by a whole unit of the upper limbs
            by_contra hlt
            have h' : 2 ^ n * (v + 1) ≤ 2 ^ n * e := Nat.mul_le_mul_left _ (by omega)
            have hc : 2 ^ n * (2 * e) = 2 * (2 ^ n * e) := by ring
            rw [Nat.mul_succ] at h'
            omega

/-! ## One limb after the other -/

/-- What an operation makes of one limb: the limbs `a`, `b` and the flag that comes
    in give a limb and the flag that goes out. -/
structure Ripple (n : Nat) where
  limb : BitVec n → BitVec n → Bool → BitVec n
  flag : BitVec n → BitVec n → Bool → Bool

namespace Ripple

variable (f : Ripple n)

/-- The limbs of a result, the flag rippling upwards. -/
def limbs : Bool → List (BitVec n × BitVec n) → List (BitVec n)
  | _, [] => []
  | c, (a, b) :: l => f.limb a b c :: limbs (f.flag a b c) l

/-- The flag out of the last limb. -/
def last : Bool → List (BitVec n × BitVec n) → Bool
  | c, [] => c
  | c, (a, b) :: l => last (f.flag a b c) l

/-- Another way to find the flag agrees with `f` on every limb of the list. -/
def Agrees (flag : BitVec n → BitVec n → Bool → Bool) : Bool → List (BitVec n × BitVec n) → Prop
  | _, [] => True
  | c, (a, b) :: l => flag a b c = f.flag a b c ∧ Agrees flag (f.flag a b c) l

@[simp] theorem length_limbs (c : Bool) (l : List (BitVec n × BitVec n)) :
    (f.limbs c l).length = l.length := by
  induction l generalizing c with
  | nil => rfl
  | cons p l ih =>
      show (f.limbs (f.flag p.1 p.2 c) l).length + 1 = l.length + 1
      rw [ih]

theorem limbs_ne_nil (c : Bool) {l : List (BitVec n × BitVec n)} (hne : l ≠ []) :
    f.limbs c l ≠ [] := by
  rw [← List.length_pos_iff, length_limbs, List.length_pos_iff]
  exact hne

/-- Where a wrong flag gives a wrong limb, finding the flag another way gives the same
    limbs and the same last flag only if it agrees at every limb. -/
theorem eq_iff_agrees (hinj : ∀ a b c c', f.limb a b c = f.limb a b c' ↔ c = c')
    (flag : BitVec n → BitVec n → Bool → Bool) (c c' : Bool) (l : List (BitVec n × BitVec n)) :
    ((Ripple.mk f.limb flag).limbs c l = f.limbs c' l ∧
        (Ripple.mk f.limb flag).last c l = f.last c' l)
      ↔ (c = c' ∧ f.Agrees flag c' l) := by
  induction l generalizing c c' with
  | nil => simp [limbs, last, Agrees]
  | cons p l ih =>
      obtain ⟨a, b⟩ := p
      simp only [limbs, last, Agrees, List.cons.injEq, hinj, and_assoc, ih]
      apply Iff.intro
      · rintro ⟨rfl, hflag, hrest⟩
        exact ⟨rfl, hflag, hrest⟩
      · rintro ⟨rfl, hflag, hrest⟩
        exact ⟨rfl, hflag, hrest⟩

end Ripple

/-! ## Adding limb by limb -/

/-- Ripple addition. -/
def add : Ripple n := ⟨addc, carryOut⟩

/-- Limbs and carry together are the sum. -/
theorem value_add (hn : 0 < n) (c : Bool) (l : List (BitVec n × BitVec n)) :
    value (add.limbs c l) + 2 ^ (n * l.length) * (add.last c l).toNat
      = value (l.map Prod.fst) + value (l.map Prod.snd) + c.toNat := by
  induction l generalizing c with
  | nil => simp [Ripple.limbs, Ripple.last]
  | cons p l ih =>
      obtain ⟨a, b⟩ := p
      have hhead := toNat_addc hn a b c
      have htail := congrArg (2 ^ n * ·) (ih (carryOut a b c))
      simp only [Nat.mul_add] at htail
      simp only [Ripple.limbs, Ripple.last, add, List.map_cons, value_cons, List.length_cons,
        pow_succ_length, Nat.mul_assoc] at htail ⊢
      omega

/-- The limbs are the sum modulo the size of the number. -/
theorem value_add_mod (hn : 0 < n) (l : List (BitVec n × BitVec n)) :
    value (add.limbs false l)
      = (value (l.map Prod.fst) + value (l.map Prod.snd)) % 2 ^ (n * l.length) := by
  have h := value_add hn false l
  have hlt := value_lt (add.limbs false l)
  rw [Ripple.length_limbs] at hlt
  rw [Bool.toNat_false, Nat.add_zero] at h
  rw [← h, Nat.add_mul_mod_self_left, Nat.mod_eq_of_lt hlt]

/-- The carry is that of the whole sum. -/
theorem last_add (hn : 0 < n) (l : List (BitVec n × BitVec n)) :
    add.last false l
      = decide (2 ^ (n * l.length) ≤ value (l.map Prod.fst) + value (l.map Prod.snd)) := by
  have h := value_add hn false l
  have hlt := value_lt (add.limbs false l)
  rw [Ripple.length_limbs] at hlt
  rw [Bool.toNat_false, Nat.add_zero] at h
  cases hc : add.last false l with
  | false =>
      rw [hc, Bool.toNat_false, Nat.mul_zero] at h
      symm
      rw [decide_eq_false_iff_not]
      omega
  | true =>
      rw [hc, Bool.toNat_true, Nat.mul_one] at h
      symm
      rw [decide_eq_true_eq]
      omega

/-- The sign bit of the number as a bit vector of its full width. -/
theorem msb_ofNat_value (hn : 0 < n) (xs : List (BitVec n)) (hne : xs ≠ []) :
    (BitVec.ofNat (n * xs.length) (value xs)).msb = topBit xs := by
  have hlen : 0 < xs.length := List.length_pos_iff.mpr hne
  have hpow : 2 ^ (n * xs.length) = 2 * 2 ^ (n * xs.length - 1) := by
    rw [← Nat.pow_succ']
    congr 1
    have hpos : 0 < n * xs.length := Nat.mul_pos hn hlen
    omega
  have htop := topBit_iff hn hne
  rw [Bool.eq_iff_iff, htop, BitVec.msb_eq_decide, decide_eq_true_eq, BitVec.toNat_ofNat,
    Nat.mod_eq_of_lt (value_lt xs)]
  omega

/-- The sign-bit test on the top limbs finds the signed overflow of the whole
    addition. -/
theorem saddOverflow_value (hn : 0 < n) {l : List (BitVec n × BitVec n)} (hne : l ≠ []) :
    (BitVec.ofNat (n * l.length) (value (l.map Prod.fst))).saddOverflow
        (BitVec.ofNat (n * l.length) (value (l.map Prod.snd)))
      = (!(topBit (l.map Prod.fst) ^^ topBit (l.map Prod.snd))
          && (topBit (l.map Prod.fst) ^^ topBit (add.limbs false l))) := by
  have hsum : BitVec.ofNat (n * l.length) (value (l.map Prod.fst))
        + BitVec.ofNat (n * l.length) (value (l.map Prod.snd))
      = BitVec.ofNat (n * l.length) (value (add.limbs false l)) := by
    apply BitVec.eq_of_toNat_eq
    rw [value_add_mod hn]
    simp
  have hfst := msb_ofNat_value hn (l.map Prod.fst) (by simpa using hne)
  have hsnd := msb_ofNat_value hn (l.map Prod.snd) (by simpa using hne)
  have hadd := msb_ofNat_value hn (add.limbs false l)
    (by rw [← List.length_pos_iff, Ripple.length_limbs, List.length_pos_iff]; exact hne)
  rw [List.length_map] at hfst hsnd
  rw [Ripple.length_limbs] at hadd
  rw [BitVec.saddOverflow_eq, hsum, hfst, hsnd, hadd]
  cases topBit (l.map Prod.fst) <;> cases topBit (l.map Prod.snd) <;>
    cases topBit (add.limbs false l) <;> rfl

/-! ## Subtracting limb by limb -/

/-- Ripple subtraction. -/
def sub : Ripple n := ⟨subb, borrowOut⟩

/-- Limbs and borrow together are the difference. -/
theorem value_sub (hn : 0 < n) (c : Bool) (l : List (BitVec n × BitVec n)) :
    value (sub.limbs c l) + value (l.map Prod.snd) + c.toNat
      = value (l.map Prod.fst) + 2 ^ (n * l.length) * (sub.last c l).toNat := by
  induction l generalizing c with
  | nil => simp [Ripple.limbs, Ripple.last]
  | cons p l ih =>
      obtain ⟨a, b⟩ := p
      have hhead := toNat_subb hn a b c
      have htail := congrArg (2 ^ n * ·) (ih (borrowOut a b c))
      simp only [Nat.mul_add] at htail
      simp only [Ripple.limbs, Ripple.last, sub, List.map_cons, value_cons, List.length_cons,
        pow_succ_length, Nat.mul_assoc] at htail ⊢
      omega

/-- The borrow is that of the whole difference. -/
theorem last_sub (hn : 0 < n) (l : List (BitVec n × BitVec n)) :
    sub.last false l = decide (value (l.map Prod.fst) < value (l.map Prod.snd)) := by
  have h := value_sub hn false l
  have hfst := value_lt (l.map Prod.fst)
  have hlt := value_lt (sub.limbs false l)
  rw [List.length_map] at hfst
  rw [Ripple.length_limbs] at hlt
  rw [Bool.toNat_false, Nat.add_zero] at h
  cases hb : sub.last false l with
  | false =>
      rw [hb, Bool.toNat_false, Nat.mul_zero] at h
      symm
      rw [decide_eq_false_iff_not]
      omega
  | true =>
      rw [hb, Bool.toNat_true, Nat.mul_one] at h
      symm
      rw [decide_eq_true_eq]
      omega

/-- The limbs are the difference modulo the size of the number. -/
theorem value_sub_mod (hn : 0 < n) (l : List (BitVec n × BitVec n)) :
    (value (sub.limbs false l) : Int)
      = ((value (l.map Prod.fst) : Int) - value (l.map Prod.snd)) % 2 ^ (n * l.length) := by
  have h := value_sub hn false l
  have hlt := value_lt (sub.limbs false l)
  rw [Ripple.length_limbs] at hlt
  rw [Bool.toNat_false, Nat.add_zero] at h
  have hdiff : (value (l.map Prod.fst) : Int) - value (l.map Prod.snd)
      = value (sub.limbs false l) - 2 ^ (n * l.length) * (sub.last false l).toNat := by
    have hcast := congrArg (fun k : Nat => (k : Int)) h
    push_cast at hcast
    omega
  rw [hdiff, Int.sub_mul_emod_self_left, Int.emod_eq_of_lt (Int.natCast_nonneg _)]
  exact_mod_cast hlt

/-- The sign-bit test of a subtraction on the top limbs finds the signed overflow of
    the whole difference. -/
theorem ssubOverflow_value (hn : 0 < n) {l : List (BitVec n × BitVec n)} (hne : l ≠ []) :
    (BitVec.ofNat (n * l.length) (value (l.map Prod.fst))).ssubOverflow
        (BitVec.ofNat (n * l.length) (value (l.map Prod.snd)))
      = ((topBit (l.map Prod.fst) ^^ topBit (l.map Prod.snd))
          && (topBit (l.map Prod.fst) ^^ topBit (sub.limbs false l))) := by
  have hdiff : BitVec.ofNat (n * l.length) (value (l.map Prod.fst))
        - BitVec.ofNat (n * l.length) (value (l.map Prod.snd))
      = BitVec.ofNat (n * l.length) (value (sub.limbs false l)) := by
    have h := congrArg (BitVec.ofNat (n * l.length)) (value_sub hn false l)
    rw [Bool.toNat_false, Nat.add_zero, BitVec.ofNat_add, BitVec.ofNat_add] at h
    have hwrap : BitVec.ofNat (n * l.length) (2 ^ (n * l.length) * (sub.last false l).toNat) = 0#_ := by
      apply BitVec.eq_of_toNat_eq
      rw [BitVec.toNat_ofNat, Nat.mul_mod_right]
      simp
    rw [hwrap, BitVec.add_zero] at h
    rw [← h, BitVec.add_sub_cancel]
  have hfst := msb_ofNat_value hn (l.map Prod.fst) (by simpa using hne)
  have hsnd := msb_ofNat_value hn (l.map Prod.snd) (by simpa using hne)
  have hsub := msb_ofNat_value hn (sub.limbs false l) (sub.limbs_ne_nil false hne)
  rw [List.length_map] at hfst hsnd
  rw [Ripple.length_limbs] at hsub
  rw [BitVec.ssubOverflow_eq, hdiff, hfst, hsnd, hsub]
  cases topBit (l.map Prod.fst) <;> cases topBit (l.map Prod.snd) <;>
    cases topBit (sub.limbs false l) <;> rfl

end MultiLimb
