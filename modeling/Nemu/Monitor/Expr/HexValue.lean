/-
  Nemu.Monitor.Expr.HexValue

  The value of a `HEX` token.  The digit loop takes every letter for a lower-case one: it
  subtracts 'a', so an upper-case digit counts 32 too little in its place.  What is lost
  at the eighth place and beyond is a multiple of 2^32.
-/

import Mathlib.Tactic.Ring
import Nemu.Monitor.Expr.Grammar

namespace Nemu

open Outcome

/-! ## Digits -/

-- the digits of a token, behind the `0x`
def hexDigits (text : List Char) : List Char := text.drop 2

-- the number that `eval` adds for a digit
def digitInt (c : Char) : Int :=
  if c.toNat < 58 then (c.toNat : Int) - '0'.toNat else (c.toNat : Int) - 'a'.toNat + 10

-- 1 for an upper-case digit, in its place
def upperBit (c : Char) : Nat := if c.isUpper then 1 else 0

/-- The number with a 1 in the place of every upper-case digit. -/
def uppers (ds : List Char) : Nat := ds.foldl (fun n c => 16 * n + upperBit c) 0

-- characters are ordered by their codes
theorem char_le_iff (x y : Char) : x ≤ y ↔ x.toNat ≤ y.toNat := UInt32.le_iff_toNat_le

theorem isHexChar_cases {c : Char} (h : isHexChar c = true) :
    48 ≤ c.toNat ∧ c.toNat ≤ 57 ∨ 97 ≤ c.toNat ∧ c.toNat ≤ 102 ∨ 65 ≤ c.toNat ∧ c.toNat ≤ 70 := by
  simp only [isHexChar, Char.isDigit, Bool.or_eq_true, Bool.and_eq_true, decide_eq_true_eq] at h
  rcases h with (⟨hlo, hhi⟩ | ⟨hlo, hhi⟩) | ⟨hlo, hhi⟩
  · exact Or.inl ⟨UInt32.le_iff_toNat_le.mp hlo, UInt32.le_iff_toNat_le.mp hhi⟩
  · exact Or.inr (Or.inl ⟨(char_le_iff _ _).mp hlo, (char_le_iff _ _).mp hhi⟩)
  · exact Or.inr (Or.inr ⟨(char_le_iff _ _).mp hlo, (char_le_iff _ _).mp hhi⟩)

/-- An upper-case digit counts 32 too little. -/
theorem digitInt_eq {c : Char} (h : isHexChar c = true) :
    digitInt c = hexDigit c - 32 * upperBit c := by
  have hdigit : c.isDigit = true ↔ 48 ≤ c.toNat ∧ c.toNat ≤ 57 := by
    simp only [Char.isDigit, Bool.and_eq_true, decide_eq_true_eq]
    exact and_congr UInt32.le_iff_toNat_le UInt32.le_iff_toNat_le
  have hlower : c.isLower = true ↔ 97 ≤ c.toNat ∧ c.toNat ≤ 122 := by
    show (decide ('a' ≤ c) && decide (c ≤ 'z')) = true ↔ _
    rw [Bool.and_eq_true, decide_eq_true_eq, decide_eq_true_eq]
    exact and_congr (char_le_iff _ _) (char_le_iff _ _)
  have hupper : c.isUpper = true ↔ 65 ≤ c.toNat ∧ c.toNat ≤ 90 := by
    show decide ('A' ≤ c ∧ c ≤ 'Z') = true ↔ _
    rw [decide_eq_true_eq]
    exact and_congr (char_le_iff _ _) (char_le_iff _ _)
  have h0 : '0'.toNat = 48 := rfl
  have ha : 'a'.toNat = 97 := rfl
  have hA : 'A'.toNat = 65 := rfl
  rw [digitInt, hexDigit, upperBit, h0, ha, hA]
  simp only [hdigit, hlower, hupper]
  rcases isHexChar_cases h with hd | hl | hu
  · rw [if_pos (by omega), if_pos hd, if_neg (by omega)]
    omega
  · rw [if_neg (by omega), if_neg (by omega), if_pos (by omega), if_neg (by omega)]
    omega
  · rw [if_neg (by omega), if_neg (by omega), if_neg (by omega), if_pos (by omega)]
    omega

/-! ## The digit loop -/

/-- The number of a text less what its upper-case digits lose. -/
theorem hexInt_eq {text : List Char} (h : ∀ c ∈ hexDigits text, isHexChar c = true) :
    hexInt text = BitVec.ofInt 32
      (hexadecimal (hexDigits text) - 32 * uppers (hexDigits text)) := by
  show (hexDigits text).foldl (fun result c => result * 16 + BitVec.ofInt 32 (digitInt c)) 0 = _
  generalize hexDigits text = ds at h
  induction ds using List.reverseRecOn with
  | nil => rfl
  | append_singleton ds c ih =>
      have hc := digitInt_eq (h c (by simp))
      have hds := ih (fun d hd => h d (List.mem_append_left _ hd))
      have hhex : hexadecimal (ds ++ [c]) = 16 * hexadecimal ds + hexDigit c := by
        rw [hexadecimal, List.foldl_append]
        rfl
      have hupper : uppers (ds ++ [c]) = 16 * uppers ds + upperBit c := by
        rw [uppers, List.foldl_append]
        rfl
      have h16 : (16 : BitVec 32) = BitVec.ofInt 32 16 := rfl
      rw [List.foldl_append, hds, hhex, hupper, List.foldl_cons, List.foldl_nil, hc, h16,
        ← BitVec.ofInt_mul, ← BitVec.ofInt_add]
      congr 1
      push_cast
      ring

/-- Digit for digit: a multiple of `8 * 16 ^ k` has no digit 1 up to place `k`. -/
theorem uppers_mod (ds : List Char) (k : Nat) :
    uppers ds % (8 * 16 ^ k) = 0 ↔ ∀ c ∈ ds.reverse.take (k + 1), c.isUpper = false := by
  induction ds using List.reverseRecOn generalizing k with
  | nil => simp [uppers]
  | append_singleton ds c ih =>
      have hupper : uppers (ds ++ [c]) = 16 * uppers ds + upperBit c := by
        rw [uppers, List.foldl_append]
        rfl
      have hbit : upperBit c = 0 ↔ c.isUpper = false := by
        rw [upperBit]
        cases c.isUpper <;> decide
      have hlt : upperBit c ≤ 1 := by
        rw [upperBit]
        cases c.isUpper <;> decide
      rw [List.reverse_append, List.reverse_singleton, List.singleton_append, List.take_succ_cons,
        List.forall_mem_cons, ← hbit, hupper]
      cases k with
      | zero =>
          have hmod : (16 * uppers ds + upperBit c) % (8 * 16 ^ 0) = 0 ↔ upperBit c = 0 := by omega
          rw [hmod]
          simp
      | succ k =>
          have hsplit : 8 * 16 ^ (k + 1) = 16 * (8 * 16 ^ k) := by rw [Nat.pow_succ]; omega
          have hdiv : (16 * uppers ds + upperBit c) / 16 = uppers ds := by omega
          have hmod : (16 * uppers ds + upperBit c) % 16 = upperBit c := by omega
          rw [← ih k, hsplit, Nat.mod_mul, hdiv, hmod]
          omega

/-- The loop is right modulo 2^32 if none of the last seven digits is upper-case. -/
theorem hexInt_eq_iff {text : List Char} (h : ∀ c ∈ hexDigits text, isHexChar c = true) :
    hexInt text = BitVec.ofNat 32 (hexadecimal (hexDigits text)) ↔
      ∀ c ∈ (hexDigits text).reverse.take 7, c.isUpper = false := by
  have hseven := uppers_mod (hexDigits text) 6
  have hpow : 8 * 16 ^ 6 = 134217728 := rfl
  rw [← hseven, hpow, hexInt_eq h, ← BitVec.toNat_inj, BitVec.toNat_ofInt, BitVec.toNat_ofNat]
  have h32 : ((2 ^ 32 : Nat) : Int) = 4294967296 := rfl
  have h32' : (2 ^ 32 : Nat) = 4294967296 := rfl
  rw [h32, h32']
  omega

/-! ## Tokens -/

-- only one rule makes a `HEX` token
theorem matchHex_of_firstRule {e : List Char} {n : Nat} (h : firstRule e = some (.HEX, n)) :
    matchHex e = some n := by
  have hregex : ∀ r ∈ rules, r.token_type = .HEX → r.regex = matchHex := by
    intro r hr htype
    simp only [rules, List.mem_cons, List.not_mem_nil, or_false] at hr
    rcases hr with rfl | rfl | rfl | rfl | rfl | rfl | rfl | rfl | rfl | rfl | rfl | rfl | rfl |
      rfl | rfl | rfl <;> first | rfl | exact TokenType.noConfusion htype
  obtain ⟨r, hr, hmap⟩ := List.exists_of_findSome?_eq_some h
  obtain ⟨k, hk, heq⟩ := Option.map_eq_some_iff.mp hmap
  obtain ⟨htype, rfl⟩ := Prod.mk.inj heq
  rw [← hregex r hr htype]
  exact hk

/-- Behind the `0x` of a `HEX` token there are hexadecimal digits only. -/
theorem hexDigits_of_firstRule {e : List Char} {n : Nat} (h : firstRule e = some (.HEX, n)) :
    ∀ c ∈ hexDigits (e.take n), isHexChar c = true := by
  have hrun : ∀ (a b : Char) (ds : List Char), (matchMany isHexChar ds).map (2 + ·) = some n →
      ∀ c ∈ hexDigits ((a :: b :: ds).take n), isHexChar c = true := by
    intro a b ds hds
    rw [matchMany] at hds
    by_cases hempty : (ds.takeWhile isHexChar).isEmpty = true
    · rw [if_pos hempty] at hds
      cases hds
    · rw [if_neg hempty] at hds
      obtain rfl := Option.some.inj hds
      have htake : hexDigits ((a :: b :: ds).take (2 + (ds.takeWhile isHexChar).length))
          = ds.takeWhile isHexChar := by
        rw [Nat.add_comm, List.take_succ_cons, List.take_succ_cons]
        exact List.prefix_iff_eq_take.mp (List.takeWhile_prefix isHexChar) |>.symm
      rw [htake]
      exact fun c hc => List.all_eq_true.mp List.all_takeWhile c hc
  have hmatch := matchHex_of_firstRule h
  unfold matchHex at hmatch
  split at hmatch
  · exact hrun _ _ _ hmatch
  · exact hrun _ _ _ hmatch
  · cases hmatch

/-- `eval` on a `HEX` token, wherever it stands, is the number that its text denotes. -/
def HexRight (env : ExprEnv) (text : List Char) : Prop :=
  ∀ (t : TokenTable) (p : Int) (fuel : Nat), t.tokens p = ⟨.HEX, text⟩ →
    eval env t (fuel + 1) p p = .ok (BitVec.ofNat 32 (hexadecimal (hexDigits text)))

/-- What it is, is the sum that the digit loop comes to. -/
theorem hexRight_iff_hexInt (env : ExprEnv) {text : List Char} (hlen : text.length < STR_SIZE) :
    HexRight env text ↔ hexInt text = BitVec.ofNat 32 (hexadecimal (hexDigits text)) := by
  have heval : ∀ (t : TokenTable) (p : Int) (fuel : Nat), t.tokens p = ⟨.HEX, text⟩ →
      eval env t (fuel + 1) p p = .ok (hexInt text) := by
    intro t p fuel htok
    rw [eval, if_neg (Int.lt_irrefl p), if_pos rfl, htok]
    show (Token.cstr ⟨.HEX, text⟩ >>= _) = _
    have hstr : Token.cstr ⟨.HEX, text⟩ = .ok text := if_pos hlen
    rw [hstr, ok_bind]
    rfl
  apply Iff.intro
  · intro hright
    have hat : (⟨fun _ => ⟨.HEX, text⟩, 1⟩ : TokenTable).tokens 0 = ⟨.HEX, text⟩ := rfl
    have hval := hright _ 0 0 hat
    rw [heval _ 0 0 hat] at hval
    exact Except.ok.inj hval
  · intro hval t p fuel htok
    rw [heval t p fuel htok, hval]

/-- Every `HEX` token that the tokenizer accepts and its string holds evaluates to the
    number it denotes modulo 2^32 exactly if none of its last seven digits is upper-case. -/
theorem hexRight_iff (env : ExprEnv) (e : List Char) (n : Nat)
    (hfirst : firstRule e = some (.HEX, n)) (hlen : n ≤ 31) :
    HexRight env (e.take n) ↔
      ∀ c ∈ (hexDigits (e.take n)).reverse.take 7, c.isUpper = false := by
  have hsize : (e.take n).length < STR_SIZE := by
    rw [List.length_take, STR_SIZE]
    omega
  rw [hexRight_iff_hexInt env hsize, hexInt_eq_iff (hexDigits_of_firstRule hfirst)]

theorem hexRight_iff_dead_beef :
    HexRight .zeroed ['0', 'x', 'D', 'e', 'a', 'd', 'b', 'e', 'e', 'f'] ↔
      ∀ c ∈ ['f', 'e', 'e', 'b', 'd', 'a', 'e'], c.isUpper = false :=
  hexRight_iff .zeroed ['0', 'x', 'D', 'e', 'a', 'd', 'b', 'e', 'e', 'f'] 10 (by decide)
    (by decide)

/-- `0xA` is 0xffffffea. -/
theorem upper_case_digit_wrong : ¬ HexRight .zeroed ['0', 'x', 'A'] := by
  rw [hexRight_iff_hexInt .zeroed (by decide)]
  decide

/-! ## Printed numbers -/

-- a digit as `%x` or `%X` prints it
def printDigit (upper : Bool) (d : Nat) : Char :=
  if upper then d.digitChar.toUpper else d.digitChar

/-- `v` printed as `0x%x` or `0x%X`. -/
def printHex (upper : Bool) (v : BitVec 32) : List Char :=
  '0' :: 'x' :: (Nat.toDigits 16 v.toNat).map (if upper then Char.toUpper else id)

theorem printDigit_right :
    ∀ upper, ∀ d < 16, isHexChar (printDigit upper d) = true ∧ hexDigit (printDigit upper d) = d ∧
      ((printDigit upper d).isUpper = true ↔ upper = true ∧ 10 ≤ d) := by decide

/-- The digits of a printed number are read back as it. -/
theorem printed_digits (upper : Bool) (n : Nat) :
    (∀ c ∈ (Nat.toDigits 16 n).map (if upper then Char.toUpper else id), isHexChar c = true ∧
      (c.isUpper = true → upper = true)) ∧
    hexadecimal ((Nat.toDigits 16 n).map (if upper then Char.toUpper else id)) = n := by
  have hprint : ∀ d : Nat, (if upper then Char.toUpper else id) d.digitChar = printDigit upper d := by
    intro d
    cases upper <;> rfl
  induction n using Nat.strongRecOn with
  | ind n ih =>
      have hlast := printDigit_right upper (n % 16) (Nat.mod_lt n (by decide))
      by_cases hn : n < 16
      · rw [Nat.mod_eq_of_lt hn] at hlast
        rw [Nat.toDigits_of_lt_base hn, List.map_singleton, hprint]
        refine ⟨?_, ?_⟩
        · intro c hc
          obtain rfl := List.mem_singleton.mp hc
          exact ⟨hlast.1, fun hup => (hlast.2.2.mp hup).1⟩
        · show 16 * 0 + hexDigit (printDigit upper n) = n
          rw [hlast.2.1, Nat.mul_zero, Nat.zero_add]
      · obtain ⟨hdigits, hvalue⟩ := ih (n / 16) (by omega)
        rw [Nat.toDigits_of_base_le (by decide) (Nat.le_of_not_lt hn), List.map_append,
          List.map_singleton, hprint]
        refine ⟨?_, ?_⟩
        · intro c hc
          rcases List.mem_append.mp hc with hc | hc
          · exact hdigits c hc
          · obtain rfl := List.mem_singleton.mp hc
            exact ⟨hlast.1, fun hup => (hlast.2.2.mp hup).1⟩
        · rw [hexadecimal] at hvalue ⊢
          rw [List.foldl_append, hvalue, List.foldl_cons, List.foldl_nil, hlast.2.1]
          omega

/-- A number printed in lower case evaluates to itself; printed in upper case, it does if
    none of its low seven digits is a letter. -/
theorem eval_printHex_iff (env : ExprEnv) (upper : Bool) (v : BitVec 32) :
    (∀ (t : TokenTable) (p : Int) (fuel : Nat), t.tokens p = ⟨.HEX, printHex upper v⟩ →
      eval env t (fuel + 1) p p = .ok v) ↔
    upper = false ∨ ∀ c ∈ (hexDigits (printHex upper v)).reverse.take 7, c.isUpper = false := by
  obtain ⟨hdigits, hvalue⟩ := printed_digits upper v.toNat
  have hlen : (printHex upper v).length < STR_SIZE := by
    have h8 := (Nat.length_toDigits_le_iff (n := v.toNat) (b := 16) (k := 8) (by decide)
      (by decide)).mpr v.isLt
    rw [printHex, List.length_cons, List.length_cons, List.length_map, STR_SIZE]
    omega
  have hnumber : BitVec.ofNat 32 (hexadecimal (hexDigits (printHex upper v))) = v := by
    refine (congrArg (BitVec.ofNat 32) hvalue).trans ?_
    rw [BitVec.ofNat_toNat, BitVec.setWidth_eq]
  have hright := (hexRight_iff_hexInt env hlen).trans (hexInt_eq_iff fun c hc => (hdigits c hc).1)
  rw [HexRight, hnumber] at hright
  rw [hright]
  refine ⟨Or.inr, ?_⟩
  rintro (rfl | h)
  · intro c hc
    by_contra hup
    exact Bool.false_ne_true ((hdigits c (List.mem_reverse.mp (List.mem_of_mem_take hc))).2
      (Bool.eq_true_of_not_eq_false hup))
  · exact h

end Nemu
