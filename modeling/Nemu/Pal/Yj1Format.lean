/-
  Nemu.Pal.Yj1Format

  What a YJ_1 file is, and that `Decompress` returns exactly on those.
-/

import Nemu.Lib.BitField
import Nemu.Lib.Lz77
import Nemu.Lib.Outcome
import Nemu.Pal.Yj1

namespace Nemu.Pal

open BitField Outcome Lz77

/-! ## Bits of a buffer -/

/-- The words from a place of a buffer on; a last odd byte belongs to none. -/
def wordsOf : List Byte → List Nat
  | low :: high :: rest => (high ++ low).toNat :: wordsOf rest
  | _ => []

def bitsAt (src : List Byte) (base : Nat) : List Bool := stream 16 (wordsOf (src.drop base))

/-- The `n` bits from `p` to `q` spell `v`.  The reader looks at the word that `p` is in,
    even for no bits at all, and at no word behind the next one. -/
structure Field (s : List Bool) (p n v q : Nat) : Prop where
  more : p < s.length
  fits : p % 16 + n ≤ 32
  next : q = p + n
  inside : q ≤ s.length
  value : value ((s.drop p).take n) = v

theorem byteAt_eq_ok {src : List Byte} {i : Nat} {b : Byte} :
    byteAt src i = .ok b ↔ src[i]? = some b := by
  rw [byteAt]
  cases src[i]? with
  | none => exact ⟨nofun, nofun⟩
  | some c => exact ⟨fun h => by cases h; rfl, fun h => by cases h; rfl⟩

theorem wordsOf_getElem? {w : Nat} (l : List Byte) : ∀ k : Nat,
    (wordsOf l)[k]? = some w ↔ ∃ low high, l[2 * k]? = some low ∧ l[2 * k + 1]? = some high ∧
      w = (high ++ low : BitVec 16).toNat := by
  induction l using wordsOf.induct with
  | case1 low high rest ih =>
      intro k
      cases k with
      | zero =>
          rw [wordsOf, List.getElem?_cons_zero, Option.some.injEq, eq_comm]
          exact ⟨fun h => ⟨low, high, rfl, rfl, h⟩, fun ⟨_, _, h, h', hw⟩ => by cases h; cases h'; exact hw⟩
      | succ k =>
          rw [wordsOf, List.getElem?_cons_succ, ih]
          rfl
  | case2 l hl =>
      intro k
      -- there is no pair
      have hlen : l.length < 2 := by
        rcases l with _ | ⟨low, _ | ⟨high, rest⟩⟩
        · exact Nat.two_pos
        · exact Nat.one_lt_two
        · exact absurd rfl (hl low high rest)
      have hnil : wordsOf l = [] := by
        rcases l with _ | ⟨low, _ | ⟨high, rest⟩⟩
        · rfl
        · rfl
        · exact absurd rfl (hl low high rest)
      rw [hnil, List.getElem?_nil, List.getElem?_eq_none (i := 2 * k + 1) (by omega)]
      exact ⟨nofun, fun ⟨_, _, _, h, _⟩ => nomatch h⟩

theorem pairAt_eq_ok {src : List Byte} {base k : Nat} {t : BitVec 32} :
    pairAt src (base + 2 * k) = .ok t ↔
      ∃ w : BitVec 16, (wordsOf (src.drop base))[k]? = some w.toNat ∧ t = w.setWidth 32 := by
  have hpair : ∀ low high : Byte,
      low.setWidth 32 ||| high.setWidth 32 <<< 8 = (high ++ low : BitVec 16).setWidth 32 := by
    intro low high
    apply BitVec.eq_of_toNat_eq
    have hhigh : high.toNat <<< 8 < 2 ^ 32 := by
      rw [Nat.shiftLeft_eq]
      omega
    rw [BitVec.toNat_or, BitVec.toNat_shiftLeft, BitVec.toNat_setWidth_of_le (by decide),
      BitVec.toNat_setWidth_of_le (by decide), BitVec.toNat_setWidth_of_le (by decide),
      BitVec.toNat_append, Nat.mod_eq_of_lt hhigh, Nat.or_comm]
  simp only [pairAt, bind_eq_ok, byteAt_eq_ok, pure_eq_ok, wordsOf_getElem?, List.getElem?_drop,
    ← Nat.add_assoc]
  apply Iff.intro
  · rintro ⟨low, hlow, high, hhigh, rfl⟩
    exact ⟨high ++ low, ⟨low, high, hlow, hhigh, rfl⟩, hpair low high⟩
  · rintro ⟨w, ⟨low, high, hlow, hhigh, hw⟩, rfl⟩
    obtain rfl := BitVec.eq_of_toNat_eq hw
    exact ⟨low, hlow, high, hhigh, hpair low high⟩

theorem word_exists (src : List Byte) (base : Nat) {k : Nat}
    (hk : k < (wordsOf (src.drop base)).length) :
    ∃ w : BitVec 16, (wordsOf (src.drop base))[k]? = some w.toNat := by
  obtain ⟨low, high, -, -, hw⟩ :=
    (wordsOf_getElem? (src.drop base) k).mp (List.getElem?_eq_getElem hk)
  exact ⟨high ++ low, by rw [List.getElem?_eq_getElem hk, hw]⟩

section Shifts

variable (w w' : BitVec 16) {o n : Nat}

-- the low bits below `o` are shifted out above, those behind the field below
theorem shifted_toNat (hn : o + n ≤ 16) :
    (((w.setWidth 32 <<< o).setWidth 16).setWidth 32 >>> (16 - n) : BitVec 32).toNat =
      value (bits n (w.toNat / 2 ^ (16 - (o + n)))) := by
  obtain ⟨m, hm⟩ : ∃ m, 16 = o + n + m := ⟨16 - (o + n), by omega⟩
  have hhigh : 16 - n = o + m := by omega
  have hlow : 16 - (o + n) = m := by omega
  have hmod : w.toNat * 2 ^ o % 2 ^ 32 % 2 ^ 16 = 2 ^ o * (w.toNat % 2 ^ (m + n)) := by
    rw [Nat.mod_mod_of_dvd _ (by decide), ← Nat.mul_mod_mul_left, ← Nat.pow_add, Nat.mul_comm,
      show o + (m + n) = 16 by omega]
  rw [value_bits, BitVec.toNat_ushiftRight, BitVec.toNat_setWidth_of_le (by decide),
    BitVec.toNat_setWidth, BitVec.toNat_shiftLeft, BitVec.toNat_setWidth_of_le (by decide),
    Nat.shiftLeft_eq, Nat.shiftRight_eq_div_pow, hmod, hhigh, hlow, Nat.pow_add 2 o m,
    Nat.mul_div_mul_left _ _ (Nat.two_pow_pos o), Nat.pow_add, Nat.mod_mul_right_div_self]

theorem joined_toNat (ho : o ≤ 16) (hn : 16 ≤ o + n) (hfits : o + n ≤ 32) :
    ((w.setWidth 32 &&& ((0xffff : BitVec 16) >>> o).setWidth 32) <<< (n + o - 16) |||
        w'.setWidth 32 >>> (16 - (n + o - 16)) : BitVec 32).toNat =
      value (bits (16 - o) w.toNat ++ bits (o + n - 16) (w'.toNat / 2 ^ (32 - (o + n)))) := by
  obtain ⟨m, hm⟩ : ∃ m, o + n = 16 + m := ⟨o + n - 16, by omega⟩
  have hmask : (0xffff : BitVec 16).toNat >>> o = 2 ^ (16 - o) - 1 := by
    have hall : ∀ o, o ≤ 16 → (0xffff : BitVec 16).toNat >>> o = 2 ^ (16 - o) - 1 := by decide
    exact hall o ho
  have hleft : w.toNat % 2 ^ (16 - o) * 2 ^ m < 2 ^ 32 := by
    have hlt := Nat.mod_lt w.toNat (Nat.two_pow_pos (16 - o))
    calc w.toNat % 2 ^ (16 - o) * 2 ^ m < 2 ^ (16 - o) * 2 ^ m :=
          Nat.mul_lt_mul_of_pos_right hlt (Nat.two_pow_pos m)
      _ = 2 ^ (16 - o + m) := (Nat.pow_add ..).symm
      _ ≤ 2 ^ 32 := Nat.pow_le_pow_right Nat.two_pos (by omega)
  have hright : w'.toNat / 2 ^ (16 - m) < 2 ^ m := by
    rw [Nat.div_lt_iff_lt_mul (Nat.two_pow_pos _), ← Nat.pow_add, show m + (16 - m) = 16 by omega]
    exact w'.isLt
  rw [value_append, length_bits, value_bits, value_bits, BitVec.toNat_or, BitVec.toNat_shiftLeft,
    BitVec.toNat_and, BitVec.toNat_ushiftRight, BitVec.toNat_setWidth_of_le (by decide),
    BitVec.toNat_setWidth_of_le (by decide), BitVec.toNat_setWidth_of_le (by decide),
    BitVec.toNat_ushiftRight, hmask, Nat.and_two_pow_sub_one_eq_mod, Nat.shiftLeft_eq,
    Nat.shiftRight_eq_div_pow, show n + o - 16 = m by omega, show o + n - 16 = m by omega,
    show 32 - (o + n) = 16 - m by omega, Nat.mod_eq_of_lt hleft, Nat.mod_eq_of_lt hright,
    Nat.mul_comm, Nat.two_pow_add_eq_or_of_lt hright]

end Shifts

theorem getBits_eq_ok {src : List Byte} {base p n q : Nat} {v : BitVec 32} :
    getBits src base p n = .ok (v, q) ↔ Field (bitsAt src base) p n v.toNat q := by
  have hlen : (bitsAt src base).length = 16 * (wordsOf (src.drop base)).length := length_stream ..
  have htemp : base + (p >>> 4) <<< 1 = base + 2 * (p / 16) := by
    rw [Nat.shiftRight_eq_div_pow, Nat.shiftLeft_eq]
    omega
  have hbptr : p &&& 0xf = p % 16 := Nat.and_two_pow_sub_one_eq_mod p 4
  rw [getBits]
  dsimp only
  rw [htemp, hbptr]
  by_cases hn : n > 16 - p % 16
  · -- the field ends in the next word
    rw [if_pos hn, show base + 2 * (p / 16) + 2 = base + 2 * (p / 16 + 1) by omega]
    simp only [bind_eq_ok, pairAt_eq_ok]
    apply Iff.intro
    · rintro ⟨_, ⟨w, hw, rfl⟩, _, ⟨w', hw', rfl⟩, hrest⟩
      have hk := (List.getElem?_eq_some_iff.mp hw').1
      by_cases hfits : n + p % 16 - 16 > 16
      · rw [if_pos hfits] at hrest
        cases hrest
      · rw [if_neg hfits] at hrest
        cases hrest
        have hfield := field_across hw hw' (by omega) (by omega : 16 ≤ p % 16 + n) (by omega)
        rw [Nat.div_add_mod] at hfield
        refine ⟨by omega, by omega, rfl, by omega, ?_⟩
        rw [bitsAt, hfield, joined_toNat w w' (by omega) (by omega) (by omega)]
    · rintro ⟨hmore, hfits, rfl, hinside, hvalue⟩
      obtain ⟨w, hw⟩ := word_exists src base (k := p / 16) (by omega)
      obtain ⟨w', hw'⟩ := word_exists src base (k := p / 16 + 1) (by omega)
      have hfield := field_across hw hw' (by omega) (by omega : 16 ≤ p % 16 + n) (by omega)
      rw [Nat.div_add_mod] at hfield
      refine ⟨_, ⟨w, hw, rfl⟩, _, ⟨w', hw', rfl⟩, ?_⟩
      rw [if_neg (by omega)]
      refine congrArg Except.ok (Prod.ext (BitVec.eq_of_toNat_eq ?_) rfl)
      rw [← hvalue, bitsAt, hfield, ← joined_toNat w w' (by omega) (by omega) (by omega)]
  · rw [if_neg hn]
    simp only [bind_eq_ok, pairAt_eq_ok, pure_eq_ok, Prod.mk.injEq]
    apply Iff.intro
    · rintro ⟨_, ⟨w, hw, rfl⟩, rfl, rfl⟩
      have hk := (List.getElem?_eq_some_iff.mp hw).1
      have hfield := field_within hw (by omega : p % 16 + n ≤ 16)
      rw [Nat.div_add_mod] at hfield
      refine ⟨by omega, by omega, rfl, by omega, ?_⟩
      rw [shifted_toNat w (by omega), bitsAt, hfield]
    · rintro ⟨hmore, hfits, rfl, hinside, hvalue⟩
      obtain ⟨w, hw⟩ := word_exists src base (k := p / 16) (by omega)
      have hfield := field_within hw (by omega : p % 16 + n ≤ 16)
      rw [Nat.div_add_mod] at hfield
      refine ⟨_, ⟨w, hw, rfl⟩, BitVec.eq_of_toNat_eq ?_, rfl⟩
      rw [← hvalue, bitsAt, hfield, shifted_toNat w (by omega)]

/-- A field that is there is read. -/
theorem Field.read {src : List Byte} {base p n v q : Nat} (h : Field (bitsAt src base) p n v q) :
    ∃ x : BitVec 32, getBits src base p n = .ok (x, q) ∧ x.toNat = v := by
  have hlt : v < 2 ^ 32 := by
    rw [← h.value]
    refine (value_lt _).trans_le (Nat.pow_le_pow_right Nat.two_pos ?_)
    rw [List.length_take]
    have hfits := h.fits
    omega
  have hv : (BitVec.ofNat 32 v).toNat = v := Nat.mod_eq_of_lt hlt
  exact ⟨_, getBits_eq_ok.mpr (by rw [hv]; exact h), hv⟩

theorem Field.lt {s : List Bool} {p n v q : Nat} (h : Field s p n v q) : v < 2 ^ n := by
  rw [← h.value]
  refine (value_lt _).trans_le (Nat.pow_le_pow_right Nat.two_pos ?_)
  rw [List.length_take]
  exact Nat.min_le_left ..

/-! ## The codes of a block -/

section Codes

variable (src : List Byte) (header : Nat)

def codeBits : List Bool := bitsAt src (codesAt header)

/-- The code of how often a loop is run stands from `p` to `q`. -/
inductive LoopAt : Nat → BitVec 16 → Nat → Prop
  | first {p q c} (flag : Field (codeBits src header) p 1 1 q)
      (count : src[CodeCountTable header 0]? = some c) : LoopAt p (c.setWidth 16) q
  | second {p q r c} (flag : Field (codeBits src header) p 1 0 q)
      (kind : Field (codeBits src header) q 2 0 r)
      (count : src[CodeCountTable header 1]? = some c) : LoopAt p (c.setWidth 16) r
  | escape {p q r t k} {width : Byte} {v : BitVec 32} (flag : Field (codeBits src header) p 1 0 q)
      (kind : Field (codeBits src header) q 2 (k + 1) r)
      (length : src[CodeCountCodeLengthTable header k]? = some width)
      (count : Field (codeBits src header) r width.toNat v.toNat t) : LoopAt p (v.setWidth 16) t

/-- The code of how many bytes are repeated. -/
inductive CountAt : Nat → BitVec 16 → Nat → Prop
  | first {p q c} (kind : Field (codeBits src header) p 2 0 q)
      (count : shortAt src (LZSSRepeatTable header 0) = .ok c) : CountAt p c q
  | table {p q r k c} (kind : Field (codeBits src header) p 2 (k + 1) q)
      (flag : Field (codeBits src header) q 1 0 r)
      (count : shortAt src (LZSSRepeatTable header (k + 1)) = .ok c) : CountAt p c r
  | escape {p q r t k} {width : Byte} {v : BitVec 32}
      (kind : Field (codeBits src header) p 2 (k + 1) q) (flag : Field (codeBits src header) q 1 1 r)
      (length : src[LZSSRepeatCodeLengthTable header k]? = some width)
      (count : Field (codeBits src header) r width.toNat v.toNat t) : CountAt p (v.setWidth 16) t

/-- The code of a repetition: how many bytes, and from how far back. -/
inductive CopyAt : Nat → Cmd Byte → Nat → Prop
  | mk {p q r t count} {k distance : BitVec 32} {width : Byte}
      (counted : CountAt src header p count q) (kind : Field (codeBits src header) q 2 k.toNat r)
      (length : src[LZSSOffsetCodeLengthTable header k.toNat]? = some width)
      (pos : Field (codeBits src header) r width.toNat distance.toNat t) :
      CopyAt p (.copy distance.toNat count.toNat) t

/-- The bits from `p` to `q` lead from a node of the tree to a leaf. -/
inductive LeafAt (root : List TreeNode) : Option Nat → Nat → Byte → Nat → Prop
  | leaf {node p n} (here : nodeAt root node = .ok n) (isLeaf : n.leaf = true) :
      LeafAt root node p n.value p
  | left {node p q r n b} (here : nodeAt root node = .ok n) (inner : n.leaf = false)
      (bit : Field (codeBits src header) p 1 0 q) (rest : LeafAt root n.left q b r) :
      LeafAt root node p b r
  | right {node p q r n b} (here : nodeAt root node = .ok n) (inner : n.leaf = false)
      (bit : Field (codeBits src header) p 1 1 q) (rest : LeafAt root n.right q b r) :
      LeafAt root node p b r

/-- One code after the other. -/
inductive Many {α : Type} (At : Nat → α → Nat → Prop) : Nat → List α → Nat → Prop
  | nil {p} : Many At p [] p
  | cons {p q r x xs} (head : At p x q) (tail : Many At q xs r) : Many At p (x :: xs) r

/-- The codes of a block from `p` on: literals and repetitions in turn, each with their number
    before them, up to a number that is 0. -/
inductive CodesAt (root : List TreeNode) : Nat → List (Cmd Byte) → Prop
  | done {p q} (stop : LoopAt src header p 0 q) : CodesAt root p []
  | literals {p q r t n bs} (loop : LoopAt src header p n q) (some : n ≠ 0)
      (each : Many (LeafAt src header root (.some 0)) q bs r) (all : bs.length = n.toNat)
      (stop : LoopAt src header r 0 t) : CodesAt root p (bs.map .lit)
  | round {p q r t u n m bs cs rest} (loop : LoopAt src header p n q) (some : n ≠ 0)
      (each : Many (LeafAt src header root (.some 0)) q bs r) (all : bs.length = n.toNat)
      (loop' : LoopAt src header r m t) (some' : m ≠ 0)
      (each' : Many (CopyAt src header) t cs u) (all' : cs.length = m.toNat)
      (next : CodesAt root u rest) : CodesAt root p (bs.map .lit ++ (cs ++ rest))

variable {src header}

theorem codeBits_eq_ok {p n q : Nat} {v : BitVec 32} :
    getBits src (codesAt header) p n = .ok (v, q) ↔ Field (codeBits src header) p n v.toNat q :=
  getBits_eq_ok

theorem toNat_pred_succ {v : BitVec 32} (hv : v ≠ 0) : v.toNat - 1 + 1 = v.toNat :=
  Nat.sub_add_cancel (Nat.one_le_iff_ne_zero.mpr fun h => hv (BitVec.eq_of_toNat_eq h))

theorem Field.ne_zero {s : List Bool} {p n q : Nat} {v : BitVec 32} (h : Field s p n v.toNat q)
    (hv : v ≠ 0) : Field s p n (v.toNat - 1 + 1) q := by
  rw [toNat_pred_succ hv]
  exact h

-- a bit that is not 0 is 1
theorem Field.bit {s : List Bool} {p q : Nat} {v : BitVec 32} (h : Field s p 1 v.toNat q)
    (hv : v ≠ 0) : Field s p 1 1 q := by
  have hone := h.ne_zero hv
  have hlt := hone.lt
  rw [show v.toNat - 1 = 0 by omega] at hone
  exact hone

theorem Field.zero {s : List Bool} {p n q : Nat} {v : BitVec 32} (h : Field s p n v.toNat q)
    (hv : ¬v ≠ 0) : Field s p n 0 q := by
  rw [not_ne_iff.mp hv] at h
  exact h

theorem ne_zero_of_toNat {v : BitVec 32} {k : Nat} (hv : v.toNat = k + 1) : v ≠ 0 := by
  rintro rfl
  exact absurd hv (Nat.succ_ne_zero k).symm

theorem not_ne_zero_of_toNat {v : BitVec 32} (hv : v.toNat = 0) : ¬v ≠ 0 :=
  fun h => h (BitVec.eq_of_toNat_eq hv)

theorem getLoop_eq_ok {p q : Nat} {n : BitVec 16} :
    getLoop src header p = .ok (n, q) ↔ LoopAt src header p n q := by
  rw [getLoop]
  apply Iff.intro
  · intro h
    obtain ⟨⟨bit, q₁⟩, hbit, h⟩ := bind_eq_ok.mp h
    have hflag := codeBits_eq_ok.mp hbit
    dsimp only at h
    by_cases h0 : bit ≠ 0
    · rw [if_pos h0] at h
      obtain ⟨c, hc, h⟩ := bind_eq_ok.mp h
      cases h
      exact .first (hflag.bit h0) (byteAt_eq_ok.mp hc)
    · rw [if_neg h0] at h
      obtain ⟨⟨temp, q₂⟩, htemp, h⟩ := bind_eq_ok.mp h
      have hkind := codeBits_eq_ok.mp htemp
      dsimp only at h
      by_cases h1 : temp ≠ 0
      · rw [if_pos h1] at h
        obtain ⟨width, hwidth, h⟩ := bind_eq_ok.mp h
        obtain ⟨⟨v, q₃⟩, hv, h⟩ := bind_eq_ok.mp h
        cases h
        exact .escape (hflag.zero h0) (hkind.ne_zero h1) (byteAt_eq_ok.mp hwidth)
          (codeBits_eq_ok.mp hv)
      · rw [if_neg h1] at h
        obtain ⟨c, hc, h⟩ := bind_eq_ok.mp h
        cases h
        exact .second (hflag.zero h0) (hkind.zero h1) (byteAt_eq_ok.mp hc)
  · intro h
    cases h with
    | first flag count =>
        obtain ⟨bit, hbit, hone⟩ := flag.read
        rw [hbit, ok_bind]
        dsimp only
        rw [if_pos (ne_zero_of_toNat hone), byteAt_eq_ok.mpr count]
        rfl
    | second flag kind count =>
        obtain ⟨bit, hbit, hzero⟩ := flag.read
        obtain ⟨temp, htemp, hzero'⟩ := kind.read
        rw [hbit, ok_bind]
        dsimp only
        rw [if_neg (not_ne_zero_of_toNat hzero), htemp, ok_bind]
        dsimp only
        rw [if_neg (not_ne_zero_of_toNat hzero'), byteAt_eq_ok.mpr count]
        rfl
    | escape flag kind length count =>
        obtain ⟨bit, hbit, hzero⟩ := flag.read
        obtain ⟨temp, htemp, hk⟩ := kind.read
        rw [hbit, ok_bind]
        dsimp only
        rw [if_neg (not_ne_zero_of_toNat hzero), htemp, ok_bind]
        dsimp only
        rw [if_pos (ne_zero_of_toNat hk), hk, Nat.add_sub_cancel, byteAt_eq_ok.mpr length, ok_bind,
          codeBits_eq_ok.mpr count]
        rfl

theorem getCount_eq_ok {p q : Nat} {n : BitVec 16} :
    getCount src header p = .ok (n, q) ↔ CountAt src header p n q := by
  rw [getCount]
  apply Iff.intro
  · intro h
    obtain ⟨⟨temp, q₁⟩, htemp, h⟩ := bind_eq_ok.mp h
    have hkind := codeBits_eq_ok.mp htemp
    dsimp only at h
    by_cases h0 : temp ≠ 0
    · rw [if_pos h0] at h
      obtain ⟨⟨bit, q₂⟩, hbit, h⟩ := bind_eq_ok.mp h
      have hflag := codeBits_eq_ok.mp hbit
      dsimp only at h
      by_cases h1 : bit ≠ 0
      · rw [if_pos h1] at h
        obtain ⟨width, hwidth, h⟩ := bind_eq_ok.mp h
        obtain ⟨⟨v, q₃⟩, hv, h⟩ := bind_eq_ok.mp h
        cases h
        exact .escape (hkind.ne_zero h0) (hflag.bit h1) (byteAt_eq_ok.mp hwidth)
          (codeBits_eq_ok.mp hv)
      · rw [if_neg h1] at h
        obtain ⟨c, hc, h⟩ := bind_eq_ok.mp h
        cases h
        refine .table (hkind.ne_zero h0) (hflag.zero h1) ?_
        rw [toNat_pred_succ h0]
        exact hc
    · rw [if_neg h0] at h
      obtain ⟨c, hc, h⟩ := bind_eq_ok.mp h
      cases h
      exact .first (hkind.zero h0) hc
  · intro h
    cases h with
    | first kind count =>
        obtain ⟨temp, htemp, hzero⟩ := kind.read
        rw [htemp, ok_bind]
        dsimp only
        rw [if_neg (not_ne_zero_of_toNat hzero), count]
        rfl
    | table kind flag count =>
        obtain ⟨temp, htemp, hk⟩ := kind.read
        obtain ⟨bit, hbit, hzero⟩ := flag.read
        rw [htemp, ok_bind]
        dsimp only
        rw [if_pos (ne_zero_of_toNat hk), hbit, ok_bind]
        dsimp only
        rw [if_neg (not_ne_zero_of_toNat hzero), hk, count]
        rfl
    | escape kind flag length count =>
        obtain ⟨temp, htemp, hk⟩ := kind.read
        obtain ⟨bit, hbit, hone⟩ := flag.read
        rw [htemp, ok_bind]
        dsimp only
        rw [if_pos (ne_zero_of_toNat hk), hbit, ok_bind]
        dsimp only
        rw [if_pos (ne_zero_of_toNat hone), hk, Nat.add_sub_cancel, byteAt_eq_ok.mpr length,
          ok_bind, codeBits_eq_ok.mpr count]
        rfl

/-! ## Bits go forward -/

theorem Field.le {s : List Bool} {p n v q : Nat} (h : Field s p n v q) : p ≤ q := by
  rw [h.next]
  exact Nat.le_add_right ..

theorem LoopAt.lt {p q : Nat} {n : BitVec 16} (h : LoopAt src header p n q) : p < q := by
  cases h with
  | first flag _ => rw [flag.next]; exact Nat.lt_succ_self p
  | second flag kind _ => exact (flag.next ▸ Nat.lt_succ_self p : p < _).trans_le kind.le
  | escape flag kind _ count =>
      exact ((flag.next ▸ Nat.lt_succ_self p : p < _).trans_le kind.le).trans_le count.le

theorem LoopAt.more {p q : Nat} {n : BitVec 16} (h : LoopAt src header p n q) :
    p < (codeBits src header).length := by
  cases h with
  | first flag _ => exact flag.more
  | second flag _ _ => exact flag.more
  | escape flag _ _ _ => exact flag.more

theorem CountAt.le {p q : Nat} {n : BitVec 16} (h : CountAt src header p n q) : p ≤ q := by
  cases h with
  | first kind _ => exact kind.le
  | table kind flag _ => exact kind.le.trans flag.le
  | escape kind flag _ count => exact (kind.le.trans flag.le).trans count.le

theorem CopyAt.le {p q : Nat} {c : Cmd Byte} (h : CopyAt src header p c q) : p ≤ q := by
  cases h with
  | mk counted kind _ pos => exact (counted.le.trans kind.le).trans pos.le

theorem LeafAt.le {root : List TreeNode} {node : Option Nat} {p q : Nat} {b : Byte}
    (h : LeafAt src header root node p b q) : p ≤ q := by
  induction h with
  | leaf => exact Nat.le_refl _
  | left _ _ bit _ ih => exact bit.le.trans ih
  | right _ _ bit _ ih => exact bit.le.trans ih

theorem Many.le {α : Type} {At : Nat → α → Nat → Prop} (hle : ∀ {p x q}, At p x q → p ≤ q)
    {p q : Nat} {xs : List α} (h : Many At p xs q) : p ≤ q := by
  induction h with
  | nil => exact Nat.le_refl _
  | cons head _ ih => exact (hle head).trans ih

/-! ## The tree -/

theorem walk_eq_ok {root : List TreeNode} {q : Nat} {b : Byte} (fuel : Nat) :
    ∀ {node : Option Nat} {p : Nat}, (codeBits src header).length - p < fuel →
      (walk src header root fuel node p = .ok (b, q) ↔ LeafAt src header root node p b q) := by
  induction fuel with
  | zero => exact fun h => absurd h (Nat.not_lt_zero _)
  | succ fuel ih =>
      intro node p hfuel
      rw [walk]
      apply Iff.intro
      · intro h
        obtain ⟨n, hn, h⟩ := bind_eq_ok.mp h
        cases hleaf : n.leaf with
        | true =>
            rw [if_pos hleaf] at h
            cases h
            exact .leaf hn hleaf
        | false =>
            rw [hleaf, if_neg Bool.false_ne_true] at h
            obtain ⟨⟨bit, p'⟩, hbit, h⟩ := bind_eq_ok.mp h
            have hfield := codeBits_eq_ok.mp hbit
            have hmore := hfield.more
            have hnext := hfield.next
            have hrest := (ih (by omega)).mp h
            by_cases h0 : bit ≠ 0
            · rw [if_pos h0] at hrest
              exact .right hn hleaf (hfield.bit h0) hrest
            · rw [if_neg h0] at hrest
              exact .left hn hleaf (hfield.zero h0) hrest
      · intro h
        cases h with
        | leaf here isLeaf =>
            rw [here, ok_bind, if_pos isLeaf]
            rfl
        | left here inner bit rest =>
            obtain ⟨v, hv, hzero⟩ := bit.read
            have hmore := bit.more
            have hnext := bit.next
            rw [here, ok_bind, inner, if_neg Bool.false_ne_true, hv, ok_bind]
            dsimp only
            rw [if_neg (not_ne_zero_of_toNat hzero)]
            exact (ih (by omega)).mpr rest
        | right here inner bit rest =>
            obtain ⟨v, hv, hone⟩ := bit.read
            have hmore := bit.more
            have hnext := bit.next
            rw [here, ok_bind, inner, if_neg Bool.false_ne_true, hv, ok_bind]
            dsimp only
            rw [if_pos (ne_zero_of_toNat hone)]
            exact (ih (by omega)).mpr rest

end Codes

/-! ## Output -/

section Output

variable {old out : List Byte} {o : Output}

/-- The destination, which held `old`, with `out` at its front and the pointer behind it. -/
def written (old out : List Byte) : Output := { bytes := filled old out, dest := out.length }

theorem put_eq_ok {b : Byte} : (written old out).put b = .ok o ↔
    ∃ out', put old out b = some out' ∧ o = written old out' := by
  have hlen : (filled old out).length = out.length + (old.length - out.length) := by
    rw [filled, List.length_append, List.length_drop]
  have hput : Output.put (written old out) b = .ok o ↔
      out.length < (filled old out).length ∧
        o = { bytes := (filled old out).set out.length b, dest := out.length + 1 } := by
    rw [Output.put, written]
    by_cases hroom : out.length < (filled old out).length
    · rw [if_pos hroom, and_iff_right hroom, Except.ok.injEq, eq_comm]
    · rw [if_neg hroom]
      exact ⟨nofun, fun h => absurd h.1 hroom⟩
  simp only [hput, put_eq_some]
  have hset : out.length < old.length →
      (filled old out).set out.length b = filled old (out ++ [b]) := by
    intro hroom
    rw [filled, filled, List.set_append_right _ _ (Nat.le_refl _), Nat.sub_self,
      List.drop_eq_getElem_cons hroom, List.set_cons_zero, List.length_append,
      List.length_singleton, List.append_assoc, List.singleton_append]
  apply Iff.intro
  · rintro ⟨hroom, rfl⟩
    have hroom' : out.length < old.length := by omega
    refine ⟨_, ⟨hroom', rfl⟩, ?_⟩
    rw [hset hroom', written, List.length_append, List.length_singleton]
  · rintro ⟨_, ⟨hroom, rfl⟩, rfl⟩
    refine ⟨by omega, ?_⟩
    rw [hset hroom, written, List.length_append, List.length_singleton]

theorem back_eq_ok {pos : Nat} {b : Byte} :
    (written old out).back pos = .ok b ↔ back old out pos = some b := by
  rw [Output.back, back, written]
  by_cases hpos : pos ≤ out.length
  · rw [if_pos hpos, if_pos hpos, byteAt_eq_ok]
  · rw [if_neg hpos, if_neg hpos]
    exact ⟨nofun, nofun⟩

/-- A bind of two steps that may run out of the buffer. -/
theorem bind_eq_some {α β : Type} {x : Option α} {f : α → Option β} {b : β} :
    (x >>= f) = some b ↔ ∃ a, x = some a ∧ f a = some b := Option.bind_eq_some_iff

theorem repeated_eq_ok {pos : Nat} (count : Nat) : ∀ {out : List Byte},
    Output.repeated pos count (written old out) = .ok o ↔
      ∃ out', copyBack old pos count out = some out' ∧ o = written old out' := by
  induction count with
  | zero =>
      intro out
      rw [Output.repeated, copyBack, Except.ok.injEq, eq_comm]
      exact ⟨fun h => ⟨out, rfl, h⟩, fun ⟨_, h, ho⟩ => by cases h; exact ho⟩
  | succ count ih =>
      intro out
      rw [Output.repeated, copyBack]
      simp only [bind_eq_ok, bind_eq_some, back_eq_ok, put_eq_ok]
      apply Iff.intro
      · rintro ⟨b, hb, _, ⟨out₁, hput, rfl⟩, hrest⟩
        obtain ⟨out', hout', ho⟩ := ih.mp hrest
        exact ⟨out', ⟨b, hb, out₁, hput, hout'⟩, ho⟩
      · rintro ⟨out', ⟨b, hb, out₁, hput, hout'⟩, ho⟩
        exact ⟨b, hb, _, ⟨out₁, hput, rfl⟩, ih.mpr ⟨out', hout', ho⟩⟩

theorem stored_eq_ok {src : List Byte} (hul : Nat) : ∀ {ptr : Nat} {out : List Byte},
    Output.stored src hul ptr (written old out) = .ok o ↔
      ∃ bs out', bs.length = hul ∧ (src.drop ptr).take hul = bs ∧
        expand old (bs.map .lit) out = some out' ∧ o = written old out' := by
  induction hul with
  | zero =>
      intro ptr out
      rw [Output.stored, Except.ok.injEq, eq_comm]
      apply Iff.intro
      · exact fun h => ⟨[], out, rfl, List.take_zero .., rfl, h⟩
      · rintro ⟨bs, out', -, hbs, hout', ho⟩
        rw [List.take_zero] at hbs
        subst hbs
        cases hout'
        exact ho
  | succ hul ih =>
      intro ptr out
      rw [Output.stored]
      simp only [bind_eq_ok, put_eq_ok, byteAt_eq_ok]
      apply Iff.intro
      · rintro ⟨b, hb, _, ⟨out₁, hput, rfl⟩, hrest⟩
        obtain ⟨bs, out', hlen, hbs, hout', ho⟩ := ih.mp hrest
        refine ⟨b :: bs, out', by rw [List.length_cons, hlen], ?_, ?_, ho⟩
        · obtain ⟨hptr, rfl⟩ := List.getElem?_eq_some_iff.mp hb
          rw [List.drop_eq_getElem_cons hptr, List.take_succ_cons, hbs]
        · rw [List.map_cons, expand, Cmd.run, hput]
          exact hout'
      · rintro ⟨bs, out', hlen, hbs, hout', ho⟩
        have hptr : ptr < src.length := by
          by_contra hptr
          rw [List.drop_eq_nil_of_le (by omega), List.take_nil] at hbs
          rw [← hbs, List.length_nil] at hlen
          omega
        rw [List.drop_eq_getElem_cons hptr, List.take_succ_cons] at hbs
        subst hbs
        rw [List.map_cons, expand, Cmd.run] at hout'
        obtain ⟨out₁, hput, hrest⟩ := bind_eq_some.mp hout'
        exact ⟨_, List.getElem?_eq_getElem hptr, _, ⟨out₁, hput, rfl⟩,
          ih.mpr ⟨_, out', Nat.succ.inj hlen, rfl, hrest, ho⟩⟩

end Output

/-! ## Blocks -/

section Blocks

variable {src : List Byte} {header : Nat} {root : List TreeNode} {old out : List Byte}

theorem length_wordsOf (l : List Byte) : 2 * (wordsOf l).length ≤ l.length := by
  induction l using wordsOf.induct with
  | case1 low high rest ih =>
      rw [wordsOf, List.length_cons, List.length_cons, List.length_cons]
      omega
  | case2 l hl =>
      rw [wordsOf.eq_2 l hl]
      exact Nat.zero_le _

theorem length_codeBits (p : Nat) : (codeBits src header).length - p < bound src := by
  have hwords := length_wordsOf (src.drop (codesAt header))
  have hdrop := List.length_drop (i := codesAt header) (l := src)
  rw [codeBits, bitsAt, length_stream, bound]
  omega

theorem literals_eq_ok {q : Nat} {o : Output} (loop : Nat) : ∀ {p : Nat} {out : List Byte},
    literals src header root loop p (written old out) = .ok (q, o) ↔
      ∃ bs out', Many (LeafAt src header root (some 0)) p bs q ∧ bs.length = loop ∧
        expand old (bs.map .lit) out = some out' ∧ o = written old out' := by
  induction loop with
  | zero =>
      intro p out
      rw [literals, Except.ok.injEq, Prod.mk.injEq]
      apply Iff.intro
      · rintro ⟨rfl, rfl⟩
        exact ⟨[], out, .nil, rfl, rfl, rfl⟩
      · rintro ⟨bs, out', hmany, hlen, hout', rfl⟩
        obtain rfl := List.length_eq_zero_iff.mp hlen
        cases hmany
        cases hout'
        exact ⟨rfl, rfl⟩
  | succ loop ih =>
      intro p out
      rw [literals]
      simp only [bind_eq_ok, Prod.exists, walk_eq_ok _ (length_codeBits _), put_eq_ok]
      apply Iff.intro
      · rintro ⟨b, p', hleaf, _, ⟨out₁, hput, rfl⟩, hrest⟩
        obtain ⟨bs, out', hmany, hlen, hout', ho⟩ := ih.mp hrest
        refine ⟨b :: bs, out', .cons hleaf hmany, by rw [List.length_cons, hlen], ?_, ho⟩
        rw [List.map_cons, expand, Cmd.run, hput]
        exact hout'
      · rintro ⟨bs, out', hmany, hlen, hout', ho⟩
        cases hmany with
        | nil => cases hlen
        | cons head tail =>
            rw [List.map_cons, expand, Cmd.run] at hout'
            obtain ⟨out₁, hput, hrest⟩ := bind_eq_some.mp hout'
            exact ⟨_, _, head, _, ⟨out₁, hput, rfl⟩,
              ih.mpr ⟨_, out', tail, Nat.succ.inj hlen, hrest, ho⟩⟩

theorem copies_eq_ok {q : Nat} {o : Output} (loop : Nat) : ∀ {p : Nat} {out : List Byte},
    copies src header loop p (written old out) = .ok (q, o) ↔
      ∃ cs out', Many (CopyAt src header) p cs q ∧ cs.length = loop ∧
        expand old cs out = some out' ∧ o = written old out' := by
  induction loop with
  | zero =>
      intro p out
      rw [copies, Except.ok.injEq, Prod.mk.injEq]
      apply Iff.intro
      · rintro ⟨rfl, rfl⟩
        exact ⟨[], out, .nil, rfl, rfl, rfl⟩
      · rintro ⟨cs, out', hmany, hlen, hout', rfl⟩
        obtain rfl := List.length_eq_zero_iff.mp hlen
        cases hmany
        cases hout'
        exact ⟨rfl, rfl⟩
  | succ loop ih =>
      intro p out
      rw [copies]
      simp only [bind_eq_ok, Prod.exists, getCount_eq_ok, codeBits_eq_ok, byteAt_eq_ok,
        repeated_eq_ok]
      apply Iff.intro
      · rintro ⟨count, p₁, hcount, k, p₂, hkind, width, hwidth, pos, p₃, hpos, _,
          ⟨out₁, hput, rfl⟩, hrest⟩
        obtain ⟨cs, out', hmany, hlen, hout', ho⟩ := ih.mp hrest
        refine ⟨_ :: cs, out', .cons (.mk hcount hkind hwidth hpos) hmany,
          by rw [List.length_cons, hlen], ?_, ho⟩
        rw [expand, Cmd.run, hput]
        exact hout'
      · rintro ⟨cs, out', hmany, hlen, hout', ho⟩
        cases hmany with
        | nil => cases hlen
        | cons head tail =>
            cases head with
            | mk counted kind length pos =>
                rw [expand, Cmd.run] at hout'
                obtain ⟨out₁, hput, hrest⟩ := bind_eq_some.mp hout'
                exact ⟨_, _, counted, _, _, kind, _, length, _, _, pos, _, ⟨out₁, hput, rfl⟩,
                  ih.mpr ⟨_, out', tail, Nat.succ.inj hlen, hrest, ho⟩⟩

theorem codes_eq_ok {o : Output} (fuel : Nat) : ∀ {p : Nat} {out : List Byte},
    (codeBits src header).length - p < fuel →
      (codes src header root fuel p (written old out) = .ok o ↔
        ∃ cs out', CodesAt src header root p cs ∧ expand old cs out = some out' ∧
          o = written old out') := by
  induction fuel with
  | zero => exact fun h => absurd h (Nat.not_lt_zero _)
  | succ fuel ih =>
      intro p out hfuel
      rw [codes]
      apply Iff.intro
      · intro h
        obtain ⟨⟨n, p₁⟩, hloop, h⟩ := bind_eq_ok.mp h
        have hloop := getLoop_eq_ok.mp hloop
        dsimp only at h
        by_cases h0 : n = 0
        · subst h0
          cases h
          exact ⟨[], out, .done hloop, rfl, rfl⟩
        rw [if_neg h0] at h
        obtain ⟨⟨p₂, o₁⟩, hliterals, h⟩ := bind_eq_ok.mp h
        obtain ⟨bs, out₁, hbs, hlen, hout₁, rfl⟩ := (literals_eq_ok _).mp hliterals
        obtain ⟨⟨m, p₃⟩, hloop', h⟩ := bind_eq_ok.mp h
        have hloop' := getLoop_eq_ok.mp hloop'
        dsimp only at h
        by_cases h1 : m = 0
        · subst h1
          cases h
          exact ⟨_, out₁, .literals hloop h0 hbs hlen hloop', hout₁, rfl⟩
        rw [if_neg h1] at h
        obtain ⟨⟨p₄, o₂⟩, hcopies, h⟩ := bind_eq_ok.mp h
        obtain ⟨cs, out₂, hcs, hlen', hout₂, rfl⟩ := (copies_eq_ok _).mp hcopies
        have hpos := hloop.lt
        have hle := (hbs.le LeafAt.le).trans (hloop'.lt.le.trans (hcs.le CopyAt.le))
        have hmore := hloop.more
        obtain ⟨rest, out', hrest, hout', ho⟩ := (ih (by omega)).mp h
        refine ⟨_, out', .round hloop h0 hbs hlen hloop' h1 hcs hlen' hrest, ?_, ho⟩
        rw [expand_append, hout₁, Option.bind_some, expand_append, hout₂, Option.bind_some, hout']
      · rintro ⟨cs, out', hcodes, hout', rfl⟩
        cases hcodes with
        | done stop =>
            cases hout'
            rw [getLoop_eq_ok.mpr stop]
            rfl
        | literals loop some each all stop =>
            rw [getLoop_eq_ok.mpr loop, ok_bind]
            dsimp only
            rw [if_neg some, (literals_eq_ok _).mpr ⟨_, out', each, all, hout', rfl⟩, ok_bind]
            dsimp only
            rw [getLoop_eq_ok.mpr stop]
            rfl
        | round loop some each all loop' some' each' all' next =>
            rw [expand_append] at hout'
            obtain ⟨out₁, hout₁, hout'⟩ := Option.bind_eq_some_iff.mp hout'
            rw [expand_append] at hout'
            obtain ⟨out₂, hout₂, hout'⟩ := Option.bind_eq_some_iff.mp hout'
            have hpos := loop.lt
            have hle := (each.le LeafAt.le).trans (loop'.lt.le.trans (each'.le CopyAt.le))
            have hmore := loop.more
            rw [getLoop_eq_ok.mpr loop, ok_bind]
            dsimp only
            rw [if_neg some, (literals_eq_ok _).mpr ⟨_, out₁, each, all, hout₁, rfl⟩, ok_bind]
            dsimp only
            rw [getLoop_eq_ok.mpr loop', ok_bind]
            dsimp only
            rw [if_neg some', (copies_eq_ok _).mpr ⟨_, out₂, each', all', hout₂, rfl⟩, ok_bind]
            exact (ih (by omega)).mpr ⟨_, out', next, hout', rfl⟩

end Blocks

/-- The blocks of a file from `pos` on. A stored one is followed by the next; one of codes says
    itself where the next begins. -/
inductive BlocksAt (src : List Byte) (root : List TreeNode) : Nat → Nat → List (Cmd Byte) → Prop
  | nil {pos} : BlocksAt src root 0 pos []
  | stored {n pos hul bs rest} (kind : shortAt src (pos + 2) = .ok 0)
      (length : shortAt src pos = .ok hul) (all : bs.length = hul.toNat)
      (here : (src.drop (pos + 4)).take hul.toNat = bs)
      (next : BlocksAt src root n (pos + 4 + hul.toNat) rest) :
      BlocksAt src root (n + 1) pos (bs.map .lit ++ rest)
  | coded {n pos size cs rest} (kind : shortAt src (pos + 2) = .ok size) (some : size ≠ 0)
      (here : CodesAt src pos root 0 cs) (next : BlocksAt src root n (pos + size.toNat) rest) :
      BlocksAt src root (n + 1) pos (cs ++ rest)

theorem blocks_eq_ok {src : List Byte} {root : List TreeNode} {old : List Byte} {o : Output}
    (n : Nat) : ∀ {pos : Nat} {out : List Byte},
      blocks src root n pos (written old out) = .ok o ↔
        ∃ cs out', BlocksAt src root n pos cs ∧ expand old cs out = some out' ∧
          o = written old out' := by
  induction n with
  | zero =>
      intro pos out
      rw [blocks, Except.ok.injEq, eq_comm]
      apply Iff.intro
      · rintro rfl
        exact ⟨[], out, .nil, rfl, rfl⟩
      · rintro ⟨cs, out', hblocks, hout', rfl⟩
        cases hblocks
        cases hout'
        rfl
  | succ n ih =>
      intro pos out
      rw [blocks]
      apply Iff.intro
      · intro h
        obtain ⟨size, hsize, h⟩ := bind_eq_ok.mp h
        by_cases h0 : size = 0
        · subst h0
          rw [if_pos rfl] at h
          obtain ⟨hul, hhul, h⟩ := bind_eq_ok.mp h
          obtain ⟨o₁, hstored, h⟩ := bind_eq_ok.mp h
          obtain ⟨bs, out₁, hlen, hbs, hout₁, rfl⟩ := (stored_eq_ok _).mp hstored
          obtain ⟨rest, out', hrest, hout', ho⟩ := ih.mp h
          refine ⟨_, out', .stored hsize hhul hlen hbs hrest, ?_, ho⟩
          rw [expand_append, hout₁, Option.bind_some, hout']
        · rw [if_neg h0] at h
          obtain ⟨o₁, hcodes, h⟩ := bind_eq_ok.mp h
          obtain ⟨cs, out₁, hcs, hout₁, rfl⟩ := (codes_eq_ok _ (length_codeBits _)).mp hcodes
          obtain ⟨rest, out', hrest, hout', ho⟩ := ih.mp h
          refine ⟨_, out', .coded hsize h0 hcs hrest, ?_, ho⟩
          rw [expand_append, hout₁, Option.bind_some, hout']
      · rintro ⟨cs, out', hblocks, hout', rfl⟩
        cases hblocks with
        | stored kind length all here next =>
            rw [expand_append] at hout'
            obtain ⟨out₁, hout₁, hout'⟩ := Option.bind_eq_some_iff.mp hout'
            rw [kind, ok_bind, if_pos rfl, length, ok_bind,
              (stored_eq_ok _).mpr ⟨_, out₁, all, here, hout₁, rfl⟩, ok_bind]
            exact ih.mpr ⟨_, out', next, hout', rfl⟩
        | coded kind some here next =>
            rw [expand_append] at hout'
            obtain ⟨out₁, hout₁, hout'⟩ := Option.bind_eq_some_iff.mp hout'
            rw [kind, ok_bind, if_neg some,
              (codes_eq_ok _ (length_codeBits _)).mpr ⟨_, out₁, here, hout₁, rfl⟩, ok_bind]
            exact ih.mpr ⟨_, out', next, hout', rfl⟩

/-! ## The tree of a file -/

/-- Its nodes but the first are the bytes behind the file header, each with a flag. -/
structure TreeAt (src : List Byte) (tree_len : Nat) (root : List TreeNode) : Prop where
  size : root.length = tree_len + 1
  top : root[0]? = some { value := 0, leaf := false, left := some 1, right := some 2 }
  node : ∀ i, i < tree_len → ∃ (value : Byte) (flag : BitVec 32), src[16 + i]? = some value ∧
    Field (bitsAt src (16 + tree_len)) i 1 flag.toNat (i + 1) ∧
      root[i + 1]? = some (.of value flag)

theorem treeFrom_eq_ok {src : List Byte} {tree_len : Nat} (n : Nat) :
    ∀ {j : Nat} {l : List TreeNode}, treeFrom src tree_len n (j + 1) j = .ok l ↔
      l.length = n ∧ ∀ i, i < n → ∃ (value : Byte) (flag : BitVec 32),
        src[16 + (j + i)]? = some value ∧
          Field (bitsAt src (16 + tree_len)) (j + i) 1 flag.toNat (j + i + 1) ∧
            l[i]? = some (.of value flag) := by
  induction n with
  | zero =>
      intro j l
      rw [treeFrom, Except.ok.injEq, eq_comm, List.length_eq_zero_iff]
      exact ⟨fun h => ⟨h, nofun⟩, fun h => h.1⟩
  | succ n ih =>
      intro j l
      rw [treeFrom]
      apply Iff.intro
      · intro h
        obtain ⟨⟨flag, j'⟩, hflag, h⟩ := bind_eq_ok.mp h
        obtain ⟨value, hvalue, h⟩ := bind_eq_ok.mp h
        obtain ⟨rest, hrest, h⟩ := bind_eq_ok.mp h
        cases h
        have hfield := getBits_eq_ok.mp hflag
        obtain rfl := hfield.next
        obtain ⟨hlen, hall⟩ := ih.mp hrest
        refine ⟨by rw [List.length_cons, hlen], fun i hi => ?_⟩
        cases i with
        | zero =>
            refine ⟨value, flag, ?_, hfield, rfl⟩
            rw [Nat.add_zero, show 16 + j = 15 + (j + 1) by omega]
            exact byteAt_eq_ok.mp hvalue
        | succ i =>
            have hnode := hall i (Nat.lt_of_succ_lt_succ hi)
            rwa [show j + 1 + i = j + (i + 1) by omega] at hnode
      · rintro ⟨hlen, hall⟩
        obtain ⟨x, rest, rfl⟩ := List.exists_cons_of_length_eq_add_one hlen
        obtain ⟨value, flag, hvalue, hfield, hx⟩ := hall 0 (Nat.succ_pos n)
        obtain rfl := Option.some.inj hx
        have hbyte : byteAt src (15 + (j + 1)) = .ok value := by
          rw [byteAt_eq_ok, ← hvalue]
          congr 1
          omega
        have hrest : treeFrom src tree_len n (j + 1 + 1) (j + 1) = .ok rest := by
          refine ih.mpr ⟨Nat.succ.inj hlen, fun i hi => ?_⟩
          have hnode := hall (i + 1) (Nat.succ_lt_succ hi)
          rwa [show j + (i + 1) = j + 1 + i by omega] at hnode
        have hbit : getBits src (16 + tree_len) j 1 = .ok (flag, j + 1) := getBits_eq_ok.mpr hfield
        rw [hbit, ok_bind]
        dsimp only
        rw [hbyte, ok_bind, hrest]
        rfl

theorem tree_eq_ok {src : List Byte} {tree_len : Nat} {root : List TreeNode} :
    tree src tree_len = .ok root ↔ TreeAt src tree_len root := by
  have hfrom : ∀ l, treeFrom src tree_len tree_len 1 0 = .ok l ↔ _ := fun l =>
    @treeFrom_eq_ok src tree_len tree_len 0 l
  rw [tree]
  apply Iff.intro
  · intro h
    obtain ⟨l, hl, h⟩ := bind_eq_ok.mp h
    cases h
    obtain ⟨hlen, hall⟩ := (hfrom l).mp hl
    refine ⟨by rw [List.length_cons, hlen], rfl, fun i hi => ?_⟩
    have hnode := hall i hi
    rw [Nat.zero_add] at hnode
    exact hnode
  · rintro ⟨hsize, htop, hnode⟩
    obtain ⟨x, l, rfl⟩ := List.exists_cons_of_length_eq_add_one hsize
    obtain rfl := Option.some.inj htop
    have hl : treeFrom src tree_len tree_len 1 0 = .ok l := by
      refine (hfrom l).mpr ⟨Nat.succ.inj hsize, fun i hi => ?_⟩
      rw [Nat.zero_add]
      exact hnode i hi
    rw [hl]
    rfl

/-! ## Files -/

/-- `src` is a file of these literals and repetitions. -/
structure FileAt (src : List Byte) (cs : List (Cmd Byte)) : Prop where
  signature : intAt src 0 = .ok 0x315f4a59
  file : ∃ HuffmanTreeLength root BlockCount, byteAt src 15 = .ok HuffmanTreeLength ∧
    TreeAt src (2 * HuffmanTreeLength.toNat) root ∧ shortAt src 12 = .ok BlockCount ∧
      BlocksAt src root BlockCount.toNat (blocksStart (2 * HuffmanTreeLength.toNat)) cs

/-- The sources that `Decompress` turns away, in the order in which it looks at them. -/
inductive Refused (mallocs : Bool) (DestSize : BitVec 32) : Option (List Byte) → Prop
  | null : Refused mallocs DestSize none
  | signature {src x} (signature : intAt src 0 = .ok x) (other : x ≠ 0x315f4a59) :
      Refused mallocs DestSize (some src)
  | size {src x} (signature : intAt src 0 = .ok 0x315f4a59) (size : intAt src 4 = .ok x)
      (more : x > DestSize) : Refused mallocs DestSize (some src)
  | memory {src x l} (signature : intAt src 0 = .ok 0x315f4a59) (size : intAt src 4 = .ok x)
      (fits : ¬x > DestSize) (length : byteAt src 15 = .ok l) (full : mallocs = false) :
      Refused mallocs DestSize (some src)

/-- A file is decompressed. -/
theorem decompress_file {src Destination out : List Byte} {cs : List (Cmd Byte)}
    {DestSize result : BitVec 32} (hfile : FileAt src cs) (hsize : intAt src 4 = .ok result)
    (hfits : ¬result > DestSize) (hout : expand Destination cs [] = some out) :
    Decompress true (some src) Destination DestSize =
      .ok (result, out ++ Destination.drop out.length) := by
  obtain ⟨hsig, l, root, n, hl, hroot, hn, hcs⟩ := hfile
  have hblocks : blocks src root n.toNat (blocksStart (2 * l.toNat)) ⟨Destination, 0⟩ =
      .ok (written Destination out) :=
    (@blocks_eq_ok _ _ Destination _ _ _ []).mpr ⟨cs, out, hcs, hout, rfl⟩
  rw [Decompress]
  dsimp only
  rw [hsig, ok_bind, if_neg (fun h => h rfl), hsize, ok_bind, if_neg hfits, hl, ok_bind]
  rw [tree_eq_ok.mpr hroot, hn]
  simp only [Bool.not_true, Bool.false_eq_true, if_false, ok_bind, hblocks]
  rfl

/-- **`Decompress` returns exactly on refused sources and on YJ_1 files** whose literals and
    repetitions fit into the destination; it then leaves their expansion there, and behind it
    what was there before. On any other source it leaves its buffers. -/
theorem decompress_iff (mallocs : Bool) (Source : Option (List Byte)) (Destination : List Byte)
    (DestSize : BitVec 32) (result : BitVec 32) (dest : List Byte) :
    Decompress mallocs Source Destination DestSize = .ok (result, dest) ↔
      (Refused mallocs DestSize Source ∧ result = -1 ∧ dest = Destination) ∨
        ∃ src cs out, Source = some src ∧ mallocs = true ∧ FileAt src cs ∧
          intAt src 4 = .ok result ∧ ¬result > DestSize ∧
            expand Destination cs [] = some out ∧
              dest = out ++ Destination.drop out.length := by
  cases Source with
  | none =>
      rw [Decompress, Except.ok.injEq, Prod.mk.injEq]
      apply Iff.intro
      · rintro ⟨rfl, rfl⟩
        exact .inl ⟨.null, rfl, rfl⟩
      · rintro (⟨-, rfl, rfl⟩ | ⟨_, _, _, h, _⟩)
        · exact ⟨rfl, rfl⟩
        · cases h
  | some src =>
      rw [Decompress]
      apply Iff.intro
      · intro h
        obtain ⟨sig, hsig, h⟩ := bind_eq_ok.mp h
        by_cases h0 : sig ≠ 0x315f4a59
        · rw [if_pos h0] at h
          cases h
          exact .inl ⟨.signature hsig h0, rfl, rfl⟩
        rw [if_neg h0] at h
        obtain rfl := not_ne_iff.mp h0
        obtain ⟨size, hsize, h⟩ := bind_eq_ok.mp h
        by_cases h1 : size > DestSize
        · rw [if_pos h1] at h
          cases h
          exact .inl ⟨.size hsig hsize h1, rfl, rfl⟩
        rw [if_neg h1] at h
        obtain ⟨l, hl, h⟩ := bind_eq_ok.mp h
        dsimp only at h
        cases mallocs with
        | false =>
            cases h
            exact .inl ⟨.memory hsig hsize h1 hl rfl, rfl, rfl⟩
        | true =>
            obtain ⟨root, hroot, h⟩ := bind_eq_ok.mp h
            obtain ⟨n, hn, h⟩ := bind_eq_ok.mp h
            obtain ⟨o, hblocks, h⟩ := bind_eq_ok.mp h
            cases h
            obtain ⟨cs, out, hcs, hout, rfl⟩ :=
              (@blocks_eq_ok _ _ Destination _ _ _ []).mp hblocks
            exact .inr ⟨src, cs, out, rfl, rfl, ⟨hsig, l, root, n, hl, tree_eq_ok.mp hroot, hn, hcs⟩,
              hsize, h1, hout, rfl⟩
      · rintro (⟨hrefused, rfl, rfl⟩ | ⟨_, cs, out, hsrc, rfl, hfile, hsize, hfits, hout, rfl⟩)
        · cases hrefused with
          | signature signature other =>
              rw [signature, ok_bind, if_pos other]
              rfl
          | size signature size more =>
              rw [signature, ok_bind, if_neg (fun h => h rfl), size, ok_bind, if_pos more]
              rfl
          | memory signature size fits length full =>
              subst full
              rw [signature, ok_bind, if_neg (fun h => h rfl), size, ok_bind, if_neg fits, length]
              rfl
        · cases hsrc
          exact decompress_file hfile hsize hfits hout

end Nemu.Pal
