/-
  Nemu.Pal.InventoryBag

  The inventory refines a bag of items, call by call.  Several entries can be of one item
  after a menu; all but the first of them stay empty, so nothing that looks for the first
  entry can tell.
-/

import Nemu.Pal.Inventory

namespace Nemu.Pal

open PrefixTable

/-- A place of no item. -/
abbrev noItem (e : INVENTORY) : Bool := e.wItem == 0

/-- What the entries have of an item: what the first of them says. -/
def amountOf (l : List INVENTORY) (item : BitVec 16) : Nat :=
  (l.find? fun e => e.wItem == item).elim 0 fun e => e.nAmount.toNat

/-- The entries `l` are those of the bag. -/
structure Lists (l : List INVENTORY) (b : Bag) : Prop where
  listed : ((l.map INVENTORY.wItem : List _) : Multiset (BitVec 16)) = b.listed
  amount : ∀ item, amountOf l item = b.amount item
  atMost : ∀ e ∈ l, e.nAmount.toNat ≤ 99
  later : l.Pairwise fun e e' => e.wItem = e'.wItem → e'.nAmount = 0

def KeepsBag (rgInventory : Nat → INVENTORY) (b : Bag) : Prop :=
  ∃ l, Holds noItem MAX_INVENTORY rgInventory l ∧ Lists l b

/-! ## The entry of an item -/

theorem amountOf_split {as bs : List INVENTORY} {e : INVENTORY} (has : ∀ a ∈ as, a.wItem ≠ e.wItem)
    (item : BitVec 16) :
    amountOf (as ++ e :: bs) item = if item = e.wItem then e.nAmount.toNat
      else amountOf (as ++ bs) item := by
  rw [amountOf, List.find?_append]
  by_cases hitem : item = e.wItem
  · subst hitem
    have hnone : as.find? (fun a => a.wItem == e.wItem) = none :=
      List.find?_eq_none.mpr fun a ha => by simpa using has a ha
    have hhead : (e :: bs).find? (fun a => a.wItem == e.wItem) = some e :=
      List.find?_cons_of_pos (beq_self_eq_true e.wItem)
    rw [if_pos rfl, hnone, hhead]
    rfl
  · rw [if_neg hitem, List.find?_cons_of_neg (by simpa using Ne.symm hitem), ← List.find?_append]
    rfl

/-- The first entry of an item that there is one of. -/
theorem split_of_listed {l : List INVENTORY} {item : BitVec 16}
    (h : item ∈ l.map INVENTORY.wItem) :
    ∃ as e bs, l = as ++ e :: bs ∧ e.wItem = item ∧ ∀ a ∈ as, a.wItem ≠ item := by
  induction l with
  | nil => cases h
  | cons x l ih =>
      by_cases hx : x.wItem = item
      · exact ⟨[], x, l, rfl, hx, nofun⟩
      · rcases List.mem_cons.mp h with h | h
        · exact absurd h.symm hx
        · obtain ⟨as, e, bs, rfl, he, has⟩ := ih h
          refine ⟨x :: as, e, bs, rfl, he, fun a ha => ?_⟩
          rcases List.mem_cons.mp ha with rfl | ha
          · exact hx
          · exact has a ha

theorem amountOf_unlisted {l : List INVENTORY} {item : BitVec 16}
    (h : item ∉ l.map INVENTORY.wItem) : amountOf l item = 0 := by
  have hnone : l.find? (fun e => e.wItem == item) = none :=
    List.find?_eq_none.mpr fun e he => by
      have hne : e.wItem ≠ item := fun heq => h (heq ▸ List.mem_map_of_mem he)
      simpa using hne
  rw [amountOf, hnone]
  rfl

section

variable {rgInventory : Nat → INVENTORY} {item : BitVec 16}

/-- Looking for an item goes on as long as there are entries of other items. -/
theorem searchItem_eq {l : List INVENTORY} (h : Holds noItem MAX_INVENTORY rgInventory l) :
    searchItem rgInventory item = l.findIdx fun e => e.wItem == item := by
  refine h.scan (fun x hx => ?_) (fun x hx => ?_)
  · rw [show (x.wItem == 0) = true from hx, Bool.or_true]
  · rw [show (x.wItem == 0) = false from hx, Bool.or_false]

theorem searchItem_found {as bs : List INVENTORY} {e : INVENTORY}
    (h : Holds noItem MAX_INVENTORY rgInventory (as ++ e :: bs)) (he : e.wItem = item)
    (has : ∀ a ∈ as, a.wItem ≠ item) :
    searchItem rgInventory item = as.length ∧ rgInventory as.length = e := by
  have hentry := h.entry as.length (by simp)
  rw [List.getElem_append_right (Nat.le_refl _)] at hentry
  refine ⟨?_, by simpa using hentry⟩
  have hnone : as.findIdx (fun x => x.wItem == item) = as.length :=
    List.findIdx_eq_length.mpr fun a ha => beq_false_of_ne (has a ha)
  rw [searchItem_eq h, List.findIdx_append, hnone, if_neg (Nat.lt_irrefl _), List.findIdx_cons, he,
    beq_self_eq_true, cond_true, Nat.zero_add]

theorem searchItem_missing {l : List INVENTORY} (h : Holds noItem MAX_INVENTORY rgInventory l)
    (hitem : item ∉ l.map INVENTORY.wItem) :
    searchItem rgInventory item = l.length ∧
      (l.length < MAX_INVENTORY → (rgInventory l.length).wItem = 0) := by
  refine ⟨?_, fun hlt => eq_of_beq (h.rest l.length (Nat.le_refl _) hlt)⟩
  rw [searchItem_eq h]
  exact List.findIdx_eq_length.mpr fun e he =>
    beq_false_of_ne fun heq => hitem (heq ▸ List.mem_map_of_mem he)

/-- The amount of the first entry of an item is changed. -/
theorem KeepsBag.setAmount {as bs : List INVENTORY} {e : INVENTORY} {b : Bag} {n : Nat}
    (h : Holds noItem MAX_INVENTORY rgInventory (as ++ e :: bs)) (hb : Lists (as ++ e :: bs) b)
    (has : ∀ a ∈ as, a.wItem ≠ e.wItem) (hn : n ≤ 99) :
    KeepsBag (setAmount rgInventory as.length n)
      { b with amount := Function.update b.amount e.wItem n } := by
  have hentry : rgInventory as.length = e := (searchItem_found h rfl has).2
  have hlt : as.length < (as ++ e :: bs).length := by simp
  have hwidth : (BitVec.ofInt 16 n).toNat = n := by
    rw [BitVec.ofInt_natCast, BitVec.toNat_ofNat]
    exact Nat.mod_eq_of_lt (by omega)
  obtain ⟨x, hx⟩ : ∃ x, x = { e with nAmount := BitVec.ofInt 16 n } := ⟨_, rfl⟩
  have hxItem : x.wItem = e.wItem := by rw [hx]
  have hset : (as ++ e :: bs).set as.length x = as ++ x :: bs := by
    rw [List.set_append_right _ _ (Nat.le_refl _), Nat.sub_self]
    rfl
  have hholds := h.set as.length hlt (x := x) (by
    rw [noItem, hxItem]
    exact h.used e (List.mem_append_right _ (List.mem_cons_self ..)))
  rw [hset] at hholds
  refine ⟨as ++ x :: bs, ?_, ?_, fun it => ?_, fun y hy => ?_, ?_⟩
  · rw [Nemu.Pal.setAmount, hentry, ← hx]
    exact hholds
  · rw [← hb.listed]
    simp only [List.map_append, List.map_cons, hxItem]
  · have hold := hb.amount it
    rw [amountOf_split has] at hold
    rw [amountOf_split (by rwa [hxItem]), hxItem]
    dsimp only
    by_cases hit : it = e.wItem
    · subst hit
      rw [if_pos rfl, Function.update_self, hx]
      exact hwidth
    · rw [if_neg hit] at hold
      rw [if_neg hit, Function.update_of_ne hit, hold]
  · rcases List.mem_append.mp hy with hy | hy
    · exact hb.atMost y (List.mem_append_left _ hy)
    · rcases List.mem_cons.mp hy with rfl | hy
      · rw [hx]
        exact Nat.le_trans (Nat.le_of_eq hwidth) hn
      · exact hb.atMost y (List.mem_append_right _ (List.mem_cons_of_mem _ hy))
  · have hlater := hb.later
    simp only [List.pairwise_append, List.pairwise_cons, List.mem_cons] at hlater ⊢
    obtain ⟨hfirst, ⟨hhead, hrest⟩, hacross⟩ := hlater
    refine ⟨hfirst, ⟨fun y hy heq => hhead y hy (hxItem ▸ heq), hrest⟩, fun a ha y hy heq => ?_⟩
    rcases hy with rfl | hy
    · exact absurd (heq.trans hxItem) (has a ha)
    · exact hacross a ha y (.inr hy) heq

/-- One entry more: of an item not there yet, or with nothing of it. -/
theorem KeepsBag.append {l : List INVENTORY} {b : Bag} {x : INVENTORY} (hroom : l.length < MAX_INVENTORY)
    (h : Holds noItem MAX_INVENTORY rgInventory l) (hb : Lists l b) (hx : x.wItem ≠ 0)
    (hn : x.nAmount.toNat ≤ 99) (hnew : x.wItem ∉ l.map INVENTORY.wItem ∨ x.nAmount = 0) :
    Holds noItem MAX_INVENTORY (Function.update rgInventory l.length x) (l ++ [x]) ∧
      Lists (l ++ [x])
        { listed := x.wItem ::ₘ b.listed
          amount := Function.update b.amount x.wItem (b.amount x.wItem + x.nAmount.toNat) } := by
  refine ⟨h.append hroom (beq_false_of_ne hx), ?_, fun it => ?_, fun y hy => ?_, ?_⟩
  · rw [← hb.listed, List.map_append, ← Multiset.coe_add, Multiset.add_comm]
    rfl
  · have hold := hb.amount it
    dsimp only
    by_cases hit : it = x.wItem
    · subst hit
      rw [Function.update_self, ← hold]
      by_cases hmem : x.wItem ∈ l.map INVENTORY.wItem
      · have hzero : x.nAmount = 0 := hnew.resolve_left (fun hne => hne hmem)
        obtain ⟨as, e, bs, rfl, he, has⟩ := split_of_listed hmem
        rw [List.append_assoc, List.cons_append, amountOf_split (by rwa [he]),
          amountOf_split (by rwa [he]), if_pos he.symm, if_pos he.symm, hzero]
        rfl
      · rw [amountOf_unlisted hmem, amountOf_split fun a ha heq => hmem (heq ▸ List.mem_map_of_mem ha),
          if_pos rfl, Nat.zero_add]
    · rw [Function.update_of_ne hit, ← hold, amountOf, amountOf, List.find?_append,
        List.find?_cons_of_neg (by simpa using Ne.symm hit), List.find?_nil, Option.or_none]
  · rcases List.mem_append.mp hy with hy | hy
    · exact hb.atMost y hy
    · obtain rfl := List.mem_singleton.mp hy
      exact hn
  · refine List.pairwise_append.mpr ⟨hb.later, List.pairwise_singleton _ _, fun y hy z hz heq => ?_⟩
    obtain rfl := List.mem_singleton.mp hz
    exact hnew.resolve_left fun hne => hne (heq ▸ List.mem_map_of_mem hy)

/-! ## Adding and removing -/

theorem setAmount_setAmount (i : Nat) (m n : Int) :
    setAmount (setAmount rgInventory i m) i n = setAmount rgInventory i n := by
  rw [setAmount, setAmount, Function.update_idem, Function.update_self]
  rfl

/-- The call for an item that has an entry. -/
theorem addItemToInventory_found {i : Nat} {n : Int} (hn : n ≤ 65436) (hitem : item ≠ 0)
    (hindex : searchItem rgInventory item = i) (hi : i < MAX_INVENTORY)
    (hfound : (rgInventory i).wItem = item) (ha : (rgInventory i).nAmount.toNat ≤ 99) :
    addItemToInventory rgInventory item n =
      let a := (rgInventory i).nAmount.toNat
      if n < 0 then
        (decide ((-n).toNat ≤ a), setAmount rgInventory i (a - (-n).toNat : Nat))
      else (true, setAmount rgInventory i (min 99 (a + max 1 n.toNat) : Nat)) := by
  rw [addItemToInventory, if_neg hitem]
  simp only [hindex, hfound, hi, decide_true, beq_self_eq_true, Bool.and_true, if_true, ge_iff_le,
    if_neg (Nat.not_le.mpr hi)]
  by_cases hneg : n < 0
  · have hzero : n ≠ 0 := by omega
    rw [if_neg hzero, if_neg (by omega), if_pos hneg]
    by_cases hless : ((rgInventory i).nAmount.toNat : Int) < -n
    · have hgone : (rgInventory i).nAmount.toNat - (-n).toNat = 0 := by omega
      rw [if_pos hless, hgone, decide_eq_false (by omega)]
      rfl
    · rw [if_neg hless, decide_eq_true (by omega)]
      have hrest : (rgInventory i).nAmount.toNat - -n =
          (((rgInventory i).nAmount.toNat - (-n).toNat : Nat) : Int) := by omega
      rw [hrest]
  · obtain ⟨m, hm⟩ : ∃ m, m = (rgInventory i).nAmount.toNat + max 1 n.toNat := ⟨_, rfl⟩
    have hsum : ((rgInventory i).nAmount.toNat : Int) + (if n = 0 then 1 else n) = m := by
      split <;> omega
    have hpos : 0 < if n = 0 then 1 else n := by split <;> omega
    rw [if_pos hpos, hsum, if_neg hneg, ← hm]
    have hwidth : (BitVec.ofInt 16 m).toNat = m := by
      rw [BitVec.ofInt_natCast, BitVec.toNat_ofNat]
      exact Nat.mod_eq_of_lt (by omega)
    have hstored : (setAmount rgInventory i m i).nAmount = BitVec.ofInt 16 m := by
      rw [setAmount, Function.update_self]
    have hover : (setAmount rgInventory i m i).nAmount > 99 ↔ 99 < m := by
      rw [hstored, gt_iff_lt, BitVec.lt_def, hwidth]
      rfl
    by_cases hmax : 99 < m
    · rw [if_pos (hover.mpr hmax), setAmount_setAmount, Nat.min_eq_left (Nat.le_of_lt hmax)]
      rfl
    · rw [if_neg fun h => hmax (hover.mp h), Nat.min_eq_right (Nat.le_of_not_lt hmax)]

/-- The call for an item that has none. -/
theorem addItemToInventory_missing {i : Nat} {n : Int} (hitem : item ≠ 0)
    (hindex : searchItem rgInventory item = i)
    (hmissing : i < MAX_INVENTORY → (rgInventory i).wItem ≠ item) :
    addItemToInventory rgInventory item n =
      if n < 0 ∨ MAX_INVENTORY ≤ i then (false, rgInventory)
      else (true, Function.update rgInventory i
        { rgInventory i with wItem := item, nAmount := BitVec.ofNat 16 (min 99 (max 1 n.toNat)) }) := by
  have hnot : (decide (i < MAX_INVENTORY) && (rgInventory i).wItem == item) = false := by
    by_cases hi : i < MAX_INVENTORY
    · rw [beq_false_of_ne (hmissing hi), Bool.and_false]
    · rw [decide_eq_false hi, Bool.false_and]
  rw [addItemToInventory, if_neg hitem]
  simp only [hindex, hnot, Bool.false_eq_true, if_false, ge_iff_le]
  by_cases hneg : n < 0
  · have hzero : n ≠ 0 := by omega
    rw [if_neg hzero, if_neg (by omega), if_pos (.inl hneg)]
  · have hpos : 0 < if n = 0 then 1 else n := by split <;> omega
    rw [if_pos hpos]
    by_cases hi : MAX_INVENTORY ≤ i
    · rw [if_pos hi, if_pos (.inr hi)]
    · have hnum : (if (if n = 0 then 1 else n) > 99 then 99 else if n = 0 then 1 else n) =
          ((min 99 (max 1 n.toNat) : Nat) : Int) := by
        split <;> split <;> omega
      have hadds : ¬(n < 0 ∨ MAX_INVENTORY ≤ i) := not_or.mpr ⟨hneg, hi⟩
      rw [if_neg hi, if_neg hadds, hnum, setAmount, Function.update_idem, Function.update_self,
        BitVec.ofInt_natCast]

theorem addItemToInventory_zero (n : Int) :
    addItemToInventory rgInventory 0 n = (false, rgInventory) := if_pos rfl

theorem addItemToInventory_keeps {b : Bag} {n : Int} (hn : n ≤ 65436)
    (h : KeepsBag rgInventory b) :
    (addItemToInventory rgInventory item n).1 = (b.change item n).1 ∧
      KeepsBag (addItemToInventory rgInventory item n).2 (b.change item n).2 := by
  obtain ⟨l, hl, hb⟩ := h
  have hmem : item ∈ b.listed ↔ item ∈ l.map INVENTORY.wItem := by
    rw [← hb.listed, Multiset.mem_coe]
  have hcard : b.listed.card = l.length := by
    rw [← hb.listed, Multiset.coe_card, List.length_map]
  rw [Bag.change, Bag.add, Bag.remove]
  by_cases hlisted : item ∈ l.map INVENTORY.wItem
  · obtain ⟨as, e, bs, rfl, rfl, has⟩ := split_of_listed hlisted
    obtain ⟨hindex, hentry⟩ := searchItem_found hl rfl has
    have he : e ∈ as ++ e :: bs := List.mem_append_right _ (List.mem_cons_self ..)
    have hlt : as.length < MAX_INVENTORY := by
      have hfits := hl.fits
      rw [List.length_append, List.length_cons] at hfits
      omega
    have hamount : b.amount e.wItem = (rgInventory as.length).nAmount.toNat := by
      rw [← hb.amount, amountOf_split has, if_pos rfl, hentry]
    have hatMost : (rgInventory as.length).nAmount.toNat ≤ 99 := hentry ▸ hb.atMost e he
    rw [addItemToInventory_found hn (ne_of_beq_false (hl.used e he)) hindex hlt
      (by rw [hentry]) hatMost, if_pos (hmem.mpr hlisted), if_pos (hmem.mpr hlisted), hamount]
    dsimp only
    by_cases hneg : n < 0
    · rw [if_pos hneg, if_pos hneg]
      exact ⟨rfl, KeepsBag.setAmount hl hb has (by omega)⟩
    · rw [if_neg hneg, if_neg hneg]
      exact ⟨rfl, KeepsBag.setAmount hl hb has (Nat.min_le_left _ _)⟩
  · have hnotListed : item ∉ b.listed := fun h => hlisted (hmem.mp h)
    rw [if_neg hnotListed, if_neg hnotListed, hcard]
    by_cases hitem : item = 0
    · rw [hitem, addItemToInventory_zero]
      simp only [ne_eq, not_true_eq_false, and_false, if_false, ite_self]
      exact ⟨trivial, l, hl, hb⟩
    obtain ⟨hindex, hfree⟩ := searchItem_missing hl hlisted
    rw [addItemToInventory_missing hitem hindex fun hi => by rw [hfree hi]; exact Ne.symm hitem]
    by_cases hneg : n < 0
    · rw [if_pos (.inl hneg), if_pos hneg]
      exact ⟨rfl, l, hl, hb⟩
    rw [if_neg hneg]
    by_cases hroom : l.length < MAX_INVENTORY
    · rw [if_neg (by omega), if_pos ⟨hroom, hitem⟩]
      have hnum : (BitVec.ofNat 16 (min 99 (max 1 n.toNat))).toNat = min 99 (max 1 n.toNat) := by
        rw [BitVec.toNat_ofNat]
        exact Nat.mod_eq_of_lt (by omega)
      have happend := KeepsBag.append hroom hl hb (x := { rgInventory l.length with
          wItem := item, nAmount := BitVec.ofNat 16 (min 99 (max 1 n.toNat)) }) hitem
        (by rw [hnum]; exact Nat.min_le_left _ _) (.inl hlisted)
      have hnone : b.amount item = 0 := by rw [← hb.amount, amountOf_unlisted hlisted]
      rw [hnum, hnone, Nat.zero_add] at happend
      exact ⟨rfl, _, happend⟩
    · rw [if_pos (.inr (Nat.le_of_not_lt hroom)), if_neg fun h => hroom h.1]
      exact ⟨rfl, l, hl, hb⟩

/-! ## The other calls -/

theorem getItemAmount_keeps {b : Bag} (h : KeepsBag rgInventory b) :
    getItemAmount rgInventory item = b.amount item := by
  obtain ⟨l, hl, hb⟩ := h
  rw [← hb.amount, getItemAmount]
  by_cases hlisted : item ∈ l.map INVENTORY.wItem
  · obtain ⟨as, e, bs, rfl, rfl, has⟩ := split_of_listed hlisted
    obtain ⟨hindex, hentry⟩ := searchItem_found hl rfl has
    have hlt : as.length < MAX_INVENTORY := by
      have hfits := hl.fits
      rw [List.length_append, List.length_cons] at hfits
      omega
    have hused : e.wItem ≠ 0 :=
      ne_of_beq_false (hl.used e (List.mem_append_right _ (List.mem_cons_self ..)))
    simp only [hindex, hentry]
    rw [if_pos ⟨hlt, hused⟩, amountOf_split has, if_pos rfl]
  · obtain ⟨hindex, hfree⟩ := searchItem_missing hl hlisted
    simp only [hindex]
    rw [if_neg fun h => h.2 (hfree h.1), amountOf_unlisted hlisted]
    rfl

/-- The entries that there is something of. -/
abbrev someLeft (e : INVENTORY) : Bool := e.nAmount > 0

theorem someLeft_iff (e : INVENTORY) : someLeft e = true ↔ 0 < e.nAmount.toNat := by
  rw [someLeft, decide_eq_true_iff, gt_iff_lt, BitVec.lt_def]
  rfl

theorem Lists.amountOf_eq {l : List INVENTORY} {b : Bag} (hb : Lists l b) {e : INVENTORY} (he : e ∈ l)
    (hsome : someLeft e = true) : amountOf l e.wItem = e.nAmount.toNat := by
  obtain ⟨as, e', bs, rfl, he', has⟩ := split_of_listed (List.mem_map_of_mem he)
  rw [amountOf_split (by rwa [he']), if_pos he'.symm]
  have hlater := hb.later
  simp only [List.pairwise_append, List.pairwise_cons, List.mem_append, List.mem_cons] at hlater he
  rcases he with he | rfl | he
  · exact absurd rfl (has e he)
  · rfl
  · -- an entry behind the first has nothing
    have hnone : e.nAmount = 0 := hlater.2.1.1 e he he'
    rw [someLeft_iff, hnone] at hsome
    exact absurd hsome (Nat.lt_irrefl 0)

theorem Lists.compress {l : List INVENTORY} {b : Bag} (hb : Lists l b) :
    Lists (l.filter someLeft) b.compress where
  listed := by
    have hnodup : ((l.filter someLeft).map INVENTORY.wItem).Nodup := by
      refine List.pairwise_map.mpr ((hb.later.filter _).imp_of_mem fun {e e'} he he' h heq => ?_)
      have hnone : e'.nAmount = 0 := h heq
      have hsome := (someLeft_iff e').mp (List.mem_filter.mp he').2
      rw [hnone] at hsome
      exact absurd hsome (Nat.lt_irrefl 0)
    refine (Multiset.Nodup.ext (Multiset.coe_nodup.mpr hnodup)
      ((Multiset.nodup_dedup _).filter _)).mpr fun item => ?_
    rw [Multiset.mem_coe, Multiset.mem_filter, Multiset.mem_dedup, ← hb.amount, ← hb.listed,
      Multiset.mem_coe]
    apply Iff.intro
    · intro h
      obtain ⟨e, he, rfl⟩ := List.mem_map.mp h
      obtain ⟨hmem, hsome⟩ := List.mem_filter.mp he
      rw [hb.amountOf_eq hmem hsome]
      exact ⟨List.mem_map_of_mem hmem, (someLeft_iff e).mp hsome⟩
    · rintro ⟨hmem, hpos⟩
      obtain ⟨as, e, bs, rfl, rfl, has⟩ := split_of_listed hmem
      rw [amountOf_split has, if_pos rfl] at hpos
      exact List.mem_map_of_mem (List.mem_filter.mpr
        ⟨List.mem_append_right _ (List.mem_cons_self ..), (someLeft_iff e).mpr hpos⟩)
  amount := by
    intro item
    rw [show b.compress.amount item = b.amount item from rfl, ← hb.amount]
    by_cases hmem : item ∈ (l.filter someLeft).map INVENTORY.wItem
    · obtain ⟨as, e, bs, hsplit, rfl, has⟩ := split_of_listed hmem
      have he : e ∈ l.filter someLeft := by
        rw [hsplit]
        exact List.mem_append_right _ (List.mem_cons_self ..)
      obtain ⟨hel, hsome⟩ := List.mem_filter.mp he
      rw [hsplit, amountOf_split has, if_pos rfl, hb.amountOf_eq hel hsome]
    · rw [amountOf_unlisted hmem]
      by_cases hlisted : item ∈ l.map INVENTORY.wItem
      · obtain ⟨as, e, bs, rfl, rfl, has⟩ := split_of_listed hlisted
        rw [amountOf_split has, if_pos rfl]
        refine (Nat.eq_zero_of_not_pos fun hpos => hmem ?_).symm
        exact List.mem_map_of_mem (List.mem_filter.mpr
          ⟨List.mem_append_right _ (List.mem_cons_self ..), (someLeft_iff e).mpr hpos⟩)
      · rw [amountOf_unlisted hlisted]
  atMost := fun e he => hb.atMost e (List.mem_filter.mp he).1
  later := hb.later.filter _

theorem compressInventory_keeps {b : Bag} {l : List INVENTORY}
    (h : Holds noItem MAX_INVENTORY rgInventory l) (hb : Lists l b) :
    Holds noItem MAX_INVENTORY (compressInventory rgInventory) (l.filter someLeft) ∧
      Lists (l.filter someLeft) b.compress := by
  have hrest := @Holds.compact _ noItem MAX_INVENTORY rgInventory l someLeft h
    { wItem := 0, nAmount := 0, nAmountInUse := 0 } rfl
  refine ⟨?_, hb.compress⟩
  rw [compressInventory]
  exact hrest

theorem addEquipped_keeps {equipped : List (BitVec 16)} :
    ∀ {rgInventory : Nat → INVENTORY} {l : List INVENTORY} {b : Bag}, 0 ∉ equipped →
      Holds noItem MAX_INVENTORY rgInventory l → Lists l b →
        KeepsBag (addEquipped equipped l.length rgInventory)
          { b with listed := b.listed + (equipped.take (MAX_INVENTORY - l.length) : List _) } := by
  induction equipped with
  | nil =>
      intro rgInventory l b _ hl hb
      rw [List.take_nil, Multiset.coe_nil, Multiset.add_zero]
      exact ⟨l, hl, hb⟩
  | cons w ws ih =>
      intro rgInventory l b hzero hl hb
      rw [List.mem_cons, not_or] at hzero
      rw [addEquipped]
      by_cases hroom : l.length < MAX_INVENTORY
      · obtain ⟨hl', hb'⟩ := KeepsBag.append hroom hl hb
          (x := { wItem := w, nAmount := 0, nAmountInUse := -1 }) (Ne.symm hzero.1)
          (Nat.zero_le _) (.inr rfl)
        have hsame : Function.update b.amount w (b.amount w + (0 : BitVec 16).toNat) = b.amount :=
          Function.update_eq_self w b.amount
        have hrest := ih hzero.2 hl' hb'
        rw [List.length_append, List.length_singleton, hsame] at hrest
        rw [if_pos hroom, show MAX_INVENTORY - l.length = MAX_INVENTORY - (l.length + 1) + 1 by omega,
          List.take_succ_cons]
        rw [← Multiset.cons_coe, Multiset.add_cons, ← Multiset.cons_add]
        exact hrest
      · have hfull : MAX_INVENTORY - l.length = 0 := by omega
        have hrest := ih hzero.2 hl hb
        rw [if_neg hroom, hfull]
        rwa [hfull] at hrest

theorem itemSelectMenuInit_keeps {b : Bag} {equipped : List (BitVec 16)} (hzero : 0 ∉ equipped)
    (h : KeepsBag rgInventory b) :
    KeepsBag (itemSelectMenuInit rgInventory equipped) (b.menu equipped) := by
  obtain ⟨l, hl, hb⟩ := h
  obtain ⟨hl', hb'⟩ := compressInventory_keeps hl hb
  have hcount : scan (fun e => e.wItem == 0) (compressInventory rgInventory) MAX_INVENTORY 0 =
      (l.filter someLeft).length := by
    have hnone : ∀ e ∈ l.filter someLeft, false = false := fun _ _ => rfl
    rw [← List.findIdx_eq_length.mpr hnone]
    exact hl'.scan (fun _ hx => hx) (fun _ hx => hx)
  have hcard : b.compress.listed.card = (l.filter someLeft).length := by
    rw [← hb'.listed, Multiset.coe_card, List.length_map]
  rw [itemSelectMenuInit, Bag.menu, hcount, hcard]
  exact addEquipped_keeps hzero hl' hb'

/-- A bag does not say how much of an item is in use. -/
theorem Lists.congr {l l' : List INVENTORY} {b : Bag}
    (hsame : l.map (fun e => (e.wItem, e.nAmount)) = l'.map (fun e => (e.wItem, e.nAmount)))
    (hb : Lists l b) : Lists l' b := by
  have hitems : ∀ l : List INVENTORY, l.map INVENTORY.wItem =
      (l.map fun e => (e.wItem, e.nAmount)).map Prod.fst := fun l => by
    rw [List.map_map]
    rfl
  have hamount : ∀ (l : List INVENTORY) (item : BitVec 16), amountOf l item =
      ((l.map fun e => (e.wItem, e.nAmount)).find? fun e => e.1 == item).elim 0
        fun e => e.2.toNat := fun l item => by
    rw [List.find?_map, amountOf, Function.comp_def]
    cases l.find? fun e => e.wItem == item <;> rfl
  refine ⟨?_, fun item => ?_, ?_, ?_⟩
  · rw [← hb.listed, hitems, hitems, hsame]
  · rw [← hb.amount, hamount, hamount, hsame]
  · have hall : ∀ e ∈ l.map (fun e => (e.wItem, e.nAmount)), e.2.toNat ≤ 99 :=
      List.forall_mem_map.mpr hb.atMost
    rw [hsame] at hall
    exact List.forall_mem_map.mp hall
  · have hall : (l.map fun e => (e.wItem, e.nAmount)).Pairwise
        fun e e' => e.1 = e'.1 → e'.2 = 0 := List.pairwise_map.mpr hb.later
    rw [hsame] at hall
    exact List.pairwise_map.mp hall

theorem setAmountInUse_keeps {b : Bag} {index : Nat} {n : BitVec 16} (h : KeepsBag rgInventory b) :
    KeepsBag (setAmountInUse rgInventory index n) b := by
  obtain ⟨l, hl, hb⟩ := h
  rw [setAmountInUse]
  by_cases hi : index < l.length
  · have hentry := hl.entry index hi
    have hused : noItem (rgInventory index) = false :=
      hl.used _ (hentry ▸ List.getElem_mem hi)
    refine ⟨_, hl.set index hi (x := { rgInventory index with nAmountInUse := n }) hused,
      hb.congr ?_⟩
    rw [List.map_set, hentry]
    refine List.ext_getElem (by simp) fun k hk _ => ?_
    rw [List.getElem_set]
    by_cases hki : index = k
    · subst hki
      rw [if_pos rfl, List.getElem_map]
    · rw [if_neg hki]
  · exact ⟨l, hl.setFree (Nat.le_of_not_lt hi) fun hN =>
      hl.rest index (Nat.le_of_not_lt hi) hN, hb⟩

end

/-! ## Runs -/

open InventoryOp in
theorem InventoryOp.step_keeps {rgInventory : Nat → INVENTORY} {b : Bag} {op : InventoryOp}
    (hvalid : op.Valid) (h : KeepsBag rgInventory b) :
    DetSystem.Agree KeepsBag (step rgInventory op) (b.step op) := by
  cases op with
  | add item n =>
      obtain ⟨hanswer, hkeeps⟩ := @addItemToInventory_keeps rgInventory item b n hvalid.2 h
      simp only [step, Bag.step, hanswer]
      exact .ok hkeeps
  | amount item =>
      simp only [step, Bag.step, getItemAmount_keeps h]
      exact .ok h
  | compress =>
      obtain ⟨l, hl, hb⟩ := h
      exact .ok ⟨_, compressInventory_keeps hl hb⟩
  | menu equipped => exact .ok (itemSelectMenuInit_keeps hvalid h)
  | use index n => exact .ok (setAmountInUse_keeps h)

/-- Whatever is removed and shown, and added 65436 at a time at most, in any order: an item can be
    had exactly as often as from a bag with room for 99 of each. -/
theorem run_refines_bag {rgInventory : Nat → INVENTORY} {b : Bag} (h : KeepsBag rgInventory b)
    (ops : List InventoryOp) (hvalid : ∀ op ∈ ops, op.Valid) :
    DetSystem.Agree KeepsBag (DetSystem.run InventoryOp.step rgInventory ops)
      (DetSystem.run Bag.step b ops) := by
  have hstep : ∀ rgInventory b op, KeepsBag rgInventory b → op.Valid →
      DetSystem.Agree KeepsBag (InventoryOp.step rgInventory op) (b.step op) :=
    fun _ _ _ hkeeps hop => InventoryOp.step_keeps hop hkeeps
  exact DetSystem.run_agree hstep ops _ _ h hvalid

/-- A new game starts with an empty inventory. -/
theorem keepsBag_empty :
    KeepsBag (fun _ => { wItem := 0, nAmount := 0, nAmountInUse := 0 }) Bag.empty :=
  ⟨[], holds_nil fun _ _ => rfl, rfl, fun _ => rfl, nofun, List.Pairwise.nil⟩

-- a menu shows the sword worn beside the one carried, and one sword can be sold
theorem run_refines_bag_sword :
    DetSystem.Agree KeepsBag
      (DetSystem.run InventoryOp.step (fun _ => { wItem := 0, nAmount := 0, nAmountInUse := 0 })
        [.add 200 0, .menu [200], .add 200 (-1), .add 200 (-65535), .compress, .amount 200])
      (DetSystem.run Bag.step Bag.empty
        [.add 200 0, .menu [200], .add 200 (-1), .add 200 (-65535), .compress, .amount 200]) := by
  refine run_refines_bag keepsBag_empty _ fun op hop => ?_
  simp only [List.mem_cons, List.not_mem_nil, or_false] at hop
  rcases hop with rfl | rfl | rfl | rfl | rfl | rfl <;> simp [InventoryOp.Valid]

end Nemu.Pal
