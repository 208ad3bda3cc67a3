/-
  Nemu.Pal.Inventory

  The inventory of `global/global.c`: `PAL_AddItemToInventory`, `PAL_GetItemAmount`,
  `PAL_CompressInventory`, with what `PAL_ItemSelectMenuInit` of `ui/itemmenu.c` and the
  fights do to it.  The table refines a bag of items: the entries that a menu adds for the
  equipment worn, several of one item among them, never change what there is.
-/

import Nemu.Lib.DetSystem
import Nemu.Lib.PrefixTable
import Mathlib.Data.Multiset.Dedup
import Mathlib.Data.Multiset.Filter
import Mathlib.Data.Multiset.AddSub

namespace Nemu.Pal

open PrefixTable

structure INVENTORY where
  wItem : BitVec 16
  nAmount : BitVec 16
  nAmountInUse : BitVec 16
deriving DecidableEq, Repr

def MAX_INVENTORY : Nat := 256

section

variable (rgInventory : Nat → INVENTORY)

-- the loops that look for an item stop at the first free place
def searchItem (wItem : BitVec 16) : Nat :=
  scan (fun e => e.wItem == wItem || e.wItem == 0) rgInventory MAX_INVENTORY 0

-- an amount is stored in 16 bits
def setAmount (index : Nat) (n : Int) : Nat → INVENTORY :=
  Function.update rgInventory index { rgInventory index with nAmount := BitVec.ofInt 16 n }

def addItemToInventory (wObjectID : BitVec 16) (iNum : Int) : Bool × (Nat → INVENTORY) :=
  if wObjectID = 0 then (false, rgInventory)
  else
    let iNum := if iNum = 0 then 1 else iNum
    let index := searchItem rgInventory wObjectID
    let fFound := decide (index < MAX_INVENTORY) && (rgInventory index).wItem == wObjectID
    if iNum > 0 then
      if index ≥ MAX_INVENTORY then (false, rgInventory)
      else if fFound then
        let rgInventory := setAmount rgInventory index ((rgInventory index).nAmount.toNat + iNum)
        if (rgInventory index).nAmount > 99 then (true, setAmount rgInventory index 99)
        else (true, rgInventory)
      else
        let rgInventory :=
          Function.update rgInventory index { rgInventory index with wItem := wObjectID }
        let iNum := if iNum > 99 then 99 else iNum
        (true, setAmount rgInventory index iNum)
    else if fFound then
      let iNum := -iNum
      if (rgInventory index).nAmount.toNat < iNum then (false, setAmount rgInventory index 0)
      else (true, setAmount rgInventory index ((rgInventory index).nAmount.toNat - iNum))
    else (false, rgInventory)

def getItemAmount (wItem : BitVec 16) : Int :=
  let i := searchItem rgInventory wItem
  if i < MAX_INVENTORY ∧ (rgInventory i).wItem ≠ 0 then (rgInventory i).nAmount.toNat else 0

def compressInventory : Nat → INVENTORY :=
  -- `j` and the table
  let r := compact (fun e => e.wItem == 0) (fun e => e.nAmount > 0) MAX_INVENTORY 0 0 rgInventory
  fill { wItem := 0, nAmount := 0, nAmountInUse := 0 } (MAX_INVENTORY - r.1) r.1 r.2

/-- The entries of equipment that can be used, while there is room. -/
def addEquipped : List (BitVec 16) → Nat → (Nat → INVENTORY) → (Nat → INVENTORY)
  | [], _, rgInventory => rgInventory
  | w :: ws, g_iNumInventory, rgInventory =>
      if g_iNumInventory < MAX_INVENTORY then
        addEquipped ws (g_iNumInventory + 1) (Function.update rgInventory g_iNumInventory
          { wItem := w, nAmount := 0, nAmountInUse := -1 })
      else addEquipped ws g_iNumInventory rgInventory

/-- `equipped` is what of the party's equipment can be used, and nothing in fights or in a
    menu of other items. -/
def itemSelectMenuInit (equipped : List (BitVec 16)) : Nat → INVENTORY :=
  let rgInventory := compressInventory rgInventory
  addEquipped equipped (scan (fun e => e.wItem == 0) rgInventory MAX_INVENTORY 0) rgInventory

/-- The fights count at a place how many of an item have been chosen. -/
def setAmountInUse (index : Nat) (n : BitVec 16) : Nat → INVENTORY :=
  Function.update rgInventory index { rgInventory index with nAmountInUse := n }

end

/-! ## Runs -/

inductive InventoryOp where
  | add (wObjectID : BitVec 16) (iNum : Int)
  | amount (wItem : BitVec 16)
  | compress
  | menu (equipped : List (BitVec 16))
  | use (index : Nat) (n : BitVec 16)

inductive InventoryAnswer where
  | none
  | bool (b : Bool)
  | int (n : Int)
deriving DecidableEq, Repr

namespace InventoryOp

/-- The scripts add a `SHORT` and remove a `WORD`.  Above 65436 a sum of 16 bits can wrap: adding
    65536 leaves an amount alone.  The items of the menu are numbered from 1. -/
def Valid : InventoryOp → Prop
  -- the lower bound is that of `iNum *= -1`
  | .add _ iNum => -2147483647 ≤ iNum ∧ iNum ≤ 65436
  | .menu equipped => 0 ∉ equipped
  | .use index _ => index < MAX_INVENTORY
  | _ => True

def step (rgInventory : Nat → INVENTORY) :
    InventoryOp → Except Empty (InventoryAnswer × (Nat → INVENTORY))
  | .add wObjectID iNum =>
      let (b, rgInventory) := addItemToInventory rgInventory wObjectID iNum
      .ok (.bool b, rgInventory)
  | .amount wItem => .ok (.int (getItemAmount rgInventory wItem), rgInventory)
  | .compress => .ok (.none, compressInventory rgInventory)
  | .menu equipped => .ok (.none, itemSelectMenuInit rgInventory equipped)
  | .use index n => .ok (.none, setAmountInUse rgInventory index n)

end InventoryOp

/-! ## The bag -/

/-- What there is of every item, and which items have entries: removing all of an item keeps
    its entry. -/
structure Bag where
  listed : Multiset (BitVec 16)
  amount : BitVec 16 → Nat

namespace Bag

def empty : Bag := { listed := 0, amount := fun _ => 0 }

def add (b : Bag) (item : BitVec 16) (n : Nat) : Bool × Bag :=
  if item ∈ b.listed then
    (true, { b with amount := Function.update b.amount item (min 99 (b.amount item + n)) })
  else if b.listed.card < MAX_INVENTORY ∧ item ≠ 0 then
    (true, { listed := item ::ₘ b.listed, amount := Function.update b.amount item (min 99 n) })
  else (false, b)

def remove (b : Bag) (item : BitVec 16) (n : Nat) : Bool × Bag :=
  if item ∈ b.listed then
    (decide (n ≤ b.amount item),
      { b with amount := Function.update b.amount item (b.amount item - n) })
  else (false, b)

/-- A number of none stands for one. -/
def change (b : Bag) (item : BitVec 16) (n : Int) : Bool × Bag :=
  if n < 0 then b.remove item (-n).toNat else b.add item (max 1 n.toNat)

/-- Every item there is has one entry. -/
def compress (b : Bag) : Bag :=
  { b with listed := b.listed.dedup.filter fun item => 0 < b.amount item }

def menu (b : Bag) (equipped : List (BitVec 16)) : Bag :=
  let b := b.compress
  { b with listed := b.listed + (equipped.take (MAX_INVENTORY - b.listed.card) : List _) }

def step (b : Bag) : InventoryOp → Except Empty (InventoryAnswer × Bag)
  | .add item n =>
      let (ok, b) := b.change item n
      .ok (.bool ok, b)
  | .amount item => .ok (.int (b.amount item), b)
  | .compress => .ok (.none, b.compress)
  | .menu equipped => .ok (.none, b.menu equipped)
  | .use _ _ => .ok (.none, b)

end Bag

end Nemu.Pal
