/-
  Nemu.Device.I8259Priority

  What the pair of controllers promises: the request registers hold exactly the
  lines raised and not yet acknowledged, the CPU is told the one of highest
  priority, and bit 2 of the master stands for the slave.

  `raise_step` keeps all of this.  `ack_step` keeps it too, unless the line it
  acknowledges is one of several pending slave lines: `i8259_ack_intr` clears bit
  2 of the master whether or not the slave has another request, and from then on
  the CPU is not told of it.  `staysRight_iff` is the exact statement about runs.
-/

import Nemu.Device.I8259
import Nemu.Lib.Outcome
import Nemu.Lib.Priority
import Mathlib.Data.List.Find

namespace Nemu

open Outcome Priority

/-- The lines by priority: those of the slave stand in the place of line 2. -/
def priority : List Nat := [0, 1] ++ (List.range 8).map (8 + ·) ++ [3, 4, 5, 6, 7]

namespace I8259Pair

/-! ## The property -/

-- is there a request for line `n` in the request registers?
def requested (p : I8259Pair) (n : Nat) : Bool :=
  if n < 8 then p.master.IRR.getLsbD n else p.slave.IRR.getLsbD (n - 8)

/-- The lines recorded as pending. -/
def recorded (p : I8259Pair) : Finset Nat := priority.toFinset.filter (fun n => p.requested n = true)

def step (p : I8259Pair) : Event Nat → Except Abort I8259Pair
  | .raise n => p.raiseIntr n
  | .ack => p.ackIntr

/-- The controllers have recorded the pending lines `P`, report the first of them, and bit
    2 of the master says whether the slave has a request. -/
structure Right (p : I8259Pair) (P : Finset Nat) : Prop where
  recorded : p.recorded = P
  query : P.Nonempty → ∃ n, top priority P = some n ∧ p.queryIntr = BitVec.ofNat 8 (32 + n)
  cascade : p.master.IRR.getLsbD 2 = true ↔ p.slave.IRR ≠ 0

/-- Everything is right in every state of the run, and every acknowledgement clears the
    line that was reported and no other. -/
def StaysRight : I8259Pair → Finset Nat → List (Event Nat) → Prop
  | p, P, [] => p.Right P
  | p, P, e :: es => p.Right P ∧ ∃ p', p.step e = .ok p' ∧
      (e = .ack → p'.recorded = p.recorded.erase (p.queryIntr.toNat - 32)) ∧
      StaysRight p' (pend priority P e) es

/-- No acknowledgement takes a line of the slave while the slave has another one. -/
def AcksAlone : Finset Nat → List (Event Nat) → Prop
  | _, [] => True
  | P, e :: es =>
      (e = .ack → ∀ n m, top priority P = some n → 8 ≤ n → m ∈ P → 8 ≤ m → m = n) ∧
      AcksAlone (pend priority P e) es

/-! ## Registers and lines -/

-- the table holds the first set bit of its index
theorem ffo_eq (x : BitVec 8) :
    ffo x = ((List.range 8).find? x.getLsbD).elim NO_INTR (fun i => (i : Int)) := by
  revert x
  decide +kernel

theorem mem_priority {n : Nat} : n ∈ priority ↔ n < 16 ∧ n ≠ 2 := by
  apply Iff.intro
  · intro h
    have hall : ∀ n ∈ priority, n < 16 ∧ n ≠ 2 := by decide
    exact hall n h
  · have hall : ∀ n < 16, n ≠ 2 → n ∈ priority := by decide
    exact fun h => hall n h.1 h.2

theorem mem_recorded {p : I8259Pair} {n : Nat} :
    n ∈ p.recorded ↔ n ∈ priority ∧ p.requested n = true := by
  rw [recorded, Finset.mem_filter, List.mem_toFinset]

theorem getLsbD_irqMask (n : Nat) {m : Nat} (hm : m < 8) :
    (irqMask n).getLsbD m = decide (m = n) := by
  rw [irqMask, Int.toNat_natCast, BitVec.getLsbD_shiftLeft, BitVec.getLsbD_one,
    decide_eq_true hm, Bool.true_and]
  by_cases hlt : m < n
  · have hne : ¬ m = n := by omega
    simp [hlt, hne]
  · have hiff : m - n = 0 ↔ m = n := by omega
    simp [hlt, hiff]

-- the slave finds a line exactly if it has a request
theorem find_eq_none_iff (x : BitVec 8) :
    (List.range 8).find? x.getLsbD = none ↔ x = 0 := by
  rw [List.find?_eq_none]
  apply Iff.intro
  · intro h
    apply BitVec.eq_of_getLsbD_eq
    intro i hi
    simpa using h i (List.mem_range.mpr hi)
  · rintro rfl i _
    simp

theorem find_range_eight (m : Nat → Bool) :
    (List.range 8).find? m
      = (([0, 1].find? m).or (if m 2 = true then some 2 else none)).or ([3, 4, 5, 6, 7].find? m) := by
  have hrange : List.range 8 = [0, 1] ++ [2] ++ [3, 4, 5, 6, 7] := rfl
  have htwo : [2].find? m = if m 2 = true then some 2 else none := by
    cases h2 : m 2 <;> simp [h2]
  rw [hrange, List.find?_append, List.find?_append, htwo]

/-- The first line of two cascaded sets of requests: where the master finds line 2, the
    slave says which of its own lines is meant. -/
theorem find_cascaded {r m s : Nat → Bool} (hm : ∀ n < 8, r n = m n) (hs : r ∘ (8 + ·) = s)
    (hcascade : m 2 = true ↔ (List.range 8).find? s ≠ none) :
    priority.find? r
      = match (List.range 8).find? m with
        | none => none
        | some i => if i = 2 then ((List.range 8).find? s).map (8 + ·) else some i := by
  have hlow : [0, 1].find? r = [0, 1].find? m := by simp [List.find?_cons, hm]
  have hhigh : [3, 4, 5, 6, 7].find? r = [3, 4, 5, 6, 7].find? m := by simp [List.find?_cons, hm]
  rw [priority, List.find?_append, List.find?_append, List.find?_map, hs, hlow, hhigh,
    find_range_eight m]
  generalize (List.range 8).find? s = t at hcascade ⊢
  cases h01 : [0, 1].find? m with
  | some i =>
      -- lines 0 and 1 stand before the slave
      have hi : i ≠ 2 := by
        have hall : ∀ i ∈ [0, 1], i ≠ 2 := by decide
        exact hall i (List.mem_of_find?_eq_some h01)
      simp [hi]
  | none =>
      by_cases h2 : m 2 = true
      · -- the slave has a request
        cases t with
        | none => exact absurd rfl (hcascade.mp h2)
        | some j => simp [h2]
      · -- it has none, and the lines behind it are next
        have hnone : t = none := not_not.mp fun h => h2 (hcascade.mpr h)
        cases h37 : [3, 4, 5, 6, 7].find? m with
        | none => simp [h2, hnone]
        | some i =>
            have hi : i ≠ 2 := by
              have hall : ∀ i ∈ [3, 4, 5, 6, 7], i ≠ 2 := by decide
              exact hall i (List.mem_of_find?_eq_some h37)
            simp [h2, hnone, hi]

/-- The first requested line of the pair, by the two registers. -/
theorem find_requested (p : I8259Pair)
    (hcascade : p.master.IRR.getLsbD 2 = true ↔ p.slave.IRR ≠ 0) :
    priority.find? p.requested
      = match (List.range 8).find? p.master.IRR.getLsbD with
        | none => none
        | some i =>
            if i = 2 then ((List.range 8).find? p.slave.IRR.getLsbD).map (8 + ·) else some i := by
  apply find_cascaded
  · exact fun n hn => if_pos hn
  · funext j
    show (if 8 + j < 8 then _ else p.slave.IRR.getLsbD (8 + j - 8)) = _
    rw [if_neg (by omega), Nat.add_sub_cancel_left]
  · rw [hcascade, Ne, Ne, find_eq_none_iff]

theorem top_recorded (p : I8259Pair) : top priority p.recorded = priority.find? p.requested := by
  apply List.find?_congr
  intro n hn
  rw [Bool.eq_iff_iff, decide_eq_true_eq, mem_recorded]
  exact and_iff_right hn

/-! ## Telling the CPU -/

/-- What the rest of a step needs of the registers, once the requests are set: nothing is
    masked, bit 2 stands for the slave, and the slave knows its first line. -/
structure Settled (p : I8259Pair) : Prop where
  masterIMR : p.master.IMR = 0
  slaveIMR : p.slave.IMR = 0
  cascade : p.master.IRR.getLsbD 2 = true ↔ p.slave.IRR ≠ 0
  slaveTop : p.slave.IRR ≠ 0 → p.slave.highest_irq = ffo p.slave.IRR

/-- The invariant of a run: the state is settled and reports what is pending. -/
structure Tracks (p : I8259Pair) (P : Finset Nat) : Prop where
  settled : p.Settled
  right : p.Right P

theorem unmasked (x : BitVec 8) : x &&& ~~~(0 : BitVec 8) = x := by
  rw [show (0 : BitVec 8) = 0#8 from rfl, BitVec.not_zero, BitVec.and_allOnes]

-- a line number, as `intr_NO` holds it
theorem ofInt_line (n : Nat) : BitVec.ofInt 8 ((n : Int) + IRQ_BASE) = BitVec.ofNat 8 (32 + n) := by
  have hcast : (n : Int) + IRQ_BASE = ((32 + n : Nat) : Int) := by
    rw [IRQ_BASE]
    omega
  rw [hcast, BitVec.ofInt_natCast]

/-- A settled state that reports what it has recorded, whatever else changed. -/
theorem Settled.tracks {p : I8259Pair} (hp : p.Settled) (v : BitVec 8) (b : Bool)
    (hv : p.recorded.Nonempty → ∃ n, top priority p.recorded = some n ∧ v = BitVec.ofNat 8 (32 + n)) :
    Tracks { p.findMaster with intr_NO := v, INTR := b } p.recorded where
  settled := ⟨hp.masterIMR, hp.slaveIMR, hp.cascade, hp.slaveTop⟩
  right := ⟨rfl, hv, hp.cascade⟩

/-- From a settled state `do_i8259` completes, keeps the requests, and reports the first
    recorded line. -/
theorem doI8259_settled {p : I8259Pair} (hp : p.Settled) :
    ∃ p', doI8259 p.findMaster = .ok p' ∧ p'.Tracks p.recorded := by
  have hfind := find_requested p hp.cascade
  rw [← top_recorded] at hfind
  have hmaster : p.findMaster.master.highest_irq
      = ((List.range 8).find? p.master.IRR.getLsbD).elim NO_INTR (fun i => (i : Int)) := by
    show ffo (p.master.IRR &&& ~~~p.master.IMR) = _
    rw [hp.masterIMR, unmasked, ffo_eq]
  have hslave : p.findMaster.slave = p.slave := rfl
  rw [doI8259, hmaster, hslave]
  cases hm : (List.range 8).find? p.master.IRR.getLsbD with
  | none =>
      -- no request anywhere: INTR is lowered
      rw [hm] at hfind
      refine ⟨_, if_pos rfl, hp.tracks _ _ fun hne => ?_⟩
      have hlines : ∀ n ∈ p.recorded, n ∈ priority := fun n hn => (mem_recorded.mp hn).1
      obtain ⟨n, hn⟩ := top_of_nonempty hlines hne
      rw [hfind] at hn
      exact nomatch hn
  | some i =>
      have hirq : ¬ (i : Int) = NO_INTR := by
        rw [NO_INTR]
        omega
      rw [hm] at hfind
      rw [Option.elim_some, if_neg hirq]
      by_cases h2 : i = 2
      · -- the slave speaks
        subst h2
        have hbit : p.master.IRR.getLsbD 2 = true := List.find?_some hm
        have hne := hp.cascade.mp hbit
        have hsome : (List.range 8).find? p.slave.IRR.getLsbD ≠ none := by
          rw [Ne, find_eq_none_iff]
          exact hne
        obtain ⟨j, hj⟩ := Option.ne_none_iff_exists'.mp hsome
        have htop : p.slave.highest_irq = (j : Int) := by
          rw [hp.slaveTop hne, ffo_eq, hj]
          rfl
        have hirq' : decide (p.slave.highest_irq ≠ NO_INTR) = true := by
          rw [htop, decide_eq_true_eq, NO_INTR]
          omega
        have hcast : (8 : Int) + (j : Int) = ((8 + j : Nat) : Int) := by omega
        have htwo : ((2 : Nat) : Int) = 2 := rfl
        rw [if_pos htwo, hirq', cAssert_true, ok_bind, htop, hcast]
        refine ⟨_, rfl, hp.tracks _ _ fun _ => ⟨8 + j, ?_, ofInt_line (8 + j)⟩⟩
        rw [hfind, hj]
        rfl
      · have h2' : ¬ (i : Int) = 2 := by omega
        rw [if_neg h2']
        refine ⟨_, rfl, hp.tracks _ _ fun _ => ⟨i, ?_, ofInt_line i⟩⟩
        rw [hfind]
        exact if_neg h2

/-! ## Setting and clearing requests -/

theorem getLsbD_set (x : BitVec 8) (n : Nat) {m : Nat} (hm : m < 8) :
    (x ||| irqMask n).getLsbD m = (x.getLsbD m || decide (m = n)) := by
  rw [BitVec.getLsbD_or, getLsbD_irqMask n hm]

theorem getLsbD_clear (x : BitVec 8) (n : Nat) {m : Nat} (hm : m < 8) :
    (x &&& ~~~irqMask n).getLsbD m = (x.getLsbD m && !decide (m = n)) := by
  rw [BitVec.getLsbD_and, BitVec.getLsbD_not, getLsbD_irqMask n hm, decide_eq_true hm,
    Bool.true_and]

-- the lines of the master other than 2, and those of the slave
theorem line_cases {P : Nat → Prop} (hlow : ∀ m < 8, m ≠ 2 → P m) (hhigh : ∀ m < 8, P (8 + m)) :
    ∀ m ∈ priority, P m := by
  intro m hm
  obtain ⟨hlt, hne⟩ := mem_priority.mp hm
  by_cases h : m < 8
  · exact hlow m h hne
  · have hsplit : 8 + (m - 8) = m := by omega
    rw [← hsplit]
    exact hhigh (m - 8) (by omega)

theorem requested_low (p : I8259Pair) {m : Nat} (hm : m < 8) :
    p.requested m = p.master.IRR.getLsbD m := if_pos hm

theorem requested_high (p : I8259Pair) (m : Nat) :
    p.requested (8 + m) = p.slave.IRR.getLsbD m := by
  rw [requested, if_neg (by omega), Nat.add_sub_cancel_left]

/-- Requests that differ from those of `p` in the line `n` only, which is now set. -/
theorem recorded_insert {p q : I8259Pair} {n : Nat} (hn : n ∈ priority)
    (h : ∀ m ∈ priority, q.requested m = (p.requested m || decide (m = n))) :
    q.recorded = insert n p.recorded := by
  ext m
  rw [Finset.mem_insert, mem_recorded, mem_recorded]
  apply Iff.intro
  · rintro ⟨hm, hreq⟩
    rw [h m hm, Bool.or_eq_true, decide_eq_true_eq] at hreq
    rcases hreq with hreq | rfl
    · exact .inr ⟨hm, hreq⟩
    · exact .inl rfl
  · rintro (rfl | ⟨hm, hreq⟩)
    · exact ⟨hn, by rw [h m hn]; simp⟩
    · exact ⟨hm, by rw [h m hm, hreq]; rfl⟩

/-- The same for a line that is now clear. -/
theorem recorded_erase {p q : I8259Pair} {n : Nat}
    (h : ∀ m ∈ priority, q.requested m = (p.requested m && !decide (m = n))) :
    q.recorded = p.recorded.erase n := by
  ext m
  rw [Finset.mem_erase, mem_recorded, mem_recorded]
  apply Iff.intro
  · rintro ⟨hm, hreq⟩
    rw [h m hm] at hreq
    simp only [Bool.and_eq_true, Bool.not_eq_true', decide_eq_false_iff_not] at hreq
    exact ⟨hreq.2, hm, hreq.1⟩
  · rintro ⟨hne, hm, hreq⟩
    refine ⟨hm, ?_⟩
    rw [h m hm, hreq, decide_eq_false hne]
    rfl

/-! ## One event -/

section Step

variable {p : I8259Pair} {P : Finset Nat} {n : Nat}

/-- The registers after a line of the master was raised. -/
def masterRaised (p : I8259Pair) (n : Nat) : I8259Pair :=
  p.setMasterIRR (p.master.IRR ||| irqMask n)

theorem masterRaised_recorded (p : I8259Pair) (hn : n ∈ priority) (hlow : n < 8) :
    (p.masterRaised n).recorded = insert n p.recorded := by
  apply recorded_insert hn
  apply line_cases
  · intro m hm _
    rw [requested_low _ hm, requested_low _ hm]
    exact getLsbD_set _ n hm
  · intro m hm
    rw [requested_high, requested_high, decide_eq_false (by omega), Bool.or_false]
    rfl

-- bit 2 and the slave stay as they are
theorem masterRaised_settled (hs : p.Settled) (hne : n ≠ 2) : (p.masterRaised n).Settled := by
  refine ⟨hs.masterIMR, hs.slaveIMR, ?_, hs.slaveTop⟩
  show (p.master.IRR ||| irqMask n).getLsbD 2 = true ↔ _
  rw [getLsbD_set _ n (by decide), decide_eq_false (fun h => hne h.symm), Bool.or_false]
  exact hs.cascade

/-- The registers after the line `8 + k` of the slave was raised. -/
def slaveRaised (p : I8259Pair) (k : Nat) : I8259Pair :=
  ((p.setSlaveIRR (p.slave.IRR ||| irqMask k)).setMasterIRR
    (p.master.IRR ||| irqMask (2 : Nat))).findSlave

theorem slaveRaised_recorded (p : I8259Pair) {k : Nat} (hn : 8 + k ∈ priority) (hk : k < 8) :
    (p.slaveRaised k).recorded = insert (8 + k) p.recorded := by
  apply recorded_insert hn
  apply line_cases
  · intro m hm hm2
    rw [requested_low _ hm, requested_low _ hm, decide_eq_false (by omega), Bool.or_false]
    show (p.master.IRR ||| irqMask (2 : Nat)).getLsbD m = _
    rw [getLsbD_set _ 2 hm, decide_eq_false hm2, Bool.or_false]
  · intro m hm
    rw [requested_high, requested_high]
    have hiff : decide (8 + m = 8 + k) = decide (m = k) := decide_eq_decide.mpr (by omega)
    rw [hiff]
    exact getLsbD_set _ k hm

-- its register is not zero, and bit 2 is set
theorem slaveRaised_settled (hs : p.Settled) {k : Nat} (hk : k < 8) : (p.slaveRaised k).Settled := by
  have hnonzero : p.slave.IRR ||| irqMask k ≠ 0 := by
    intro hzero
    have hbit := getLsbD_set p.slave.IRR k hk
    rw [hzero] at hbit
    simp at hbit
  refine ⟨hs.masterIMR, hs.slaveIMR, iff_of_true ?_ hnonzero, fun _ => ?_⟩
  · show (p.master.IRR ||| irqMask (2 : Nat)).getLsbD 2 = true
    rw [getLsbD_set _ 2 (by decide)]
    simp
  · show ffo ((p.slave.IRR ||| irqMask k) &&& ~~~p.slave.IMR) = _
    rw [hs.slaveIMR, unmasked]
    rfl

/-- A raised line is recorded, and everything stays right. -/
theorem raise_step (h : p.Tracks P) (hn : n ∈ priority) :
    ∃ p', p.step (.raise n) = .ok p' ∧ p'.Tracks (insert n P) := by
  obtain ⟨hlt, hne⟩ := mem_priority.mp hn
  have hassert : decide (0 ≤ (n : Int) ∧ (n : Int) < 16) = true := by
    rw [decide_eq_true_eq]
    omega
  rw [step, raiseIntr, hassert, cAssert_true, ok_bind, ← h.right.recorded]
  by_cases hlow : n < 8
  · rw [if_pos (by omega), ← p.masterRaised_recorded hn hlow]
    exact doI8259_settled (masterRaised_settled h.settled hne)
  · rw [if_neg (by omega)]
    obtain ⟨k, rfl⟩ : ∃ k, n = 8 + k := ⟨n - 8, by omega⟩
    have hk : k < 8 := by omega
    have hcast : ((8 + k : Nat) : Int) - 8 = (k : Int) := by omega
    rw [hcast, ← p.slaveRaised_recorded hn hk]
    exact doI8259_settled (slaveRaised_settled h.settled hk)

/-- What the CPU reads while `n` is the first pending line. -/
theorem Right.intr_NO (h : p.Right P) (htop : top priority P = some n) :
    p.intr_NO.toNat = 32 + n := by
  obtain ⟨m, hm, hquery⟩ := h.query ⟨n, top_mem htop⟩
  obtain rfl : n = m := Option.some.inj (htop.symm.trans hm)
  have hlt := (mem_priority.mp (top_mem_order htop)).1
  rw [show p.intr_NO = BitVec.ofNat 8 (32 + n) from hquery, BitVec.toNat_ofNat]
  exact Nat.mod_eq_of_lt (by omega)

-- the acknowledgement of the line `n` begins by finding `n` in `intr_NO`
theorem ackIntr_line (h : p.intr_NO.toNat = 32 + n) :
    p.ackIntr =
      if (n : Int) < 8 then
        doI8259 (p.setMasterIRR (p.master.IRR &&& ~~~irqMask n)).findMaster
      else
        doI8259 ((p.setSlaveIRR (p.slave.IRR &&& ~~~irqMask ((n : Int) - 8))).setMasterIRR
          (p.master.IRR &&& ~~~irqMask (2 : Nat))).findSlave.findMaster := by
  have hno : ¬ (p.intr_NO.toNat : Int) = NO_INTR := by
    rw [NO_INTR]
    omega
  have hline : (p.intr_NO.toNat : Int) - IRQ_BASE = (n : Int) := by
    rw [h, IRQ_BASE]
    omega
  rw [ackIntr, if_neg hno, hline]
  exact if_neg (by omega)

/-- An acknowledged line of the master is cleared, and everything stays right. -/
theorem ack_master_step (h : p.Tracks P) (htop : top priority P = some n) (hlow : n < 8) :
    ∃ p', p.step .ack = .ok p' ∧ p'.Tracks (P.erase n) := by
  have hno := h.right.intr_NO htop
  obtain ⟨⟨hmimr, hsimr, hcascade, hslave⟩, hrec, -, -⟩ := h
  have hne := (mem_priority.mp (top_mem_order htop)).2
  have hclear : (p.setMasterIRR (p.master.IRR &&& ~~~irqMask n)).recorded = p.recorded.erase n := by
    apply recorded_erase
    apply line_cases
    · intro m hm _
      rw [requested_low _ hm, requested_low _ hm]
      exact getLsbD_clear _ n hm
    · intro m hm
      rw [requested_high, requested_high, decide_eq_false (by omega), Bool.not_false,
        Bool.and_true]
      rfl
  have hsettled : (p.setMasterIRR (p.master.IRR &&& ~~~irqMask n)).Settled := by
    refine ⟨hmimr, hsimr, ?_, hslave⟩
    show (p.master.IRR &&& ~~~irqMask n).getLsbD 2 = true ↔ _
    rw [getLsbD_clear _ n (by decide), decide_eq_false (fun h => hne h.symm), Bool.not_false,
      Bool.and_true]
    exact hcascade
  rw [step, ackIntr_line hno, if_pos (by omega), ← hrec, ← hclear]
  exact doI8259_settled hsettled

/-- The registers after the line `8 + k` of the slave was acknowledged. -/
def slaveAcked (p : I8259Pair) (k : Nat) : I8259Pair :=
  ((p.setSlaveIRR (p.slave.IRR &&& ~~~irqMask k)).setMasterIRR
    (p.master.IRR &&& ~~~irqMask (2 : Nat))).findSlave

theorem ack_slave_run {k : Nat} (h : p.Right P) (htop : top priority P = some (8 + k)) :
    p.step .ack = doI8259 (p.slaveAcked k).findMaster := by
  have hcast : ((8 + k : Nat) : Int) - 8 = (k : Int) := by omega
  rw [step, ackIntr_line (h.intr_NO htop), if_neg (by omega), hcast]
  rfl

theorem slaveAcked_recorded (p : I8259Pair) {k : Nat} (hk : k < 8) :
    (p.slaveAcked k).recorded = p.recorded.erase (8 + k) := by
  apply recorded_erase
  apply line_cases
  · intro m hm hm2
    rw [requested_low _ hm, requested_low _ hm, decide_eq_false (by omega), Bool.not_false,
      Bool.and_true]
    show (p.master.IRR &&& ~~~irqMask (2 : Nat)).getLsbD m = _
    rw [getLsbD_clear _ 2 hm, decide_eq_false hm2, Bool.not_false, Bool.and_true]
  · intro m hm
    rw [requested_high, requested_high]
    have hiff : decide (8 + m = 8 + k) = decide (m = k) := decide_eq_decide.mpr (by omega)
    rw [hiff]
    exact getLsbD_clear _ k hm

-- bit 2 is cleared unconditionally
theorem slaveAcked_bit_two (p : I8259Pair) (k : Nat) :
    (p.slaveAcked k).master.IRR.getLsbD 2 = false := by
  show (p.master.IRR &&& ~~~irqMask (2 : Nat)).getLsbD 2 = false
  rw [getLsbD_clear _ 2 (by decide)]
  simp

/-- The slave is left without request exactly if it had no other. -/
theorem slaveAcked_alone_iff (p : I8259Pair) (k : Nat) :
    (p.slaveAcked k).slave.IRR = 0 ↔ ∀ m ∈ p.recorded, 8 ≤ m → m = 8 + k := by
  show p.slave.IRR &&& ~~~irqMask k = 0 ↔ _
  apply Iff.intro
  · intro hzero m hm hhigh
    obtain ⟨hmem, hreq⟩ := mem_recorded.mp hm
    obtain ⟨j, rfl⟩ : ∃ j, m = 8 + j := ⟨m - 8, by omega⟩
    have hj : j < 8 := by
      have hlt := (mem_priority.mp hmem).1
      omega
    rw [requested_high] at hreq
    have hbit := getLsbD_clear p.slave.IRR k hj
    rw [hzero, hreq] at hbit
    simp at hbit
    omega
  · intro hall
    apply BitVec.eq_of_getLsbD_eq
    intro j hj
    rw [getLsbD_clear _ k hj]
    cases hreq : p.slave.IRR.getLsbD j with
    | false => simp
    | true =>
        have hmem : 8 + j ∈ p.recorded :=
          mem_recorded.mpr ⟨mem_priority.mpr ⟨by omega, by omega⟩, by rw [requested_high, hreq]⟩
        have hjk : j = k := by
          have heq := hall (8 + j) hmem (by omega)
          omega
        simp [hjk]

/-- An acknowledged line of the slave, with no other request there: everything stays
    right. -/
theorem ack_slave_step {k : Nat} (h : p.Tracks P) (htop : top priority P = some (8 + k))
    (halone : ∀ m ∈ P, 8 ≤ m → m = 8 + k) :
    ∃ p', p.step .ack = .ok p' ∧ p'.Tracks (P.erase (8 + k)) := by
  have hk : k < 8 := by
    have hlt := (mem_priority.mp (top_mem_order htop)).1
    omega
  have hrec := h.right.recorded
  rw [← hrec] at halone
  have hzero := (p.slaveAcked_alone_iff k).mpr halone
  have hsettled : (p.slaveAcked k).Settled := by
    refine ⟨h.settled.masterIMR, h.settled.slaveIMR, ?_, fun hne => absurd hzero hne⟩
    rw [slaveAcked_bit_two]
    exact iff_of_false (by decide) (not_not_intro hzero)
  rw [ack_slave_run h.right htop, ← hrec, ← p.slaveAcked_recorded hk]
  exact doI8259_settled hsettled

theorem doI8259_keeps {q q' : I8259Pair} (h : doI8259 q = .ok q') :
    q'.master = q.master ∧ q'.slave = q.slave := by
  simp only [doI8259] at h
  split at h
  · cases h
    exact ⟨rfl, rfl⟩
  · split at h
    · obtain ⟨u, -, hq⟩ := bind_eq_ok.mp h
      cases hq
      exact ⟨rfl, rfl⟩
    · cases h
      exact ⟨rfl, rfl⟩

/-- With another request there, the slave is cut off: no set of lines is right about the
    state that follows. -/
theorem ack_slave_loses {k : Nat} {p' : I8259Pair} (h : p.Right P)
    (htop : top priority P = some (8 + k)) (hmany : ¬ ∀ m ∈ P, 8 ≤ m → m = 8 + k)
    (hrun : p.step .ack = .ok p') (Q : Finset Nat) : ¬ p'.Right Q := by
  rw [ack_slave_run h htop] at hrun
  obtain ⟨hmaster, hslave⟩ := doI8259_keeps hrun
  rw [← h.recorded, ← slaveAcked_alone_iff] at hmany
  intro hright
  have hbit := p.slaveAcked_bit_two k
  have hcascade := hright.cascade
  rw [hmaster, hslave] at hcascade
  have htrue : (p.slaveAcked k).master.IRR.getLsbD 2 = true := hcascade.mpr hmany
  rw [hbit] at htrue
  exact nomatch htrue

/-- The acknowledgement takes a line of the master or the only one of the slave. -/
def AckAlone (P : Finset Nat) (n : Nat) : Prop := 8 ≤ n → ∀ m ∈ P, 8 ≤ m → m = n

theorem ack_step (h : p.Tracks P) (htop : top priority P = some n) (halone : AckAlone P n) :
    ∃ p', p.step .ack = .ok p' ∧ p'.Tracks (P.erase n) := by
  by_cases hlow : n < 8
  · exact ack_master_step h htop hlow
  · obtain ⟨k, rfl⟩ : ∃ k, n = 8 + k := ⟨n - 8, by omega⟩
    exact ack_slave_step h htop (halone (by omega))

/-- An acknowledgement that leaves a right state was one of these. -/
theorem ackAlone_of_right {p' : I8259Pair} (h : p.Right P) (htop : top priority P = some n)
    (hrun : p.step .ack = .ok p') {Q : Finset Nat} (hright : p'.Right Q) : AckAlone P n := by
  intro hhigh
  obtain ⟨k, rfl⟩ : ∃ k, n = 8 + k := ⟨n - 8, by omega⟩
  by_contra hmany
  exact ack_slave_loses h htop hmany hrun Q hright

end Step

/-! ## Runs -/

-- the controllers as they start have no request
theorem init_tracks : init.Tracks ∅ := by
  refine ⟨⟨rfl, rfl, ?_, fun h => absurd rfl h⟩, ?_, fun h => ?_, ?_⟩
  · exact iff_of_false (by decide) (not_not_intro rfl)
  · have hnone : ∀ n ∈ priority, ¬ init.requested n = true := by decide
    rw [recorded, Finset.filter_eq_empty_iff]
    exact fun n hn => hnone n (List.mem_toFinset.mp hn)
  · exact absurd h Finset.not_nonempty_empty
  · exact iff_of_false (by decide) (not_not_intro rfl)

theorem staysRight_iff_from (es : List (Event Nat)) : ∀ {p : I8259Pair} {P : Finset Nat},
    p.Tracks P → Served priority P es → (StaysRight p P es ↔ AcksAlone P es) := by
  induction es with
  | nil => exact fun h _ => iff_of_true h.right trivial
  | cons e es ih =>
      intro p P h hserved
      cases e with
      | raise n =>
          obtain ⟨hn, hrest⟩ := hserved
          obtain ⟨p', hrun, htracks⟩ := raise_step h hn
          have hnext := ih (P := pend priority P (.raise n)) htracks hrest
          apply Iff.intro
          · rintro ⟨-, p'', hrun', -, hright⟩
            rw [hrun] at hrun'
            cases hrun'
            exact ⟨nofun, hnext.mp hright⟩
          · rintro ⟨-, halone⟩
            exact ⟨h.right, p', hrun, nofun, hnext.mpr halone⟩
      | ack =>
          obtain ⟨hne, hrest⟩ := hserved
          have hsub : ∀ n ∈ P, n ∈ priority := by
            intro n hn
            rw [← h.right.recorded] at hn
            exact (mem_recorded.mp hn).1
          obtain ⟨n, htop⟩ := top_of_nonempty hsub hne
          rw [pend_ack htop] at hrest
          apply Iff.intro
          · rintro ⟨-, p', hrun, -, hright⟩
            have hhead : p'.Right (pend priority P .ack) := by
              cases es with
              | nil => exact hright
              | cons _ _ => exact hright.1
            have halone := ackAlone_of_right h.right htop hrun hhead
            obtain ⟨p'', hrun', htracks⟩ := ack_step h htop halone
            rw [hrun] at hrun'
            cases hrun'
            rw [pend_ack htop] at hright
            refine ⟨?_, ?_⟩
            · intro _ n' m htop' hhigh hm hm8
              obtain rfl : n = n' := Option.some.inj (htop.symm.trans htop')
              exact halone hhigh m hm hm8
            · rw [pend_ack htop]
              exact (ih htracks hrest).mp hright
          · rintro ⟨halone, hrest'⟩
            obtain ⟨p', hrun, htracks⟩ := ack_step h htop fun hhigh m hm hm8 =>
              halone rfl n m htop hhigh hm hm8
            refine ⟨h.right, p', hrun, fun _ => ?_, ?_⟩
            · have hline : p.queryIntr.toNat - 32 = n := by
                rw [queryIntr, h.right.intr_NO htop]
                omega
              rw [htracks.right.recorded, h.right.recorded, hline]
            · rw [pend_ack htop] at hrest' ⊢
              exact (ih htracks hrest).mpr hrest'

/-- **Interrupt controller.** From the start of the program, a sequence of raised lines and
    acknowledgements keeps everything right exactly if no acknowledgement takes a line of
    the slave while the slave has another one. -/
theorem staysRight_iff (es : List (Event Nat)) (h : Served priority ∅ es) :
    StaysRight init ∅ es ↔ AcksAlone ∅ es :=
  staysRight_iff_from es init_tracks h

/-- The rule at interrupts of the disk and the keyboard, both pending at once. -/
theorem staysRight_disk_keyboard : StaysRight init ∅ [.raise 14, .raise 1, .ack, .ack] := by
  have hserved : Served priority ∅ [.raise 14, .raise 1, .ack, .ack] :=
    ⟨by decide, by decide, ⟨1, by decide⟩, ⟨14, by decide⟩, trivial⟩
  apply (staysRight_iff _ hserved).mpr
  refine ⟨nofun, nofun, ?_, ?_, trivial⟩
  · intro _ n m htop hhigh
    obtain rfl : 1 = n := Option.some.inj htop
    omega
  · intro _ n m htop _ hm _
    obtain rfl : 14 = n := Option.some.inj htop
    have hall : ∀ m ∈ pend priority (pend priority (pend priority ∅ (.raise 14)) (.raise 1)) .ack,
        m = 14 := by decide
    exact hall m hm

/-- The lines 14 and 15: acknowledging the first loses the second. -/
theorem ack_loses_line : ¬ StaysRight init ∅ [.raise 14, .raise 15, .ack] := by
  rintro ⟨-, p₁, h₁, -, -, p₂, h₂, -, -, p₃, h₃, -, hright⟩
  cases h₁
  cases h₂
  cases h₃
  have hcascade := hright.cascade
  exact absurd (hcascade.mpr (by decide)) (by decide)

end I8259Pair

end Nemu
