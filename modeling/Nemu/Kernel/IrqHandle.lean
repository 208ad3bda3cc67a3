/-
  Nemu.Kernel.IrqHandle

  `add_irq_handle` of `kernel/src/irq/irq_handle.c`: sixteen linked lists that grow out of one
  pool, entry by entry.

  The lists are as they should be after any registrations.  The check of the capacity is
  `handle_count <= NR_IRQ_HANDLE`, which lets one registration too many through: the 33rd
  takes the entry behind the pool.
-/

import Nemu.Common
import Nemu.Lib.DetSystem
import Nemu.Lib.LinkedList

namespace Nemu.Kernel

open DetSystem LinkedList Outcome

/-! ## `irq_handle.c` -/

def NR_IRQ_HANDLE : Nat := 32

def NR_HARD_INTR : Nat := 16

-- a function pointer that may be null, and a pointer into the pool
structure IRQ_t (ρ : Type) where
  routine : Option ρ
  next : Option Nat

/-- The static variables.  An index from NR_IRQ_HANDLE on is memory behind the pool. -/
structure IrqState (ρ : Type) where
  handle_pool : Nat → IRQ_t ρ
  handles : Fin NR_HARD_INTR → Option Nat
  handle_count : Nat

/-- A call of `add_irq_handle`. -/
structure IrqCall (ρ : Type) where
  irq : Int
  func : ρ

-- an index of `handles`
def irqIndex (irq : Int) : Option (Fin NR_HARD_INTR) :=
  if h : 0 ≤ irq ∧ irq < NR_HARD_INTR then some ⟨irq.toNat, by omega⟩ else none

namespace IrqState

variable {ρ : Type}

-- zero-initialised globals
def init : IrqState ρ :=
  { handle_pool := fun _ => { routine := none, next := none }
    handles := fun _ => none
    handle_count := 0 }

def next (s : IrqState ρ) (i : Nat) : Option Nat := (s.handle_pool i).next

def routine (s : IrqState ρ) (i : Nat) : Option ρ := (s.handle_pool i).routine

/-- The assignments of `add_irq_handle` to entry `handle_count` and to `handles[q]`. -/
def insert (s : IrqState ρ) (q : Fin NR_HARD_INTR) (func : ρ) : IrqState ρ :=
  { handle_pool := Function.update s.handle_pool s.handle_count
      { routine := some func, next := s.handles q }
    handles := Function.update s.handles q (some s.handle_count)
    handle_count := s.handle_count + 1 }

/-- `add_irq_handle`; the answer is the index of the entry it takes. -/
def addIrqHandle (s : IrqState ρ) (call : IrqCall ρ) : Except Abort (Nat × IrqState ρ) := do
  cAssert (decide (call.irq < NR_HARD_INTR))
  cAssert (decide (s.handle_count ≤ NR_IRQ_HANDLE))
  match irqIndex call.irq with
  | some q => return (s.handle_count, s.insert q call.func)
  | none => .error .outOfBounds

/-! ## One registration -/

section Insert

variable {s s' : IrqState ρ} {q q' : Fin NR_HARD_INTR} {call : IrqCall ρ} {func : ρ} {n i : Nat}

theorem irqIndex_eq_some {irq : Int} (h : irqIndex irq = some q) : irq < NR_HARD_INTR := by
  rw [irqIndex] at h
  by_cases hin : 0 ≤ irq ∧ irq < NR_HARD_INTR
  · exact hin.2
  · rw [dif_neg hin] at h
    exact nomatch h

/-- A call with an index in range passes exactly if the counter is at most 32. -/
theorem addIrqHandle_eq_ok (hq : irqIndex call.irq = some q) :
    s.addIrqHandle call = .ok (n, s') ↔
      s.handle_count ≤ NR_IRQ_HANDLE ∧ n = s.handle_count ∧ s' = s.insert q call.func := by
  have hlt := irqIndex_eq_some hq
  rw [addIrqHandle, decide_eq_true hlt, cAssert_true, ok_bind, hq]
  by_cases hcount : s.handle_count ≤ NR_IRQ_HANDLE
  · rw [decide_eq_true hcount, cAssert_true, ok_bind, pure_eq_ok, Prod.mk.injEq]
    exact ⟨fun h => ⟨hcount, h.1.symm, h.2.symm⟩, fun h => ⟨h.2.1.symm, h.2.2.symm⟩⟩
  · rw [decide_eq_false hcount, cAssert_false, error_bind]
    exact ⟨nofun, fun h => absurd h.1 hcount⟩

@[simp] theorem insert_handle_count : (s.insert q func).handle_count = s.handle_count + 1 := rfl

@[simp] theorem insert_next :
    (s.insert q func).next = Function.update s.next s.handle_count (s.handles q) := by
  funext j
  by_cases hj : j = s.handle_count
  · subst hj
    simp [next, insert]
  · simp [next, insert, hj]

theorem insert_routine (hi : i ≠ s.handle_count) : (s.insert q func).routine i = s.routine i := by
  simp [routine, insert, hi]

theorem insert_routine_same : (s.insert q func).routine s.handle_count = some func := by
  simp [routine, insert]

end Insert

/-! ## The lists -/

-- the routines registered for `q`, the newest first
def registered (calls : List (IrqCall ρ)) (q : Fin NR_HARD_INTR) : List (Option ρ) :=
  ((calls.filter fun c => irqIndex c.irq = some q).map fun c => some c.func).reverse

/-- After `calls` the list of each interrupt is the chain of `nodes`: entries that were taken,
    each in one list, with the routines registered. -/
structure Lists (calls : List (IrqCall ρ)) (s : IrqState ρ) (nodes : Fin NR_HARD_INTR → List Nat) :
    Prop where
  chain : ∀ q, Chain s.next (s.handles q) (nodes q)
  routines : ∀ q, (nodes q).map s.routine = registered calls q
  nodup : ∀ q, (nodes q).Nodup
  disjoint : ∀ q q', q ≠ q' → (nodes q).Disjoint (nodes q')

/-- The invariant of the pool: entries are taken in order. -/
structure Inv (calls : List (IrqCall ρ)) (s : IrqState ρ) (nodes : Fin NR_HARD_INTR → List Nat) :
    Prop extends Lists calls s nodes where
  count : s.handle_count = calls.length
  taken : ∀ q, ∀ i ∈ nodes q, i < calls.length

theorem inv_init : Inv [] (init : IrqState ρ) fun _ => [] where
  chain := fun _ => rfl
  routines := fun _ => rfl
  nodup := fun _ => List.nodup_nil
  disjoint := fun _ _ _ => List.disjoint_nil_left _
  count := rfl
  taken := nofun

section Step

variable {calls : List (IrqCall ρ)} {call : IrqCall ρ} {s : IrqState ρ}
  {nodes : Fin NR_HARD_INTR → List Nat} {q q' : Fin NR_HARD_INTR}

theorem registered_append_same (hq : irqIndex call.irq = some q) :
    registered (calls ++ [call]) q = some call.func :: registered calls q := by
  simp [registered, hq]

theorem registered_append_other (hq : irqIndex call.irq = some q) (hne : q' ≠ q) :
    registered (calls ++ [call]) q' = registered calls q' := by
  simp [registered, hq, Ne.symm hne]

/-- A registration pushes a fresh entry in front of its list and leaves the others. -/
theorem Inv.insert (h : Inv calls s nodes) (hq : irqIndex call.irq = some q) :
    Inv (calls ++ [call]) (s.insert q call.func)
      (Function.update nodes q (s.handle_count :: nodes q)) := by
  have hfresh : ∀ q', s.handle_count ∉ nodes q' := by
    intro q' hmem
    have hlt := h.taken q' _ hmem
    rw [h.count] at hlt
    exact Nat.lt_irrefl _ hlt
  have hroutines : ∀ q', (nodes q').map (s.insert q call.func).routine = (nodes q').map s.routine := by
    intro q'
    refine List.map_congr_left (fun i hi => insert_routine ?_)
    rintro rfl
    exact hfresh q' hi
  refine ⟨⟨fun q' => ?_, fun q' => ?_, fun q' => ?_, fun q₁ q₂ hne => ?_⟩, ?_, fun q' => ?_⟩
  · rw [insert_next]
    by_cases hq' : q' = q
    · subst hq'
      have hhead : (s.insert q' call.func).handles q' = some s.handle_count := Function.update_self ..
      rw [hhead, Function.update_self]
      exact chain_push (hfresh q') (h.chain q')
    · have hhead : (s.insert q call.func).handles q' = s.handles q' := Function.update_of_ne hq' ..
      rw [hhead, Function.update_of_ne hq']
      exact chain_update (hfresh q') (h.chain q')
  · by_cases hq' : q' = q
    · subst hq'
      rw [Function.update_self, registered_append_same hq, List.map_cons, insert_routine_same,
        hroutines, h.routines]
    · rw [Function.update_of_ne hq', registered_append_other hq hq', hroutines, h.routines]
  · by_cases hq' : q' = q
    · subst hq'
      rw [Function.update_self]
      exact List.nodup_cons.mpr ⟨hfresh q', h.nodup q'⟩
    · rw [Function.update_of_ne hq']
      exact h.nodup q'
  · by_cases h₁ : q₁ = q
    · subst h₁
      rw [Function.update_self, Function.update_of_ne (Ne.symm hne)]
      exact List.disjoint_cons_left.mpr ⟨hfresh q₂, h.disjoint q₁ q₂ hne⟩
    · by_cases h₂ : q₂ = q
      · subst h₂
        rw [Function.update_self, Function.update_of_ne h₁]
        exact List.disjoint_cons_right.mpr ⟨hfresh q₁, h.disjoint q₁ q₂ hne⟩
      · rw [Function.update_of_ne h₁, Function.update_of_ne h₂]
        exact h.disjoint q₁ q₂ hne
  · rw [insert_handle_count, h.count, List.length_append, List.length_singleton]
  · intro i hi
    rw [List.length_append, List.length_singleton]
    by_cases hq' : q' = q
    · subst hq'
      rw [Function.update_self] at hi
      rcases List.mem_cons.mp hi with rfl | hi
      · rw [h.count]
        exact Nat.lt_succ_self _
      · exact Nat.lt_succ_of_lt (h.taken q' i hi)
    · rw [Function.update_of_ne hq'] at hi
      exact Nat.lt_succ_of_lt (h.taken q' i hi)

end Step

/-! ## Runs -/

section Runs

variable {done calls : List (IrqCall ρ)} {s s' : IrqState ρ} {answers : List Nat}
  {nodes : Fin NR_HARD_INTR → List Nat}

-- every call names one of the sixteen interrupts
def InRangeCalls (calls : List (IrqCall ρ)) : Prop :=
  ∀ c ∈ calls, 0 ≤ c.irq ∧ c.irq < NR_HARD_INTR

theorem irqIndex_of_range {irq : Int} (h : 0 ≤ irq ∧ irq < NR_HARD_INTR) :
    ∃ q, irqIndex irq = some q := ⟨_, dif_pos h⟩

/-- A run that passes its assertions takes the entries in order and keeps the lists. -/
theorem Inv.run (h : Inv done s nodes) (hcalls : InRangeCalls calls)
    (hrun : DetSystem.run addIrqHandle s calls = .ok (answers, s')) :
    answers = List.range' done.length calls.length ∧ ∃ nodes', Inv (done ++ calls) s' nodes' := by
  induction calls generalizing done s answers nodes with
  | nil =>
      obtain ⟨rfl, rfl⟩ := Prod.mk.inj (Except.ok.inj hrun)
      rw [List.append_nil]
      exact ⟨rfl, nodes, h⟩
  | cons c calls ih =>
      obtain ⟨hc, hcalls⟩ := List.forall_mem_cons.mp hcalls
      obtain ⟨q, hq⟩ := irqIndex_of_range hc
      obtain ⟨n, s₁, answers', hstep, hrest, rfl⟩ := run_cons_ok.mp hrun
      obtain ⟨-, rfl, rfl⟩ := (addIrqHandle_eq_ok hq).mp hstep
      obtain ⟨hanswers, nodes', hinv⟩ := ih (h.insert hq) hcalls hrest
      rw [List.length_append, List.length_singleton] at hanswers
      rw [List.append_assoc, List.singleton_append] at hinv
      refine ⟨?_, nodes', hinv⟩
      rw [List.length_cons, List.range'_succ, hanswers, h.count]

/-- The assertions pass exactly as long as the counter is at most 32 before each call. -/
theorem run_ok_iff (hcalls : InRangeCalls calls) (hcount : s.handle_count ≤ NR_IRQ_HANDLE + 1) :
    (∃ answers s', DetSystem.run addIrqHandle s calls = .ok (answers, s')) ↔
      s.handle_count + calls.length ≤ NR_IRQ_HANDLE + 1 := by
  induction calls generalizing s with
  | nil => exact ⟨fun _ => hcount, fun _ => ⟨[], s, rfl⟩⟩
  | cons c calls ih =>
      obtain ⟨hc, hcalls⟩ := List.forall_mem_cons.mp hcalls
      obtain ⟨q, hq⟩ := irqIndex_of_range hc
      rw [List.length_cons]
      by_cases hfits : s.handle_count ≤ NR_IRQ_HANDLE
      · have hstep := (addIrqHandle_eq_ok (s := s) hq).mpr ⟨hfits, rfl, rfl⟩
        have hrest := ih (s := s.insert q c.func) hcalls (Nat.succ_le_succ hfits)
        rw [insert_handle_count] at hrest
        have hsum : s.handle_count + (calls.length + 1) = s.handle_count + 1 + calls.length := by omega
        rw [hsum, ← hrest]
        apply Iff.intro
        · rintro ⟨answers, s', hrun⟩
          obtain ⟨n, s₁, answers', hstep', hrun', rfl⟩ := run_cons_ok.mp hrun
          obtain ⟨-, rfl⟩ := Prod.mk.inj (Except.ok.inj (hstep'.symm.trans hstep))
          exact ⟨answers', s', hrun'⟩
        · rintro ⟨answers, s', hrun⟩
          exact ⟨_, s', run_cons_ok.mpr ⟨_, _, answers, hstep, hrun, rfl⟩⟩
      · refine iff_of_false ?_ (by omega)
        rintro ⟨answers, s', hrun⟩
        obtain ⟨n, s₁, answers', hstep, -, -⟩ := run_cons_ok.mp hrun
        exact hfits ((addIrqHandle_eq_ok hq).mp hstep).1

end Runs

/-- Every call took a fresh entry of the pool, and the lists are the registrations. -/
def RightlyRegistered (calls : List (IrqCall ρ)) (answers : List Nat) (s : IrqState ρ) : Prop :=
  (answers.Nodup ∧ ∀ i ∈ answers, i < NR_IRQ_HANDLE) ∧
    ∃ nodes, Lists calls s nodes ∧ ∀ q, ∀ i ∈ nodes q, i ∈ answers

/-- Registrations that pass the assertions stay in the pool exactly if there are at most 32. -/
theorem irqHandles_right_iff (calls : List (IrqCall ρ)) (answers : List Nat) (s : IrqState ρ)
    (hcalls : ∀ c ∈ calls, 0 ≤ c.irq ∧ c.irq < NR_HARD_INTR)
    (hrun : DetSystem.run addIrqHandle init calls = .ok (answers, s)) :
    RightlyRegistered calls answers s ↔ calls.length ≤ NR_IRQ_HANDLE := by
  obtain ⟨hanswers, nodes, hinv⟩ := inv_init.run hcalls hrun
  have htaken : ∀ i, i ∈ answers ↔ i < calls.length := by
    intro i
    rw [hanswers, List.length_nil, List.mem_range'_1]
    omega
  apply Iff.intro
  · rintro ⟨⟨-, hpool⟩, -⟩
    by_contra hmore
    have hlast := hpool NR_IRQ_HANDLE ((htaken _).mpr (Nat.lt_of_not_le hmore))
    exact Nat.lt_irrefl _ hlast
  · intro hlen
    refine ⟨⟨?_, fun i hi => Nat.lt_of_lt_of_le ((htaken i).mp hi) hlen⟩, nodes, hinv.toLists,
      fun q i hi => (htaken i).mpr (hinv.taken q i hi)⟩
    rw [hanswers]
    exact List.nodup_range'

-- the two registrations of `init_ide`
theorem irqHandles_right_ide :
    ∃ answers s, DetSystem.run addIrqHandle init [⟨0, 1⟩, ⟨14, 2⟩] = .ok (answers, s) ∧
      RightlyRegistered (ρ := Nat) [⟨0, 1⟩, ⟨14, 2⟩] answers s := by
  have hcalls : InRangeCalls ([⟨0, 1⟩, ⟨14, 2⟩] : List (IrqCall Nat)) :=
    List.forall_mem_cons.mpr ⟨by decide, List.forall_mem_cons.mpr ⟨by decide, nofun⟩⟩
  obtain ⟨answers, s, hrun⟩ := (run_ok_iff (s := init) hcalls (by decide)).mpr (by decide)
  exact ⟨answers, s, hrun, (irqHandles_right_iff _ answers s hcalls hrun).mpr (by decide)⟩

/-- The 33rd registration passes the assertions and takes entry 32. -/
theorem handle_behind_pool :
    ¬ ∀ (calls : List (IrqCall Nat)) (answers : List Nat) (s : IrqState Nat),
      (∀ c ∈ calls, 0 ≤ c.irq ∧ c.irq < NR_HARD_INTR) →
      DetSystem.run addIrqHandle init calls = .ok (answers, s) → RightlyRegistered calls answers s := by
  intro h
  have hcalls : InRangeCalls (List.replicate 33 (⟨0, 1⟩ : IrqCall Nat)) := by
    intro c hc
    rw [List.eq_of_mem_replicate hc]
    decide
  obtain ⟨answers, s, hrun⟩ := (run_ok_iff (s := init) hcalls (by decide)).mpr (by decide)
  obtain ⟨hanswers, -⟩ := inv_init.run hcalls hrun
  have hlast := (h _ answers s hcalls hrun).1.2 32 (by rw [hanswers]; decide)
  exact absurd hlast (by decide)

end IrqState

end Nemu.Kernel
