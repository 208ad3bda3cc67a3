/-
  Nemu.Monitor.WatchpointRefinement

  The watchpoint pool implements an ordered sequence of watchpoints.

  `Shape` is the invariant of the pool: both lists are chains, together they hold
  every entry exactly once, entry `i` has number `i`.  Each operation is one change to
  each chain, and on the sequence of (number, expression, value) it is an append or the
  removal of one entry.
-/

import Nemu.Monitor.Watchpoint
import Mathlib.Data.List.FinRange

namespace Nemu

open LinkedList Outcome

/-! ## The abstract sequence -/

/-- A watchpoint as the user sees it. -/
structure WpEntry where
  NO : Int
  expr : List Char
  value : BitVec 32
deriving DecidableEq, Repr

/-- What an operation does to the sequence of active watchpoints. -/
inductive SeqStep : List WpEntry → WpOp → List WpEntry → Prop
  /-- A new number, at the end. -/
  | set {seq : List WpEntry} {args : List Char} {val : BitVec 32} {n : Int}
      (hnew : ∀ e ∈ seq, e.NO ≠ n) : SeqStep seq (.set args val) (seq ++ [⟨n, args, val⟩])
  /-- The one entry of the number leaves, the others stay in order. -/
  | delete {l r : List WpEntry} {e : WpEntry} {num : Int} (hnum : e.NO = num)
      (hothers : ∀ e' ∈ l ++ r, e'.NO ≠ num) : SeqStep (l ++ e :: r) (.delete num) (l ++ r)
  | absent {seq : List WpEntry} {num : Int} (habsent : ∀ e ∈ seq, e.NO ≠ num) :
      SeqStep seq (.delete num) seq

/-! ## The invariant of the pool -/

namespace WpPool

-- the entry at an index, as the user sees it
def entry (s : WpPool) (i : WpIdx) : WpEntry :=
  { NO := (s.wp_pool i).NO
    expr := (s.wp_pool i).expr_watching.getD []
    value := (s.wp_pool i).value_watching }

/-- `active` and `free` are the two lists: chains from their heads, with every entry of
    the pool in exactly one of them, once. -/
structure Shape (s : WpPool) (active free : List WpIdx) : Prop where
  activeChain : Chain s.next s.head active
  freeChain : Chain s.next s.free_ free
  perm : (active ++ free).Perm (List.finRange NR_WP)
  NO : ∀ i, (s.wp_pool i).NO = i.val
  strings : ∀ i ∈ active, (s.wp_pool i).expr_watching.isSome

/-- The pool holds the sequence `seq`. -/
def Tracks (s : WpPool) (seq : List WpEntry) : Prop :=
  ∃ active free, Shape s active free ∧ seq = active.map s.entry

/-- A run of the pool beside a run of the sequence.  Every state on the way holds its
    sequence, and deleting a number that is not active leaves the pool as it is. -/
inductive RefinedRun : WpPool → List WpEntry → List WpOp → WpPool → List WpEntry → Prop
  | nil {s : WpPool} {seq : List WpEntry} (ht : Tracks s seq) : RefinedRun s seq [] s seq
  | cons {s s₁ s' : WpPool} {seq seq₁ seq' : List WpEntry} {op : WpOp} {ops : List WpOp}
      (ht : Tracks s seq) (hpool : s.step op = .ok ((), s₁)) (hseq : SeqStep seq op seq₁)
      (habsent : ∀ num, op = .delete num → (∀ e ∈ seq, e.NO ≠ num) → s₁ = s)
      (hrest : RefinedRun s₁ seq₁ ops s' seq') : RefinedRun s seq (op :: ops) s' seq'

section Fields

variable (s : WpPool) (i : WpIdx) (p : Option WpIdx)

@[simp] theorem next_setNext : (s.setNext i p).next = Function.update s.next i p := by
  funext j
  by_cases h : j = i
  · subst h
    simp [next, setNext, modify]
  · simp [next, setNext, modify, h]

-- an assignment to another field
theorem next_modify {f : WP → WP} (hf : ∀ w, (f w).next = w.next) : (s.modify i f).next = s.next := by
  funext j
  by_cases h : j = i
  · subst h
    simp [next, modify, hf]
  · simp [next, modify, h]

theorem wp_pool_modify_of_ne {j : WpIdx} (h : j ≠ i) (f : WP → WP) :
    (s.modify i f).wp_pool j = s.wp_pool j := Function.update_of_ne h ..

theorem wp_pool_modify_self (f : WP → WP) : (s.modify i f).wp_pool i = f (s.wp_pool i) :=
  Function.update_self ..

end Fields

/-- Only `next` fields, `head` and `free_` differ. -/
def SameData (s s' : WpPool) : Prop :=
  ∀ j, (s'.wp_pool j).NO = (s.wp_pool j).NO ∧
    (s'.wp_pool j).expr_watching = (s.wp_pool j).expr_watching ∧
    (s'.wp_pool j).value_watching = (s.wp_pool j).value_watching

theorem sameData_setNext (s : WpPool) (i : WpIdx) (p : Option WpIdx) : SameData s (s.setNext i p) := by
  intro j
  by_cases h : j = i
  · subst h
    simp [setNext, wp_pool_modify_self]
  · simp [setNext, wp_pool_modify_of_ne s i h]

theorem SameData.trans {s₁ s₂ s₃ : WpPool} (h : SameData s₁ s₂) (h' : SameData s₂ s₃) :
    SameData s₁ s₃ := fun j =>
  ⟨(h' j).1.trans (h j).1, (h' j).2.1.trans (h j).2.1, (h' j).2.2.trans (h j).2.2⟩

theorem SameData.entry_eq {s s' : WpPool} (h : SameData s s') : s'.entry = s.entry := by
  funext j
  obtain ⟨h1, h2, h3⟩ := h j
  rw [entry, entry, h1, h2, h3]

-- two writes to one entry that leave its number and its link alone
theorem modify_twice (s : WpPool) (i : WpIdx) {f g : WP → WP} (hf : ∀ w, (f w).next = w.next)
    (hg : ∀ w, (g w).next = w.next) (hNO : ∀ w, (g (f w)).NO = w.NO) :
    ∃ s', (s.modify i f).modify i g = s' ∧ s'.next = s.next ∧ s'.head = s.head ∧
      s'.free_ = s.free_ ∧ (∀ j, j ≠ i → s'.wp_pool j = s.wp_pool j) ∧
      s'.wp_pool i = g (f (s.wp_pool i)) ∧ ∀ j, (s'.wp_pool j).NO = (s.wp_pool j).NO := by
  have hother : ∀ j, j ≠ i → ((s.modify i f).modify i g).wp_pool j = s.wp_pool j := by
    intro j hj
    rw [wp_pool_modify_of_ne _ i hj, wp_pool_modify_of_ne _ i hj]
  have hself : ((s.modify i f).modify i g).wp_pool i = g (f (s.wp_pool i)) := by
    rw [wp_pool_modify_self, wp_pool_modify_self]
  refine ⟨_, rfl, ?_, rfl, rfl, hother, hself, fun j => ?_⟩
  · rw [next_modify _ i hg, next_modify _ i hf]
  · by_cases hj : j = i
    · rw [hj, hself]
      exact hNO _
    · rw [hother j hj]

section Shapes

variable {s : WpPool} {active free : List WpIdx}

theorem Shape.nodup (h : Shape s active free) : (active ++ free).Nodup :=
  h.perm.nodup_iff.mpr (List.nodup_finRange NR_WP)

theorem Shape.length_le (h : Shape s active free) : active.length ≤ NR_WP := by
  have hlen := h.perm.length_eq
  rw [List.length_append, List.length_finRange] at hlen
  omega

/-- A loop over the active list ends, with what `find?` finds. -/
theorem Shape.follow_ok (h : Shape s active free) (stop : WpIdx → Bool) :
    s.follow stop s.head = .ok (active.find? stop) := by
  rw [follow, walk_chain (Nat.lt_succ_of_le h.length_le) h.activeChain]

/-- The numbers of active entries are their indices. -/
theorem Shape.entry_NO (h : Shape s active free) (i : WpIdx) : (s.entry i).NO = i.val := h.NO i

end Shapes

/-! ## `init_wp_pool` -/

theorem shape_init : Shape initWpPool [] (List.finRange NR_WP) where
  activeChain := rfl
  freeChain := by decide
  perm := List.Perm.refl _
  NO _ := rfl
  strings _ h := nomatch h

/-! ## `set_watchpoint` -/

section Set

variable {s : WpPool} {active r : List WpIdx} {i : WpIdx}

/-- `new_wp` moves the first free entry behind the last active one. -/
theorem newWp_run (h : Shape s active (i :: r)) :
    ∃ s', newWp s = .ok (i, s') ∧ Chain s'.next s'.head (active ++ [i]) ∧
      Chain s'.next s'.free_ r ∧ SameData s s' := by
  have hnodup := h.nodup
  have hi : i ∉ active := fun hi =>
    (List.nodup_append.mp hnodup).2.2 i hi i (List.mem_cons_self ..) rfl
  have hir : i ∉ r := (List.nodup_cons.mp (List.nodup_append.mp hnodup).2.1).1
  obtain ⟨hfree, hrest⟩ := h.freeChain
  -- the entry is unlinked from the free list first
  have hactive₁ : Chain (Function.update s.next i none) s.head active :=
    chain_update hi h.activeChain
  have hrest₁ : Chain (Function.update s.next i none) (s.next i) r := chain_update hir hrest
  rw [newWp, hfree]
  simp only [deref, ok_bind]
  obtain ⟨s₁, hs₁⟩ : ∃ s₁, ({ s with free_ := s.next i } : WpPool).setNext i none = s₁ := ⟨_, rfl⟩
  have hnext₁ : s₁.next = Function.update s.next i none := by
    rw [← hs₁]
    exact next_setNext ..
  have hhead₁ : s₁.head = s.head := by rw [← hs₁]; rfl
  have hfree₁ : s₁.free_ = s.next i := by rw [← hs₁]; rfl
  have hdata₁ : SameData s s₁ := by
    rw [← hs₁]
    exact sameData_setNext { s with free_ := s.next i } i none
  rw [← hnext₁, ← hhead₁] at hactive₁
  rw [← hnext₁, ← hfree₁] at hrest₁
  have hnull : s₁.next i = none := by rw [hnext₁, Function.update_self]
  rw [hs₁]
  -- and then linked behind the last active one, if there is one
  rcases List.eq_nil_or_concat' active with rfl | ⟨l, t, rfl⟩
  · have hempty : s₁.head = none := hactive₁
    rw [hempty]
    exact ⟨_, rfl, ⟨rfl, hnull⟩, hrest₁, hdata₁⟩
  · obtain ⟨hlast, hlen⟩ : (l ++ [t]).find? (fun j => (s₁.next j).isNone) = some t ∧
        (l ++ [t]).length < NR_WP + 1 := ⟨find_last hactive₁, Nat.lt_succ_of_le h.length_le⟩
    obtain ⟨f, hf⟩ : ∃ f, s₁.head = some f := by
      cases l with
      | nil => exact ⟨t, hactive₁.1⟩
      | cons x xs => exact ⟨x, hactive₁.1⟩
    have hfollow : s₁.follow (fun j => (s₁.next j).isNone) (some f) = .ok (some t) := by
      rw [follow, ← hf, walk_chain hlen hactive₁, hlast]
    rw [hf]
    simp only [hfollow, ok_bind]
    have hlt : t ∉ l := fun ht => (List.nodup_append.mp (List.nodup_append.mp hnodup).1).2.2 t ht t
      (List.mem_singleton_self t) rfl
    have htr : t ∉ r := fun ht => (List.nodup_append.mp hnodup).2.2 t (by simp) t
      (List.mem_cons_of_mem _ ht) rfl
    refine ⟨_, rfl, ?_, ?_, hdata₁.trans (sameData_setNext s₁ t (some i))⟩
    · rw [next_setNext, List.append_assoc]
      exact chain_append hi hlt hnull hactive₁
    · rw [next_setNext]
      exact chain_update htr hrest₁

/-- `set_watchpoint` appends the first free entry, with its string and its value. -/
theorem setWatchpoint_run (h : Shape s active (i :: r)) (args : List Char) (val : BitVec 32) :
    ∃ s', setWatchpoint args val s = .ok (i, s') ∧ Shape s' (active ++ [i]) r ∧
      (active ++ [i]).map s'.entry = active.map s.entry ++ [⟨i.val, args, val⟩] := by
  obtain ⟨s₁, hrun, hactive, hfree, hdata⟩ := newWp_run h
  have hi : ∀ j ∈ active, j ≠ i := by
    rintro j hj rfl
    exact (List.nodup_append.mp h.nodup).2.2 j hj j (List.mem_cons_self ..) rfl
  -- the string and the value are written into the new entry only
  obtain ⟨s', hs', hnext, hhead, hfree', hold, hnew, hsame⟩ := modify_twice s₁ i
    (fun w => (rfl : ({ w with expr_watching := some args } : WP).next = w.next))
    (fun w => (rfl : ({ w with value_watching := val } : WP).next = w.next)) fun _ => rfl
  have hNO : ∀ j, (s'.wp_pool j).NO = (j.val : Int) := fun j =>
    (hsame j).trans ((hdata j).1.trans (h.NO j))
  have hentry : ∀ j ∈ active, s'.entry j = s.entry j := by
    intro j hj
    rw [← hdata.entry_eq, entry, entry, hold j (hi j hj)]
  refine ⟨s', ?_, ⟨?_, ?_, ?_, hNO, ?_⟩, ?_⟩
  · rw [setWatchpoint, hrun]
    simp only [ok_bind]
    rw [hs']
    rfl
  · rw [hnext, hhead]
    exact hactive
  · rw [hnext, hfree']
    exact hfree
  · rw [List.append_assoc]
    exact h.perm
  · intro j hj
    by_cases hji : j = i
    · subst hji
      rw [hnew]
      rfl
    · rw [hold j hji, (hdata j).2.1]
      exact h.strings j ((List.mem_append.mp hj).resolve_right (by simpa using hji))
  · have hlast : s'.entry i = ⟨i.val, args, val⟩ := by
      rw [entry, hNO, hnew]
      rfl
    rw [List.map_append, List.map_congr_left hentry, List.map_singleton, hlast]

/-- Setting a watchpoint appends an entry that was not active. -/
theorem set_step (h : Shape s active (i :: r)) (args : List Char) (val : BitVec 32) :
    ∃ s', s.step (.set args val) = .ok ((), s') ∧ Shape s' (active ++ [i]) r ∧
      SeqStep (active.map s.entry) (.set args val) ((active ++ [i]).map s'.entry) := by
  obtain ⟨s', hrun, hshape, hentries⟩ := setWatchpoint_run h args val
  refine ⟨s', ?_, hshape, ?_⟩
  · rw [WpPool.step, hrun]
    rfl
  · rw [hentries]
    refine .set fun e he => ?_
    obtain ⟨j, hj, rfl⟩ := List.mem_map.mp he
    rw [h.entry_NO]
    intro heq
    have hji : j = i := Fin.ext (by exact_mod_cast heq)
    exact (List.nodup_append.mp h.nodup).2.2 j hj i (List.mem_cons_self ..) hji

end Set

/-! ## `delete_wp` and `free_wp` -/

section Delete

variable {s : WpPool} {l r free : List WpIdx} {i : WpIdx}

/-- The entry leaves the active list, at its head or behind another entry. -/
theorem unlink_run (h : Shape s (l ++ i :: r) free) :
    ∃ s', unlink i s = .ok s' ∧ Chain s'.next s'.head (l ++ r) ∧
      Chain s'.next s'.free_ free ∧ SameData s s' := by
  have hnodup := h.nodup
  have hactive := h.activeChain
  have hdisj := (List.nodup_append.mp hnodup).2.2
  rw [unlink]
  rcases List.eq_nil_or_concat' l with rfl | ⟨l, t, rfl⟩
  · -- at the head
    rw [if_pos hactive.1.symm]
    exact ⟨_, rfl, hactive.2, h.freeChain, fun j => ⟨rfl, rfl, rfl⟩⟩
  · -- behind `t`
    have hnd := (List.nodup_append.mp hnodup).1
    rw [List.append_assoc, List.singleton_append] at hactive hnd hdisj
    have htail : t ∉ l ++ i :: r := List.nodup_middle.mp hnd |> List.nodup_cons.mp |>.1
    have hhead : some i ≠ s.head := by
      intro hh
      cases l with
      | nil =>
          have hti : t = i := Option.some.inj (hactive.1.symm.trans hh.symm)
          exact htail (by simp [hti])
      | cons x xs =>
          have hxi : x = i := Option.some.inj (hactive.1.symm.trans hh.symm)
          exact (List.nodup_cons.mp hnd).1 (by simp [hxi])
    have hlen : (l ++ t :: i :: r).length < NR_WP + 1 := by
      have hle := h.length_le
      simp only [List.length_append, List.length_cons, List.length_nil] at hle ⊢
      omega
    have hfollow : s.follow (fun j => s.next j == some i) s.head = .ok (some t) := by
      rw [follow, walk_chain hlen hactive, find_predecessor hnd hactive]
    rw [if_neg hhead, hfollow]
    have hsucc : s.next t = some i := chain_successor hactive
    simp only [ok_bind, deref, hsucc]
    refine ⟨_, rfl, ?_, ?_, sameData_setNext s t (s.next i)⟩
    · rw [next_setNext, List.append_assoc, List.singleton_append]
      exact chain_remove htail hactive
    · rw [next_setNext]
      exact chain_update (fun hf => hdisj t (by simp) t hf rfl) h.freeChain

/-- `free_wp` moves an active entry to the front of the free list. -/
theorem freeWp_run (h : Shape s (l ++ i :: r) free) :
    ∃ s', freeWp (some i) s = .ok s' ∧ Shape s' (l ++ r) (i :: free) ∧
      ∀ j ∈ l ++ r, s'.entry j = s.entry j := by
  obtain ⟨s₁, hrun, hactive, hfree, hdata⟩ := unlink_run h
  have hnodup := h.nodup
  have hnd : (i :: (l ++ r)).Nodup := List.nodup_middle.mp (List.nodup_append.mp hnodup).1
  have hactive_i : i ∉ l ++ r := (List.nodup_cons.mp hnd).1
  have hfree_i : i ∉ free := fun hf => (List.nodup_append.mp hnodup).2.2 i (by simp) i hf rfl
  obtain ⟨str, hstr⟩ := Option.isSome_iff_exists.mp (h.strings i (by simp))
  -- the entry is pushed and its string and value are cleared
  obtain ⟨s₂, hs₂⟩ : ∃ s₂, ({ s₁.setNext i s₁.free_ with free_ := some i } : WpPool) = s₂ :=
    ⟨_, rfl⟩
  obtain ⟨s', hs', hnext, hhead, hfree', hold, hself, hsame⟩ := modify_twice s₂ i
    (fun w => (rfl : ({ w with value_watching := 0 } : WP).next = w.next))
    (fun w => (rfl : ({ w with expr_watching := some [] } : WP).next = w.next)) fun _ => rfl
  have hdata₂ : SameData s s₂ := by
    rw [← hs₂]
    exact hdata.trans (sameData_setNext s₁ i s₁.free_)
  have hnext₂ : s₂.next = Function.update s₁.next i s₁.free_ := by
    rw [← hs₂]
    exact next_setNext s₁ i s₁.free_
  have hstays : ∀ j ∈ l ++ r, s'.wp_pool j = s₂.wp_pool j := by
    intro j hj
    apply hold j
    rintro rfl
    exact hactive_i hj
  refine ⟨s', ?_, ⟨?_, ?_, ?_, ?_, ?_⟩, ?_⟩
  · have hstr₂ : ((s₂.modify i fun w => { w with value_watching := 0 }).wp_pool i).expr_watching =
        some str := by
      rw [wp_pool_modify_self]
      exact (hdata₂ i).2.1.trans hstr
    rw [freeWp]
    simp only [cAssert, Option.isSome_some, if_true, deref, ok_bind, hrun, hs₂, hstr₂]
    rw [hs']
    rfl
  · rw [hnext, hnext₂, hhead, ← hs₂]
    exact chain_update hactive_i hactive
  · rw [hnext, hnext₂, hfree', ← hs₂]
    exact chain_push hfree_i hfree
  · refine List.Perm.trans ?_ h.perm
    rw [List.append_assoc, List.append_assoc, List.cons_append]
    exact (List.perm_middle.trans (by rfl)).append_left l
  · exact fun j => (hsame j).trans ((hdata₂ j).1.trans (h.NO j))
  · intro j hj
    rw [hstays j hj, (hdata₂ j).2.1]
    exact h.strings j (by simp only [List.mem_append, List.mem_cons] at hj ⊢; tauto)
  · intro j hj
    rw [← hdata₂.entry_eq, entry, entry, hstays j hj]

/-- Deleting a number that is not active changes nothing. -/
theorem delete_absent {active : List WpIdx} (h : Shape s active free) {num : Int}
    (habsent : ∀ e ∈ active.map s.entry, e.NO ≠ num) : s.step (.delete num) = .ok ((), s) := by
  have hfind : active.find? (fun j => (s.wp_pool j).NO == num) = none := by
    rw [List.find?_eq_none]
    intro j hj
    have hne : (s.wp_pool j).NO ≠ num := habsent _ (List.mem_map_of_mem hj)
    simpa using hne
  rw [WpPool.step, cmdD, deleteWp, h.follow_ok, hfind]
  rfl

/-- Deleting an active number removes its entry. -/
theorem delete_step (h : Shape s (l ++ i :: r) free) :
    ∃ s', s.step (.delete (i.val : Int)) = .ok ((), s') ∧ Shape s' (l ++ r) (i :: free) ∧
      SeqStep ((l ++ i :: r).map s.entry) (.delete (i.val : Int)) ((l ++ r).map s'.entry) := by
  obtain ⟨s', hrun, hshape, hentry⟩ := freeWp_run h
  have hnd : (i :: (l ++ r)).Nodup := List.nodup_middle.mp (List.nodup_append.mp h.nodup).1
  have hne : ∀ j ∈ l ++ r, (s.wp_pool j).NO ≠ (i.val : Int) := by
    intro j hj heq
    have hji : j = i := Fin.ext (by exact_mod_cast (h.NO j).symm.trans heq)
    exact (List.nodup_cons.mp hnd).1 (hji ▸ hj)
  have hfind : (l ++ i :: r).find? (fun j => (s.wp_pool j).NO == (i.val : Int)) = some i := by
    rw [List.find?_eq_some_iff_append]
    refine ⟨by simp [h.NO i], l, r, rfl, fun j hj => ?_⟩
    simpa using hne j (List.mem_append_left r hj)
  refine ⟨s', ?_, hshape, ?_⟩
  · rw [WpPool.step, cmdD, deleteWp, h.follow_ok, hfind]
    simp only [ok_bind, pure, Except.pure, Option.isNone_some, Bool.false_eq_true, if_false,
      if_true, hrun]
  · rw [List.map_congr_left hentry, List.map_append, List.map_append, List.map_cons]
    refine .delete (h.entry_NO i) fun e he => ?_
    rw [← List.map_append] at he
    obtain ⟨j, hj, rfl⟩ := List.mem_map.mp he
    exact hne j hj

end Delete

/-! ## Runs -/

-- `new_wp` is not called on an empty free list
def fits (s : WpPool) : WpOp → Bool
  | .set _ _ => s.free_.isSome
  | .delete _ => true

/-- In the run of `ops` from `s`, `new_wp` is never called on an empty free list. -/
def addsFit (s : WpPool) : List WpOp → Bool
  | [] => true
  | op :: ops => s.fits op &&
      match s.step op with
      | .ok (_, s') => addsFit s' ops
      | .error _ => true

/-- One operation of the debugger. -/
theorem step_refines {s : WpPool} {seq : List WpEntry} {op : WpOp} (ht : Tracks s seq)
    (hfits : s.fits op = true) :
    ∃ s' seq', s.step op = .ok ((), s') ∧ Tracks s' seq' ∧ SeqStep seq op seq' ∧
      ∀ num, op = .delete num → (∀ e ∈ seq, e.NO ≠ num) → s' = s := by
  obtain ⟨active, free, h, rfl⟩ := ht
  cases op with
  | set args val =>
      obtain ⟨i, hi⟩ := Option.isSome_iff_exists.mp hfits
      obtain ⟨r, rfl⟩ := chain_some (hi ▸ h.freeChain)
      obtain ⟨s', hrun, hshape, hseq⟩ := set_step h args val
      exact ⟨s', _, hrun, ⟨_, _, hshape, rfl⟩, hseq, fun num hop => nomatch hop⟩
  | delete num =>
      by_cases habsent : ∀ e ∈ active.map s.entry, e.NO ≠ num
      · exact ⟨s, _, delete_absent h habsent, ⟨_, _, h, rfl⟩, .absent habsent, fun _ _ _ => rfl⟩
      · -- the number is that of an active entry
        obtain ⟨i, hi, hnum⟩ : ∃ i ∈ active, (s.entry i).NO = num := by simpa using habsent
        obtain rfl := (h.entry_NO i).symm.trans hnum
        obtain ⟨l, r, rfl⟩ := List.append_of_mem hi
        obtain ⟨s', hrun, hshape, hseq⟩ := delete_step h
        refine ⟨s', _, hrun, ⟨_, _, hshape, rfl⟩, hseq, fun num hop hne => ?_⟩
        obtain rfl := WpOp.delete.inj hop
        exact absurd hne habsent

/-- A run from any state that holds a sequence. -/
theorem run_refines (ops : List WpOp) {s : WpPool} {seq : List WpEntry} (ht : Tracks s seq)
    (hfits : addsFit s ops = true) :
    ∃ outs s' seq', DetSystem.run WpPool.step s ops = .ok (outs, s') ∧
      RefinedRun s seq ops s' seq' := by
  induction ops generalizing s seq with
  | nil => exact ⟨[], s, seq, rfl, .nil ht⟩
  | cons op ops ih =>
      obtain ⟨hop, hrest⟩ := Bool.and_eq_true_iff.mp hfits
      obtain ⟨s₁, seq₁, hpool, ht₁, hseq, habsent⟩ := step_refines ht hop
      rw [hpool] at hrest
      obtain ⟨outs, s', seq', hrun, href⟩ := ih ht₁ hrest
      exact ⟨() :: outs, s', seq', DetSystem.run_cons_ok.mpr ⟨(), s₁, outs, hpool, hrun, rfl⟩,
        .cons ht hpool hseq habsent href⟩

/-- Every sequence of `cmd_w` and `cmd_d` operations after `init_wp_pool` that never asks
    for an entry the pool does not have succeeds, and runs as the sequence does. -/
theorem pool_refines_sequence (ops : List WpOp) (hfits : addsFit initWpPool ops = true) :
    ∃ outs s' seq', DetSystem.run WpPool.step initWpPool ops = .ok (outs, s') ∧
      RefinedRun initWpPool [] ops s' seq' :=
  run_refines ops ⟨[], _, shape_init, rfl⟩ hfits

/-- Two watchpoints are set, the first is deleted and its entry is used again. -/
theorem pool_refines_sequence_reuse :
    ∃ outs s' seq', DetSystem.run WpPool.step initWpPool
        [.set ['1'] 1, .set ['2'] 2, .delete 0, .delete 7, .set ['3'] 3] = .ok (outs, s') ∧
      RefinedRun initWpPool []
        [.set ['1'] 1, .set ['2'] 2, .delete 0, .delete 7, .set ['3'] 3] s' seq' :=
  pool_refines_sequence _ (by decide)

end WpPool

end Nemu
