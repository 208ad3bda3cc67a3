/-
  Nemu.Monitor.EndState

  Once `nemu_trap` has set `nemu_state` to `END`, no call of `cpu_exec` executes
  anything, unless a watchpoint changes in the iteration of the trap: the check
  behind the instruction then overwrites `END` by `STOP`.
-/

import Nemu.Monitor.WatchValues

namespace Nemu

open Outcome WpPool

namespace Monitor

/-! ## `END` in a run -/

section Ended

variable {depth : Nat} {m m' : Monitor} {checks : List Check} {c : Check}

/-- In the state `END` the calls do nothing. -/
theorem Calls.of_end {ns : List (BitVec 32)} (h : Calls depth ns m checks m')
    (hend : m.emu.nemuState = .END) : checks = [] ∧ m' = m := by
  induction h with
  | nil m => exact ⟨rfl, rfl⟩
  | ended _ _ ih => exact ih hend
  | call hne _ _ _ => exact absurd hend hne

/-- Only the last check of a loop leaves a state other than `RUNNING`. -/
theorem Loop.last {n : Nat} {l r : List Check} (h : Loop depth n m checks m')
    (hsplit : checks = l ++ c :: r) (hstate : c.after.emu.nemuState ≠ .RUNNING) :
    r = [] ∧ m' = c.after := by
  induction h generalizing l with
  | finish m => exact absurd hsplit (by simp)
  | stop _ _ _ =>
      cases l with
      | nil =>
          obtain ⟨rfl, hr⟩ := List.cons.inj hsplit
          exact ⟨hr.symm, rfl⟩
      | cons x l => exact absurd (List.cons.inj hsplit).2 (by simp)
  | next _ _ hrunning _ ih =>
      cases l with
      | nil =>
          obtain ⟨rfl, -⟩ := List.cons.inj hsplit
          exact absurd hrunning hstate
      | cons x l => exact ih (List.cons.inj hsplit).2

/-- A check that leaves `END` is the last of the run. -/
theorem Calls.last {ns : List (BitVec 32)} {l r : List Check} (h : Calls depth ns m checks m')
    (hsplit : checks = l ++ c :: r) (hend : c.after.emu.nemuState = .END) :
    r = [] ∧ m' = c.after := by
  induction h generalizing l with
  | nil m => exact absurd hsplit (by simp)
  | ended _ _ ih => exact ih hsplit
  | call _ hloop hrest ih =>
      have hstate : c.after.emu.nemuState ≠ .RUNNING := by
        rw [hend]
        exact NemuState.noConfusion
      rcases List.append_eq_append_iff.mp hsplit with ⟨l', -, hr⟩ | ⟨l', hl, hr⟩
      · exact ih hr
      · cases l' with
        | nil => exact ih (l := []) hr.symm
        | cons x l' =>
            -- the check is one of this call, and the later calls find `END`
            obtain ⟨rfl, rfl⟩ := List.cons.inj hr
            obtain ⟨rfl, rfl⟩ := hloop.last hl hstate
            obtain ⟨rfl, rfl⟩ := hrest.of_end hend
            exact ⟨rfl, rfl⟩

theorem Loop.checked {n : Nat} (h : Loop depth n m checks m') :
    ∀ c ∈ checks, c.before.checkWatchpoints = .ok (c.changed, c.after) := by
  induction h with
  | finish m => exact fun c hc => nomatch hc
  | stop _ hcheck _ =>
      intro c hc
      obtain rfl := List.mem_singleton.mp hc
      exact hcheck
  | next _ hcheck _ _ ih =>
      intro c hc
      rcases List.mem_cons.mp hc with rfl | hc
      · exact hcheck
      · exact ih c hc

theorem Calls.checked {ns : List (BitVec 32)} (h : Calls depth ns m checks m') :
    ∀ c ∈ checks, c.before.checkWatchpoints = .ok (c.changed, c.after) := by
  induction h with
  | nil m => exact fun c hc => nomatch hc
  | ended _ _ ih => exact ih
  | call _ hloop _ ih =>
      intro c hc
      rcases List.mem_append.mp hc with hc | hc
      · exact hloop.checked c hc
      · exact ih c hc

end Ended

/-- Once the check `c` is over, the state is `END`, the run executes nothing more, and neither
    does any run that continues it: registers, memory and everything else stay. -/
def EndsWith (depth : Nat) (c : Check) (later : List Check) (m' : Monitor) : Prop :=
  c.after.emu.nemuState = .END ∧ later = [] ∧ m' = c.after ∧
    ∀ ns checks m'', Calls depth ns m' checks m'' → checks = [] ∧ m'' = m'

/-- The instruction before the check `c` of a run has set `END`: the run ends there exactly
    when no watched value differs from the stored one. -/
theorem endsWith_iff {depth : Nat} {ns : List (BitVec 32)} {m m' : Monitor} {checks : List Check}
    {active free : List WpIdx} (hcalls : Calls depth ns m checks m')
    (hshape : Shape m.wps active free) {earlier later : List Check} {c : Check}
    (hsplit : checks = earlier ++ c :: later) (htrap : c.before.emu.nemuState = .END) :
    EndsWith depth c later m' ↔ c.before.current active = some (c.before.stored active) := by
  have hc : c ∈ checks := by simp [hsplit]
  obtain ⟨hwps, -⟩ := (hcalls.against hshape).2 c hc
  have hshape' : Shape c.before.wps active free := hwps.symm ▸ hshape
  obtain ⟨vals, hvals, hchanged, -, hemu⟩ := checkWatchpoints_ok hshape' (hcalls.checked c hc)
  rw [hvals, Option.some_inj]
  apply Iff.intro
  · rintro ⟨hend, -⟩
    by_contra hne
    rw [hemu, if_pos (hchanged.mpr hne)] at hend
    exact NemuState.noConfusion hend
  · intro hsame
    have hfalse : ¬ c.changed = true := fun h => hchanged.mp h hsame
    have hend : c.after.emu.nemuState = .END := by rw [hemu, if_neg hfalse, htrap]
    obtain ⟨hlater, hm'⟩ := hcalls.last hsplit hend
    refine ⟨hend, hlater, hm', fun ns checks m'' h => h.of_end ?_⟩
    rw [hm']
    exact hend

/-! ## A trap with a watchpoint on EAX -/

-- the opcode of `nemu_trap` at address 0
def trapMonitor (eax : BitVec 32) : Monitor :=
  { monitorEax eax with emu := { (monitorEax eax).emu with mem := fun a => if a = 0 then 0xd6 else 0 } }

-- one instruction that does not leave the monitor running
theorem calls_one {depth : Nat} {m m₁ m₂ : Monitor} {c : Bool} (hend : m.emu.nemuState ≠ .END)
    (hinstr : (m.setNemuState .RUNNING).execOne depth = .ok m₁)
    (hcheck : m₁.checkWatchpoints = .ok (c, m₂)) (hstate : m₂.emu.nemuState ≠ .RUNNING) :
    Calls depth [1] m [⟨m₁, c, m₂⟩] m₂ := by
  have hloop : Loop depth (1 : BitVec 32).toNat (m.setNemuState .RUNNING) [⟨m₁, c, m₂⟩] m₂ :=
    .stop hinstr hcheck hstate
  have hcalls := Calls.call hend hloop (.nil m₂)
  rwa [List.append_nil] at hcalls

theorem endsWith_iff_eax :
    ∃ checks m' c, Calls 1 [1] (trapMonitor 0) checks m' ∧
      (EndsWith 1 c [] m' ↔ c.before.current [⟨0, by decide⟩] =
        some (c.before.stored [⟨0, by decide⟩])) := by
  obtain ⟨m₁, hinstr, htrap, m₂, hcheck, hstate⟩ : ∃ m₁,
      ((trapMonitor 0).setNemuState .RUNNING).execOne 1 = .ok m₁ ∧ m₁.emu.nemuState = .END ∧
      ∃ m₂, m₁.checkWatchpoints = .ok (false, m₂) ∧ m₂.emu.nemuState = .END :=
    ⟨_, rfl, rfl, _, rfl, rfl⟩
  have hcalls := calls_one (by decide) hinstr hcheck (by rw [hstate]; decide)
  have hsplit : [(⟨m₁, false, m₂⟩ : Check)] = [] ++ ⟨m₁, false, m₂⟩ :: [] := rfl
  exact ⟨_, _, _, hcalls, endsWith_iff hcalls shape_watchEax hsplit htrap⟩

/-- With 1 in EAX the watchpoint has changed in the iteration of the trap. -/
theorem trap_overwritten :
    ∃ m active free m' c, Shape m.wps active free ∧ Calls 1 [1] m [c] m' ∧
      c.before.emu.nemuState = .END ∧ ¬ EndsWith 1 c [] m' := by
  obtain ⟨m₁, hinstr, htrap, m₂, hcheck, hstate⟩ : ∃ m₁,
      ((trapMonitor 1).setNemuState .RUNNING).execOne 1 = .ok m₁ ∧ m₁.emu.nemuState = .END ∧
      ∃ m₂, m₁.checkWatchpoints = .ok (true, m₂) ∧ m₂.emu.nemuState = .STOP :=
    ⟨_, rfl, rfl, _, rfl, rfl⟩
  have hcalls := calls_one (by decide) hinstr hcheck (by rw [hstate]; decide)
  refine ⟨trapMonitor 1, _, _, m₂, _, shape_watchEax, hcalls, htrap, ?_⟩
  rintro ⟨hend, -⟩
  exact NemuState.noConfusion (hstate.symm.trans hend)

end Monitor

end Nemu
