/-
  Nemu.Monitor.CpuExec

  `monitor/cpu-exec.c` and `check_` of `watchpoint.c`: the loop that executes
  instructions, checks the watchpoints after each and stops.  `HAS_DEVICE` is not
  defined and nothing jumps to `jbuf`.

  A run is a list of `cpu_exec` calls.  `Calls` lists the checks of a run: the state
  before and after each, and whether it found a change.
-/

import Nemu.Cpu.Exec.Table
import Nemu.Monitor.Expr.Eval
import Nemu.Monitor.Watchpoint

namespace Nemu

open LinkedList Outcome

/-! ## The model -/

/-- The state of the emulator with its debugger. -/
structure Monitor where
  emu : Emu
  symtab : List Sym
  table : TokenTable
  wps : WpPool

namespace Monitor

def env (m : Monitor) : ExprEnv := { emu := m.emu, symtab := m.symtab }

def setNemuState (m : Monitor) (n : NemuState) : Monitor :=
  { m with emu := { m.emu with nemuState := n } }

/-- The loop of `check_` with the local `check`.  The list is no longer than the pool. -/
def checkLoop (env : ExprEnv) : Nat → Option WpIdx → Bool → TokenTable → WpPool →
    Except Abort (Bool × TokenTable × WpPool)
  | _, none, check, t, s => .ok (check, t, s)
  | 0, some _, _, _, _ => .error .outOfFuel
  | fuel + 1, some temp, check, t, s =>
      match (s.wp_pool temp).expr_watching with
      | none => .error .nullPointer
      | some e => do
          let (expr_temp, _, t) ← expr env e none t
          if expr_temp ≠ (s.wp_pool temp).value_watching then
            -- `continue`: the stored value stays
            checkLoop env fuel (s.next temp) true t s
          else
            let s := s.modify temp fun w => { w with value_watching := expr_temp }
            checkLoop env fuel (s.next temp) check t s

/-- `check_`. -/
def check_ (m : Monitor) : Except Abort (Bool × Monitor) := do
  let (check, t, s) ← checkLoop m.env NR_WP m.wps.head false m.table m.wps
  return (check, { m with table := t, wps := s })

/-- The fetches of `print_bin_instr`; what it prints is left out. -/
def printBinInstr : Addr → Nat → EmuM Unit
  | _, 0 => pure ()
  | eip, len + 1 => do
      let _ ← Emu.instrFetch eip 1
      printBinInstr (eip + 1) len

/-- One instruction with its line in the log.  `depth` bounds the calls inside `exec`. -/
def execInstr (depth : Nat) : EmuM Unit := do
  let eip_temp := (← Emu.getCpu).eip
  let instr_len ← Emu.advance (Emu.exec depth)
  printBinInstr eip_temp instr_len

-- the instruction of an iteration, in the monitor
def execOne (depth : Nat) (m : Monitor) : Except Abort Monitor := do
  let (_, emu) ← execInstr depth m.emu
  return { m with emu := emu }

-- `check_` and what follows it
def checkWatchpoints (m : Monitor) : Except Abort (Bool × Monitor) := do
  let (ifchange, m) ← m.check_
  return (ifchange, if ifchange then m.setNemuState .STOP else m)

/-- The loop of `cpu_exec`. -/
def execLoop (depth : Nat) : Nat → Monitor → Except Abort Monitor
  | 0, m => .ok (if m.emu.nemuState = .RUNNING then m.setNemuState .STOP else m)
  | n + 1, m => do
      let m ← m.execOne depth
      let (_, m) ← m.checkWatchpoints
      if m.emu.nemuState ≠ .RUNNING then return m
      else execLoop depth n m

/-- `cpu_exec`. -/
def cpuExec (depth : Nat) (m : Monitor) (n : BitVec 32) : Except Abort (Unit × Monitor) := do
  if m.emu.nemuState = .END then return ((), m)
  else
    let m ← execLoop depth n.toNat (m.setNemuState .RUNNING)
    return ((), m)

/-! ## The checks of a run -/

/-- A check: the state after the instruction, whether a watchpoint has changed, and the
    state at the end of the iteration. -/
structure Check where
  before : Monitor
  changed : Bool
  after : Monitor

/-- The checks of the loop of `cpu_exec`. -/
inductive Loop (depth : Nat) : Nat → Monitor → List Check → Monitor → Prop
  | finish (m : Monitor) :
      Loop depth 0 m [] (if m.emu.nemuState = .RUNNING then m.setNemuState .STOP else m)
  | stop {n : Nat} {m m₁ m₂ : Monitor} {c : Bool} (hinstr : m.execOne depth = .ok m₁)
      (hcheck : m₁.checkWatchpoints = .ok (c, m₂)) (hstate : m₂.emu.nemuState ≠ .RUNNING) :
      Loop depth (n + 1) m [⟨m₁, c, m₂⟩] m₂
  | next {n : Nat} {m m₁ m₂ m' : Monitor} {c : Bool} {checks : List Check}
      (hinstr : m.execOne depth = .ok m₁) (hcheck : m₁.checkWatchpoints = .ok (c, m₂))
      (hstate : m₂.emu.nemuState = .RUNNING) (hrest : Loop depth n m₂ checks m') :
      Loop depth (n + 1) m (⟨m₁, c, m₂⟩ :: checks) m'

/-- The checks of a list of calls. -/
inductive Calls (depth : Nat) : List (BitVec 32) → Monitor → List Check → Monitor → Prop
  | nil (m : Monitor) : Calls depth [] m [] m
  | ended {n : BitVec 32} {ns : List (BitVec 32)} {m m' : Monitor} {checks : List Check}
      (hend : m.emu.nemuState = .END) (hrest : Calls depth ns m checks m') :
      Calls depth (n :: ns) m checks m'
  | call {n : BitVec 32} {ns : List (BitVec 32)} {m m₁ m' : Monitor} {checks₁ checks₂ : List Check}
      (hend : m.emu.nemuState ≠ .END)
      (hloop : Loop depth n.toNat (m.setNemuState .RUNNING) checks₁ m₁)
      (hrest : Calls depth ns m₁ checks₂ m') : Calls depth (n :: ns) m (checks₁ ++ checks₂) m'

/-- The loop returns exactly when it has a list of checks. -/
theorem execLoop_eq_ok {depth n : Nat} {m m' : Monitor} :
    execLoop depth n m = .ok m' ↔ ∃ checks, Loop depth n m checks m' := by
  apply Iff.intro
  · intro h
    induction n generalizing m with
    | zero =>
        obtain rfl := Except.ok.inj h
        exact ⟨[], .finish m⟩
    | succ n ih =>
        rw [execLoop] at h
        obtain ⟨m₁, hinstr, h⟩ := bind_eq_ok.mp h
        obtain ⟨⟨c, m₂⟩, hcheck, h⟩ := bind_eq_ok.mp h
        by_cases hstate : m₂.emu.nemuState = .RUNNING
        · simp only [hstate, ne_eq, not_true_eq_false, if_false] at h
          obtain ⟨checks, hrest⟩ := ih h
          exact ⟨_, .next hinstr hcheck hstate hrest⟩
        · simp only [ne_eq, hstate, not_false_eq_true, if_true, pure_eq_ok] at h
          subst h
          exact ⟨_, .stop hinstr hcheck hstate⟩
  · rintro ⟨checks, h⟩
    induction h with
    | finish m => rfl
    | stop hinstr hcheck hstate =>
        rw [execLoop, hinstr, ok_bind, hcheck, ok_bind]
        exact if_pos hstate
    | next hinstr hcheck hstate _ ih =>
        rw [execLoop, hinstr, ok_bind, hcheck, ok_bind]
        exact (if_neg (by simpa using hstate)).trans ih

/-- The calls return exactly when they have a list of checks. -/
theorem run_cpuExec_iff {depth : Nat} {ns : List (BitVec 32)} {m m' : Monitor} :
    (∃ outs, DetSystem.run (cpuExec depth) m ns = .ok (outs, m')) ↔
      ∃ checks, Calls depth ns m checks m' := by
  apply Iff.intro
  · rintro ⟨outs, h⟩
    induction ns generalizing m outs with
    | nil =>
        obtain ⟨-, rfl⟩ := Prod.mk.inj (Except.ok.inj h)
        exact ⟨[], .nil _⟩
    | cons n ns ih =>
        obtain ⟨u, m₁, outs', hcall, hrun, -⟩ := DetSystem.run_cons_ok.mp h
        obtain ⟨checks₂, hrest⟩ := ih outs' hrun
        rw [cpuExec] at hcall
        by_cases hend : m.emu.nemuState = .END
        · rw [if_pos hend, pure_eq_ok] at hcall
          obtain ⟨-, rfl⟩ := Prod.mk.inj hcall
          exact ⟨_, .ended hend hrest⟩
        · rw [if_neg hend] at hcall
          obtain ⟨m₂, hloop, h₂⟩ := bind_eq_ok.mp hcall
          obtain ⟨-, rfl⟩ := Prod.mk.inj (pure_eq_ok.mp h₂)
          obtain ⟨checks₁, hloop⟩ := execLoop_eq_ok.mp hloop
          exact ⟨_, .call hend hloop hrest⟩
  · rintro ⟨checks, h⟩
    induction h with
    | nil m => exact ⟨[], rfl⟩
    | ended hend _ ih =>
        obtain ⟨outs, hrun⟩ := ih
        exact ⟨_, DetSystem.run_cons_ok.mpr ⟨(), _, outs, by rw [cpuExec, if_pos hend]; rfl, hrun, rfl⟩⟩
    | call hend hloop _ ih =>
        obtain ⟨outs, hrun⟩ := ih
        have hcall := execLoop_eq_ok.mpr ⟨_, hloop⟩
        refine ⟨_, DetSystem.run_cons_ok.mpr ⟨(), _, outs, ?_, hrun, rfl⟩⟩
        rw [cpuExec, if_neg hend, hcall]
        rfl

end Monitor

end Nemu
