/-
  Nemu.Monitor.Session

  The commands of `monitor/debug/ui.c`, once their arguments have been read.

  Whatever is asked, watched and deleted in between, and however the instructions are divided
  among `si` and `c`, the machine goes through the same states as without a debugger.
-/

import Nemu.Lib.DetSystem
import Nemu.Monitor.EndState
import Nemu.Monitor.SetWatchpoint

namespace Nemu

open Outcome

namespace Monitor

/-! ## `ui.c` -/

/-- The commands that do more than print the state of the debugger. -/
inductive Command where
  | c
  | si (num_exed : Option (BitVec 32))
  | infoR
  | x (num_checkd : Int) (start_lochx : BitVec 32)
  | p (args : List Char)
  | w (args : List Char)
  | d (num_d : Int)

/-- What a command prints. -/
inductive Answer where
  | none
  | words (ws : List (BitVec 32))
  | watchpoint (new_dot : Option WpIdx)

/-- The loop of `cmd_x` with `n` turns left. -/
def readWords (env : ExprEnv) : Nat → BitVec 32 → Except Abort (List (BitVec 32))
  | 0, _ => .ok []
  | n + 1, addr => do
      let v ← readWord env addr
      let vs ← readWords env n (addr + 4)
      return v :: vs

-- `*success` is a null pointer in `cmd_p`
def command (depth : Nat) (m : Monitor) : Command → Except Abort (Answer × Monitor)
  | .c => do
      let r ← m.cpuExec depth (-1)
      return (.none, r.2)
  | .si num_exed => do
      let r ← m.cpuExec depth (num_exed.getD 1)
      return (.none, r.2)
  | .infoR => .ok (.words ((List.finRange 8).map m.emu.cpu.gpr ++ [m.emu.cpu.eip]), m)
  | .x num_checkd start_lochx => do
      let ws ← readWords m.env num_checkd.toNat start_lochx
      return (.words ws, m)
  | .p args => do
      let r ← expr m.env args none m.table
      return (.words [r.1], { m with table := r.2.2 })
  | .w args => do
      let r ← m.setWatchpoint args
      return (.watchpoint r.1, r.2)
  | .d num_d => do
      let s ← cmdD num_d m.wps
      return (.none, { m with wps := s })

/-! ## The program -/

/-- The machine on its way: all but `nemu_state`. -/
def resumed (emu : Emu) : Emu := { emu with nemuState := .RUNNING }

-- without a debugger
def program (depth : Nat) : Nat → Emu → Except Abort Emu
  | 0, emu => .ok emu
  | k + 1, emu => do
      let r ← execInstr depth emu
      program depth k (resumed r.2)

/-- How many instructions a command may execute. -/
def Command.instructions : Command → Nat
  | .c => 2 ^ 32 - 1
  | .si num_exed => (num_exed.getD 1).toNat
  | _ => 0

theorem program_add {depth : Nat} (k : Nat) : ∀ (j : Nat) (emu emu' : Emu),
    program depth j emu = .ok emu' → program depth (j + k) emu = program depth k emu' := by
  intro j
  induction j with
  | zero =>
      intro emu emu' h
      obtain rfl := Except.ok.inj h
      rw [Nat.zero_add]
  | succ j ih =>
      intro emu emu' h
      rw [program] at h
      obtain ⟨r, hinstr, hrest⟩ := bind_eq_ok.mp h
      rw [show j + 1 + k = j + k + 1 by omega, program, hinstr, ok_bind]
      exact ih _ emu' hrest

section Session

variable {depth : Nat} {m m' : Monitor}

theorem resumed_of_running {emu : Emu} (h : emu.nemuState = .RUNNING) : resumed emu = emu := by
  rw [resumed, ← h]

-- a check may stop the machine
theorem resumed_checkWatchpoints {c : Bool} (h : m.checkWatchpoints = .ok (c, m')) :
    resumed m'.emu = resumed m.emu := by
  rw [checkWatchpoints] at h
  obtain ⟨⟨changed, m₁⟩, hcheck, h⟩ := bind_eq_ok.mp h
  obtain ⟨⟨check, t, s⟩, -, hm₁⟩ := bind_eq_ok.mp hcheck
  obtain ⟨-, rfl⟩ := Prod.mk.inj (pure_eq_ok.mp hm₁)
  obtain ⟨-, rfl⟩ := Prod.mk.inj (pure_eq_ok.mp h)
  cases changed <;> rfl

theorem execOne_program (k : Nat) (h : m.execOne depth = .ok m') :
    program depth (k + 1) m.emu = program depth k (resumed m'.emu) := by
  obtain ⟨r, hinstr, hm'⟩ := bind_eq_ok.mp h
  obtain rfl := pure_eq_ok.mp hm'
  rw [program, hinstr, ok_bind]

/-- The loop of `cpu_exec` executes the next instructions of the program. -/
theorem Loop.program_eq {n : Nat} {checks : List Check} (h : Loop depth n m checks m') :
    m.emu.nemuState = .RUNNING → ∃ k ≤ n, program depth k m.emu = .ok (resumed m'.emu) := by
  induction h with
  | finish m =>
      intro hrunning
      refine ⟨0, Nat.le_refl 0, ?_⟩
      rw [program, if_pos hrunning, ← resumed_of_running hrunning]
      rfl
  | stop hinstr hcheck _ =>
      intro _
      refine ⟨1, Nat.succ_le_succ (Nat.zero_le _), ?_⟩
      rw [execOne_program 0 hinstr, program, resumed_checkWatchpoints hcheck]
  | next hinstr hcheck hstate _ ih =>
      intro _
      obtain ⟨k, hk, hprogram⟩ := ih hstate
      refine ⟨k + 1, Nat.succ_le_succ hk, ?_⟩
      rw [execOne_program k hinstr, ← resumed_checkWatchpoints hcheck, resumed_of_running hstate]
      exact hprogram

theorem cpuExec_program {n : BitVec 32} {u : Unit} (h : m.cpuExec depth n = .ok (u, m')) :
    ∃ k ≤ n.toNat, program depth k (resumed m.emu) = .ok (resumed m'.emu) := by
  rw [cpuExec] at h
  by_cases hend : m.emu.nemuState = .END
  · rw [if_pos hend] at h
    obtain ⟨-, rfl⟩ := Prod.mk.inj (pure_eq_ok.mp h)
    exact ⟨0, Nat.zero_le _, rfl⟩
  · rw [if_neg hend] at h
    obtain ⟨m₁, hloop, h⟩ := bind_eq_ok.mp h
    obtain ⟨-, rfl⟩ := Prod.mk.inj (pure_eq_ok.mp h)
    obtain ⟨checks, hloop⟩ := execLoop_eq_ok.mp hloop
    exact hloop.program_eq rfl

/-- A command leaves the machine alone, or executes the next instructions of the program. -/
theorem command_program {cmd : Command} {a : Answer} (h : m.command depth cmd = .ok (a, m')) :
    ∃ k ≤ cmd.instructions, program depth k (resumed m.emu) = .ok (resumed m'.emu) := by
  cases cmd with
  | c =>
      obtain ⟨r, hexec, h⟩ := bind_eq_ok.mp h
      obtain ⟨-, rfl⟩ := Prod.mk.inj (pure_eq_ok.mp h)
      exact cpuExec_program hexec
  | si num_exed =>
      obtain ⟨r, hexec, h⟩ := bind_eq_ok.mp h
      obtain ⟨-, rfl⟩ := Prod.mk.inj (pure_eq_ok.mp h)
      exact cpuExec_program hexec
  | infoR =>
      obtain ⟨-, rfl⟩ := Prod.mk.inj (Except.ok.inj h)
      exact ⟨0, Nat.zero_le _, rfl⟩
  | x num_checkd start_lochx =>
      obtain ⟨ws, -, h⟩ := bind_eq_ok.mp h
      obtain ⟨-, rfl⟩ := Prod.mk.inj (pure_eq_ok.mp h)
      exact ⟨0, Nat.zero_le _, rfl⟩
  | p args =>
      obtain ⟨r, -, h⟩ := bind_eq_ok.mp h
      obtain ⟨-, rfl⟩ := Prod.mk.inj (pure_eq_ok.mp h)
      exact ⟨0, Nat.zero_le _, rfl⟩
  | w args =>
      obtain ⟨r, hset, h⟩ := bind_eq_ok.mp h
      obtain ⟨-, rfl⟩ := Prod.mk.inj (pure_eq_ok.mp h)
      obtain ⟨v, -, hset⟩ := bind_eq_ok.mp hset
      obtain ⟨s, -, hset⟩ := bind_eq_ok.mp hset
      obtain rfl := pure_eq_ok.mp hset
      exact ⟨0, Nat.zero_le _, rfl⟩
  | d num_d =>
      obtain ⟨s, -, h⟩ := bind_eq_ok.mp h
      obtain ⟨-, rfl⟩ := Prod.mk.inj (pure_eq_ok.mp h)
      exact ⟨0, Nat.zero_le _, rfl⟩

theorem session_program (cmds : List Command) : ∀ (m : Monitor) (answers : List Answer),
    DetSystem.run (command depth) m cmds = .ok (answers, m') →
      ∃ k ≤ (cmds.map Command.instructions).sum,
        program depth k (resumed m.emu) = .ok (resumed m'.emu) := by
  induction cmds with
  | nil =>
      intro m answers h
      obtain ⟨-, rfl⟩ := Prod.mk.inj (Except.ok.inj h)
      exact ⟨0, Nat.zero_le _, rfl⟩
  | cons cmd cmds ih =>
      intro m answers h
      obtain ⟨a, m₁, answers', hcmd, hrest, -⟩ := DetSystem.run_cons_ok.mp h
      obtain ⟨j, hj, hfirst⟩ := command_program hcmd
      obtain ⟨k, hk, hthen⟩ := ih m₁ answers' hrest
      refine ⟨j + k, ?_, (program_add k j _ _ hfirst).trans hthen⟩
      rw [List.map_cons, List.sum_cons]
      exact Nat.add_le_add hj hk

/-- **The debugger does not change the program.** Two sessions with one machine, whatever they
    watch and ask: the machine of the one that has executed fewer instructions gets to the state
    of the other's by executing more. -/
theorem sessions_agree {n n' : Monitor} (hsame : resumed m.emu = resumed n.emu)
    {cmds cmds' : List Command} {answers answers' : List Answer}
    (hm : DetSystem.run (command depth) m cmds = .ok (answers, m'))
    (hn : DetSystem.run (command depth) n cmds' = .ok (answers', n')) :
    ∃ j k, j ≤ (cmds.map Command.instructions).sum ∧ k ≤ (cmds'.map Command.instructions).sum ∧
      program depth j (resumed m.emu) = .ok (resumed m'.emu) ∧
      program depth k (resumed m.emu) = .ok (resumed n'.emu) ∧
      (j ≤ k → program depth (k - j) (resumed m'.emu) = .ok (resumed n'.emu)) ∧
      (k ≤ j → program depth (j - k) (resumed n'.emu) = .ok (resumed m'.emu)) := by
  obtain ⟨j, hj, hprogram⟩ := session_program cmds m answers hm
  obtain ⟨k, hk, hprogram'⟩ := session_program cmds' n answers' hn
  rw [← hsame] at hprogram'
  refine ⟨j, k, hj, hk, hprogram, hprogram', fun hle => ?_, fun hle => ?_⟩
  · rw [← program_add (k - j) j _ _ hprogram, Nat.add_sub_cancel' hle]
    exact hprogram'
  · rw [← program_add (j - k) k _ _ hprogram', Nat.add_sub_cancel' hle]
    exact hprogram

end Session

-- one session asks for EAX and steps, one deletes the watchpoint and continues
theorem sessions_agree_trap :
    ∃ answers m' answers' n',
      DetSystem.run (command 1) (trapMonitor 0) [.p ['$', 'e', 'a', 'x'], .si none, .infoR] =
        .ok (answers, m') ∧
      DetSystem.run (command 1) (trapMonitor 0) [.d 0, .c] = .ok (answers', n') ∧
      ∃ j k, j ≤ 0 + (1 + (0 + 0)) ∧ k ≤ 0 + (2 ^ 32 - 1 + 0) ∧
        program 1 j (resumed (trapMonitor 0).emu) = .ok (resumed m'.emu) ∧
        program 1 k (resumed (trapMonitor 0).emu) = .ok (resumed n'.emu) ∧
        (j ≤ k → program 1 (k - j) (resumed m'.emu) = .ok (resumed n'.emu)) ∧
        (k ≤ j → program 1 (j - k) (resumed n'.emu) = .ok (resumed m'.emu)) := by
  obtain ⟨answers, m', hm⟩ : ∃ answers m', DetSystem.run (command 1) (trapMonitor 0)
      [.p ['$', 'e', 'a', 'x'], .si none, .infoR] = .ok (answers, m') := ⟨_, _, rfl⟩
  obtain ⟨answers', n', hn⟩ : ∃ answers' n', DetSystem.run (command 1) (trapMonitor 0)
      [.d 0, .c] = .ok (answers', n') := ⟨_, _, rfl⟩
  exact ⟨answers, m', answers', n', hm, hn, sessions_agree rfl hm hn⟩

end Monitor

end Nemu
