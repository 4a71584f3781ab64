import Xv6.Proc.Life
import Xv6.Proc.Quantum

/-!
# The quantum of a new process

`allocproc` sets the priority of the slot that it takes and leaves
`ticksRunning` alone, and so does `wait` when it frees the slot.  What a new
process starts with is what the last owners of its slot were charged since
one of them called `yield`, which is read off the history of the run.
-/

namespace Xv6

open Lib

variable {ncpu : Nat}

namespace Kernel

/-- The slot that `allocproc` returns with an action. -/
def returns (k : Kernel ncpu) : Action ncpu → Option ProcId
  | .userinitKalloc c =>
      match k.control c with
      | .allocproc p => some p
      | _ => none
  | .forkKalloc c true =>
      match k.running c with
      | .allocproc np => some np
      | _ => none
  | _ => none

end Kernel

/-- The ticks charged to the owners of a slot since one of them called
`yield`. -/
def ticksLeft : History (Kernel ncpu) (Action ncpu) → ProcId → Nat
  | [], _ => 0
  | (k, action) :: history, p =>
      if k.yields action = some p then 0
      else if k.charges action = some p then ticksLeft history p + 1
      else ticksLeft history p

namespace Kernel

variable {k after : Kernel ncpu} {action : Action ncpu} {p q : ProcId}
  {history : History (Kernel ncpu) (Action ncpu)}

theorem held_of_returns (returned : k.returns action = some p) :
    ∃ holder, k.held holder = some p := by
  cases action with
  | userinitKalloc c =>
      simp only [returns] at returned
      split at returned
      · rename_i slot control
        cases returned
        exact ⟨.cpu c, by simp [held, control, Control.held]⟩
      · cases returned
  | forkKalloc c success =>
      cases success with
      | false => cases returned
      | true =>
          simp only [returns] at returned
          split at returned
          · rename_i slot running
            cases returned
            unfold Kernel.running at running
            split at running
            · cases running
            · rename_i parent current
              exact ⟨.process parent, by simp [held, running, Activity.held]⟩
          · cases returned
  | _ => cases returned

/-- A process that is taken out of its level is running. -/
theorem running_of_yields {levels : Levels ProcId}
    (invariant : k.Invariant levels)
    (enabled : k.enabled action = true) (yields : k.yields action = some q) :
    k.ptable.state q = .running := by
  cases action with
  | yield c =>
      simp only [Kernel.enabled, decide_eq_true_eq] at enabled
      exact invariant.owners.cpus.current_running (.inl enabled.2) yields
  | _ => cases yields

/-- A slot that `allocproc` has taken keeps the priority it was given until
its process starts. -/
theorem embryo_priority (run : Run (kernel ncpu) (boot ncpu) history k) :
    ∀ q, k.ptable.state q = .embryo → (k.ptable.proc q).priority = 0 := by
  induction run with
  | refl =>
      intro q embryo
      cases embryo
  | @step past before after action earlier taken fresh =>
      intro q embryo
      obtain ⟨levels, invariant⟩ := invariant_of_run earlier
      obtain ⟨next, _, effect⟩ := invariant.step taken
      have turn := effect.turn invariant.owners invariant.ready q
      rw [embryo] at turn
      rw [effect.priority q]
      generalize was : before.ptable.state q = state at turn
      cases turn with
      | allocated allocates => rw [if_pos (.inl allocates)]
      | stays kin allocates exits reaps =>
          have embryo : state = .embryo := by
            revert kin
            cases state <;> simp [ProcState.Kin, ProcState.Alive]
          subst state
          have waits : before.yields action ≠ some q := by
            intro yields
            have running := running_of_yields invariant taken.1 yields
            rw [embryo] at running
            cases running
          rw [if_neg waits, fresh q embryo]
          split <;> rfl

/-- The counter of a slot is what its owners were charged since one of them
called `yield`. -/
theorem ticksRunning_of_run
    (run : Run (kernel ncpu) (boot ncpu) history k) (q : ProcId) :
    (k.ptable.proc q).ticksRunning = ticksLeft history q % 2 ^ 32 := by
  induction run with
  | refl => rfl
  | step earlier taken induction =>
      obtain ⟨levels, invariant⟩ := invariant_of_run earlier
      obtain ⟨next, _, effect⟩ := invariant.step taken
      rw [effect.ticksRunning q, induction, ticksLeft]
      split
      · rfl
      · split
        · exact Nat.mod_add_mod _ _ _
        · rfl

/-- `allocproc` returns a slot of priority 0.  Its quantum is fresh exactly
when the owners the slot has had were charged no ticks since one of them last
called `yield`, up to the wrap of the counter. -/
theorem allocproc_fresh_iff
    (run : Run (kernel ncpu) (boot ncpu) history k)
    (taken : (kernel ncpu).step k action after)
    (returned : k.returns action = some p) :
    (after.ptable.proc p).priority = 0 ∧
      ((after.ptable.proc p).ticksRunning = 0 ↔
        ticksLeft history p % 2 ^ 32 = 0) := by
  obtain ⟨levels, invariant⟩ := invariant_of_run run
  obtain ⟨next, _, effect⟩ := invariant.step taken
  obtain ⟨holder, holds⟩ := held_of_returns returned
  have embryo := invariant.owners.slots.embryo holder p holds
  have zero := embryo_priority run p embryo
  have waits : k.yields action ≠ some p ∧ k.charges action ≠ some p := by
    cases action with
    | userinitKalloc | forkKalloc => exact ⟨nofun, nofun⟩
    | _ => cases returned
  constructor
  · rw [effect.priority p, if_neg waits.1, zero]
    split <;> rfl
  · rw [effect.ticksRunning p, if_neg waits.1, if_neg waits.2,
      ticksRunning_of_run run p]

/-- The first process starts with a fresh quantum. -/
theorem allocproc_fresh_first :
    ∃ history k after, Run (kernel 1) (boot 1) history k ∧
      (kernel 1).step k (.userinitKalloc 0) after ∧
      k.returns (.userinitKalloc 0) = some 0 ∧
      (after.ptable.proc 0).ticksRunning = 0 := by
  have passed : (replay next [] (boot 1) [.userinitAlloc 0]).any
      (fun result => decide (ticksLeft result.1 0 = 0 ∧
        result.2.returns (.userinitKalloc 0) = some 0 ∧
        (result.2.next (.userinitKalloc 0)).isSome)) = true := by
    decide +kernel
  obtain ⟨history, k, run, facts⟩ := Run.of_replay step_of_next passed
  simp only [decide_eq_true_eq] at facts
  obtain ⟨none, returned, goes⟩ := facts
  obtain ⟨after, taken⟩ := Option.isSome_iff_exists.mp goes
  have step := step_of_next taken
  have ticks := (allocproc_fresh_iff run step returned).2
  rw [none] at ticks
  exact ⟨history, k, after, run, step, returned, ticks.mpr (Nat.zero_mod _)⟩

end Kernel

/-- A child is charged one tick of its second quantum and exits, and `fork`
gives its slot with that tick to the next child. -/
theorem allocproc_keeps_ticks :
    ∃ steps s past k, Run (timedKernel 1) ([], .boot 1) steps s ∧
      s.1 = (k, .forkKalloc 0 true) :: past ∧
      k.returns (.forkKalloc 0 true) = some 1 ∧
      (s.2.ptable.proc 1).ticksRunning = 1 := by
  have passed : (replay Traced.next [] ([], .boot 1)
      ((Kernel.bootActions 0 ++ Kernel.forkActions 0).map .action ++
        [.action (.wait 0), .action (.switchBack 0), .action (.schedule 0),
          .action (.resume 0), .timer 0 true,
          .action (.switchBack 0), .action (.schedule 0),
          .action (.resume 0), .timer 0 true, .action (.exit 0),
          .action (.switchBack 0), .action (.schedule 0),
          .action (.resume 0), .action (.forkAlloc 0),
          .action (.forkKalloc 0 true)])).any
        (fun result => match result.2.1 with
          | [] => false
          | (k, action) :: _ => decide (action = .forkKalloc 0 true ∧
              k.returns (.forkKalloc 0 true) = some 1 ∧
              (result.2.2.ptable.proc 1).ticksRunning = 1)) = true := by
    decide +kernel
  have sound : ∀ {before label after}, Traced.next before label = some after →
      (timedKernel 1).step before label after := id
  obtain ⟨steps, s, timed, facts⟩ := Run.of_replay sound passed
  cases occurs : s.1 with
  | nil => simp [occurs] at facts
  | cons entry past =>
      obtain ⟨k, action⟩ := entry
      simp only [occurs, decide_eq_true_eq] at facts
      obtain ⟨rfl, returned, ticks⟩ := facts
      exact ⟨steps, s, past, k, timed, occurs, returned, ticks⟩

end Xv6
