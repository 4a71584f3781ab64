import Xv6.Proc.Invariant

/-!
# The quantum of a level

`trap` charges one tick to the process that a timer interrupt finds on the
CPU, and calls `yield` when the process has used up the quantum of its level,
`1 << priority` ticks.  The counter `ticksRunning` is reset by `yield` only.
The law of this file compares it with the number of ticks that were charged
since the process entered its level, which is read off the history of the
run.
-/

namespace Xv6

open Lib

variable {ncpu : Nat}

/-! ## How steps change priorities and counters -/

def Action.boosts : Action ncpu → Bool
  | .boost _ => true
  | _ => false

namespace Kernel

/-- The process that an action takes out of its level. -/
def yields (k : Kernel ncpu) : Action ncpu → Option ProcId
  | .yield c => k.cpuProc c
  | _ => none

/-- The process that an action charges a tick to. -/
def charges (k : Kernel ncpu) : Action ncpu → Option ProcId
  | .charge c => k.cpuProc c
  | _ => none

variable {k after : Kernel ncpu} {levels next : Levels ProcId}
  {action : Action ncpu}

/-- The priority and the counter of a process. -/
private def counters (process : Proc) : Nat × Nat :=
  (process.priority, process.ticksRunning)

/-- Only allocation, a boost and `yield` set a priority, and only `yield` and
the charge of a timer interrupt set a counter. -/
private theorem Effect.counters (effect : Effect k levels action after next)
    (q : ProcId) :
    Kernel.counters (after.ptable.view q) =
      (if k.allocates action = some q ∨ action.boosts then 0
       else if k.yields action = some q then
        PTable.loweredPriority (k.ptable.proc q).priority
       else (k.ptable.proc q).priority,
       if k.yields action = some q then 0
       else if k.charges action = some q then
        uintAdd (k.ptable.proc q).ticksRunning 1
       else (k.ptable.proc q).ticksRunning) := by
  cases effect with
  | userinitAlloc free control slot small views
  | forkAlloc free control current idle slot small views =>
      rw [PTable.read_update Kernel.counters views q]
      simp only [Kernel.counters, allocates, yields, charges, Action.boosts,
        slot, Option.some.injEq, reduceCtorEq, if_false, or_false,
        Bool.false_eq_true, eq_comm]
      split
      · rename_i same
        rw [same]
        rfl
      · rfl
  | yield free control current views | charge control current views =>
      rename_i c p table
      rw [PTable.read_update Kernel.counters views q]
      by_cases same : q = p
      · subst q
        simp [Kernel.counters, allocates, yields, charges, Action.boosts,
          current]
      · simp [Kernel.counters, allocates, yields, charges, Action.boosts,
          current, same, Ne.symm same]
  | boost free views => exact congrArg Kernel.counters (congrFun views q)
  | exit free control current idle different grows views =>
      rw [views]
      exact read_exitView Kernel.counters k.ptable.view _ k.initproc
        (fun _ _ => by simp [Kernel.counters])
        (fun _ => by simp [Kernel.counters]) (fun _ => rfl) q
  | kill free found grows views =>
      exact PTable.read_same Kernel.counters views
        (by simp [Kernel.counters]) q
  | wakeup free grows views =>
      rw [views]
      simp [Kernel.counters, allocates, yields, charges, Action.boosts]
  | waitReaped current starts result found views =>
      have read := PTable.read_same_twice Kernel.counters views rfl rfl q
      cases starts <;> exact read
  | waitFailed current starts result nothing reason views
  | waitSleeps current starts result nothing views =>
      have read := PTable.read_same Kernel.counters views rfl q
      cases starts <;> exact read
  | forkFail control current failed views =>
      have read := PTable.read_same Kernel.counters views rfl q
      rcases failed with ⟨rfl, _⟩ | ⟨rfl, _⟩ <;> exact read
  | idle | resume | switchBack | killNone | clock => rfl
  | forkAllocFull full =>
      simp [Kernel.counters, allocates, yields, charges, Action.boosts, full]
  | _ =>
      rename_i views
      exact PTable.read_same Kernel.counters views rfl q

theorem Effect.priority (effect : Effect k levels action after next)
    (q : ProcId) :
    (after.ptable.proc q).priority =
      if k.allocates action = some q ∨ action.boosts then 0
      else if k.yields action = some q then
        PTable.loweredPriority (k.ptable.proc q).priority
      else (k.ptable.proc q).priority :=
  congrArg Prod.fst (effect.counters q)

theorem Effect.ticksRunning (effect : Effect k levels action after next)
    (q : ProcId) :
    (after.ptable.proc q).ticksRunning =
      if k.yields action = some q then 0
      else if k.charges action = some q then
        uintAdd (k.ptable.proc q).ticksRunning 1
      else (k.ptable.proc q).ticksRunning :=
  congrArg Prod.snd (effect.counters q)

end Kernel

/-! ## The timer interrupt -/

/-- A state with the history of the run that reached it. -/
abbrev Traced (ncpu : Nat) :=
  History (Kernel ncpu) (Action ncpu) × Kernel ncpu

namespace Traced

/-- Execute an action and record it. -/
def perform (s : Traced ncpu) (action : Action ncpu) :
    Except Fault (Traced ncpu) := do
  let after ← s.2.exec action
  .ok ((s.2, action) :: s.1, after)

/-- The channel `&ticks`. -/
def ticksChan : Chan := .addr 0

/-- The timer case of `trap`: CPU 0 keeps the time. -/
def clockTick (s : Traced ncpu) (c : Fin ncpu) :
    Except Fault (Traced ncpu) :=
  if c.val = 0 then do
    let s ← s.perform (.clock c)
    let s ← s.perform (.wakeup c ticksChan)
    if s.2.ticks % boostTimer = 0 then s.perform (.boost c) else .ok s
  else .ok s

/-- The end of `trap`: charge the tick and compare with the quantum. -/
def quantumCheck (s : Traced ncpu) (c : Fin ncpu) (p : ProcId) :
    Except Fault (Traced ncpu) := do
  let s ← s.perform (.charge c)
  if 1 <<< (s.2.ptable.proc p).priority ≤ (s.2.ptable.proc p).ticksRunning
  then s.perform (.yield c)
  else .ok s

/-- `trap` of a timer interrupt, which `user` says whether it came from user
space.  A killed process that was in user space does not reach the end of
`trap`: it goes on with `exit`. -/
def trap (s : Traced ncpu) (c : Fin ncpu) (user : Bool) :
    Except Fault (Traced ncpu) := do
  let s ← s.clockTick c
  match s.2.cpuProc c with
  | none => .ok s
  | some p =>
      if (s.2.ptable.proc p).killed ∧ user then .ok s
      else if (s.2.ptable.proc p).state = .running then s.quantumCheck c p
      else .ok s

end Traced

/-- The actions of a timer interrupt.  No other code makes them. -/
def Action.ofTimer : Action ncpu → Bool
  | .clock _ => true
  | .boost _ => true
  | .charge _ => true
  | .yield _ => true
  | _ => false

/-- What happens next: an action of other code, or a timer interrupt of a
CPU. -/
inductive TimedLabel (ncpu : Nat) where
  | action (action : Action ncpu)
  | timer (c : Fin ncpu) (user : Bool)

/-- A timer interrupt is handled in one go.  It comes when no CPU is inside a
critical section, to a CPU in a process or in `scheduler`. -/
def Traced.next (s : Traced ncpu) : TimedLabel ncpu → Option (Traced ncpu)
  | .action action =>
      if action.ofTimer = false ∧ s.2.enabled action = true then
        (s.perform action).toOption
      else none
  | .timer c user =>
      if s.2.lock = none ∧
          (s.2.control c = .process ∨ s.2.control c = .scheduler) then
        (s.trap c user).toOption
      else none

/-- The kernel with timer interrupts that are handled in one go. -/
def timedKernel (ncpu : Nat) :
    Lib.System (Traced ncpu) (TimedLabel ncpu) where
  step before label after := before.next label = some after

/-! ## Ticks charged since a process entered its level -/

/-- A step by which a process enters a level: its allocation, a boost that
changes its priority, or its `yield`. -/
def Kernel.entersLevel (k : Kernel ncpu) (action : Action ncpu)
    (p : ProcId) : Bool :=
  k.allocates action = some p ∨
    (action.boosts ∧ (k.ptable.proc p).priority ≠ 0) ∨
    k.yields action = some p

/-- The ticks charged to a process since it last entered a level. -/
def ticksCharged :
    History (Kernel ncpu) (Action ncpu) → ProcId → Nat
  | [], _ => 0
  | (k, action) :: history, p =>
      if k.entersLevel action p then 0
      else if k.charges action = some p then ticksCharged history p + 1
      else ticksCharged history p

/-- At each `yield` of a history, the process has been charged exactly the
quantum of the level it leaves. -/
def QuantumLaw : History (Kernel ncpu) (Action ncpu) → Prop
  | [] => True
  | (k, action) :: history =>
      (∀ p, k.yields action = some p →
        ticksCharged history p = 2 ^ (k.ptable.proc p).priority) ∧
      QuantumLaw history

/-! ## The invariant between interrupts -/

namespace Traced

variable {s : Traced ncpu} {after : Kernel ncpu} {action : Action ncpu}
  {levels next : Levels ProcId} {p q : ProcId}

/-- Between interrupts the counter of a process is the number of ticks charged
at its level, except at level 0, where no tick can be left over and the
counter may be stale. -/
structure Kept (s : Traced ncpu) (p : ProcId) : Prop where
  bound : (s.2.ptable.proc p).ticksRunning < 2 ^ nprio
  first : (s.2.ptable.proc p).priority = 0 → ticksCharged s.1 p = 0
  later : (s.2.ptable.proc p).priority ≠ 0 →
    (s.2.ptable.proc p).ticksRunning = ticksCharged s.1 p ∧
      ticksCharged s.1 p < 2 ^ (s.2.ptable.proc p).priority

/-- Between the charge of a tick and the test. -/
structure Due (s : Traced ncpu) (p : ProcId) : Prop where
  bound : (s.2.ptable.proc p).ticksRunning ≤ 2 ^ nprio
  first : (s.2.ptable.proc p).priority = 0 →
    ticksCharged s.1 p = 1 ∧ 1 ≤ (s.2.ptable.proc p).ticksRunning
  later : (s.2.ptable.proc p).priority ≠ 0 →
    (s.2.ptable.proc p).ticksRunning = ticksCharged s.1 p ∧
      ticksCharged s.1 p ≤ 2 ^ (s.2.ptable.proc p).priority

/-- Steps that neither charge nor yield. -/
theorem Kept.quiet (kept : s.Kept q)
    (effect : s.2.Effect levels action after next)
    (noYield : s.2.yields action ≠ some q)
    (noCharge : s.2.charges action ≠ some q) :
    Kept ((s.2, action) :: s.1, after) q := by
  have ticks := effect.ticksRunning q
  have priority := effect.priority q
  rw [if_neg noYield, if_neg noCharge] at ticks
  rw [if_neg noYield] at priority
  have charged : ticksCharged ((s.2, action) :: s.1) q =
      if s.2.entersLevel action q then 0 else ticksCharged s.1 q := by
    simp only [ticksCharged, noCharge, if_false]
  by_cases fresh : s.2.allocates action = some q ∨ action.boosts = true
  · rw [if_pos fresh] at priority
    have nothing : ticksCharged ((s.2, action) :: s.1) q = 0 := by
      rw [charged]
      split
      · rfl
      · rename_i stays
        apply kept.first
        simp only [Kernel.entersLevel, decide_eq_true_eq] at stays
        rcases fresh with allocated | boosted
        · exact absurd (.inl allocated) stays
        · by_contra low
          exact stays (.inr (.inl ⟨boosted, low⟩))
    exact ⟨by rw [ticks]; exact kept.bound, fun _ => nothing,
      fun high => absurd priority high⟩
  · rw [if_neg fresh] at priority
    have stays : s.2.entersLevel action q = false := by
      simp only [Kernel.entersLevel, decide_eq_false_iff_not]
      rintro (allocated | ⟨boosted, _⟩ | yields)
      · exact fresh (.inl allocated)
      · exact fresh (.inr boosted)
      · exact noYield yields
    have same : ticksCharged ((s.2, action) :: s.1) q =
        ticksCharged s.1 q := by
      simp [charged, stays]
    constructor
    · simp only [ticks]
      exact kept.bound
    · simp only [priority, same]
      exact kept.first
    · simp only [priority, ticks, same]
      exact kept.later

/-- The charge of a tick. -/
theorem Kept.charge (kept : s.Kept p) {c : Fin ncpu}
    (effect : s.2.Effect levels (.charge c) after next)
    (current : s.2.cpuProc c = some p) :
    Due ((s.2, .charge c) :: s.1, after) p := by
  have small : (2 : Nat) ^ nprio < 2 ^ 32 := by decide
  have bound := kept.bound
  have charges : s.2.charges (.charge c) = some p := current
  have ticks := effect.ticksRunning p
  have priority := effect.priority p
  simp only [Kernel.yields, Kernel.allocates, Action.boosts, charges,
    reduceCtorEq, Bool.false_eq_true, or_self, if_false, if_true,
    uintAdd_of_lt (show (s.2.ptable.proc p).ticksRunning + 1 < 2 ^ 32 by
      omega)] at ticks priority
  have charged : ticksCharged ((s.2, .charge c) :: s.1) p =
      ticksCharged s.1 p + 1 := by
    simp [ticksCharged, Kernel.entersLevel, Kernel.allocates, Kernel.yields,
      Action.boosts, charges]
  constructor
  · simp only [ticks]
    omega
  · simp only [priority, ticks, charged]
    intro low
    have none_left := kept.first low
    omega
  · simp only [priority, ticks, charged]
    intro high
    have counted := kept.later high
    omega

/-- A process that has used up its quantum has been charged all of it. -/
theorem Due.charged (due : s.Due p)
    (used : 2 ^ (s.2.ptable.proc p).priority ≤
      (s.2.ptable.proc p).ticksRunning) :
    ticksCharged s.1 p = 2 ^ (s.2.ptable.proc p).priority := by
  by_cases low : (s.2.ptable.proc p).priority = 0
  · rw [low]
    exact (due.first low).1
  · have counted := due.later low
    omega

/-- A process that has not used up its quantum goes on. -/
theorem Due.kept (due : s.Due p)
    (left : ¬ 2 ^ (s.2.ptable.proc p).priority ≤
      (s.2.ptable.proc p).ticksRunning)
    (bounded : (s.2.ptable.proc p).priority < nprio) : s.Kept p := by
  have grows : 2 ^ (s.2.ptable.proc p).priority ≤ 2 ^ nprio :=
    Nat.pow_le_pow_right (by decide) bounded.le
  constructor
  · omega
  · intro low
    have counted := due.first low
    rw [low] at left
    omega
  · intro high
    have counted := due.later high
    omega

/-- `yield` starts a new quantum. -/
theorem kept_of_yield {c : Fin ncpu}
    (effect : s.2.Effect levels (.yield c) after next)
    (current : s.2.cpuProc c = some p) :
    Kept ((s.2, .yield c) :: s.1, after) p := by
  have yields : s.2.yields (.yield c) = some p := current
  have ticks := effect.ticksRunning p
  rw [if_pos yields] at ticks
  have charged : ticksCharged ((s.2, .yield c) :: s.1) p = 0 := by
    simp [ticksCharged, Kernel.entersLevel, yields]
  constructor
  · simp only [ticks]
    decide
  · intro _
    exact charged
  · intro _
    simp only [ticks, charged]
    exact ⟨trivial, Nat.two_pow_pos _⟩

/-- What every timed run keeps. -/
structure Timed (s : Traced ncpu) : Prop where
  run : Run (kernel ncpu) (.boot ncpu) s.1 s.2
  kept : ∀ p, s.Kept p
  law : QuantumLaw s.1

namespace Timed

variable {c : Fin ncpu} {final : Traced ncpu}

theorem quiet (timed : s.Timed) (enabled : s.2.enabled action = true)
    (noYield : s.2.yields action = none)
    (noCharge : s.2.charges action = none)
    (performed : s.perform action = .ok final) : final.Timed := by
  obtain ⟨after, executed, recorded⟩ := ok_of_bind performed
  cases recorded
  have taken : (kernel ncpu).step s.2 action after := ⟨enabled, executed⟩
  obtain ⟨levels, invariant⟩ := Kernel.invariant_of_run timed.run
  obtain ⟨next, _, effect⟩ := invariant.step taken
  refine ⟨.step timed.run taken, ?_, ?_, timed.law⟩
  · intro q
    exact (timed.kept q).quiet effect (by simp [noYield]) (by simp [noCharge])
  · intro p yields
    simp [noYield] at yields

/-- The actions of `clockTick` leave the lock and the CPUs alone. -/
private theorem perform_frame
    (clocks : action = .clock c ∨ action = .wakeup c ticksChan ∨
      action = .boost c)
    (performed : s.perform action = .ok final) :
    final.2.lock = s.2.lock ∧ final.2.control = s.2.control := by
  obtain ⟨after, executed, recorded⟩ := ok_of_bind performed
  cases recorded
  rcases clocks with rfl | rfl | rfl
  · cases executed
    exact ⟨rfl, rfl⟩
  · obtain ⟨table, _, stored⟩ := ok_of_bind executed
    cases stored
    exact ⟨rfl, rfl⟩
  · obtain ⟨table, _, stored⟩ := ok_of_bind executed
    cases stored
    exact ⟨rfl, rfl⟩

/-- `clockTick` leaves the lock free. -/
theorem clockTick (timed : s.Timed) (free : s.2.lock = none)
    (place : s.2.control c = .process ∨ s.2.control c = .scheduler)
    (ticked : s.clockTick c = .ok final) :
    final.Timed ∧ final.2.lock = none := by
  unfold Traced.clockTick at ticked
  split at ticked
  · rename_i isFirst
    obtain ⟨clocked, clocks, ticked⟩ := ok_of_bind ticked
    have clockTimed := timed.quiet
      (by simp [Kernel.enabled, isFirst, place]) rfl rfl clocks
    obtain ⟨sameLock, sameControl⟩ := perform_frame (.inl rfl) clocks
    rw [← sameLock] at free
    rw [← sameControl] at place
    obtain ⟨woken, wakes, ticked⟩ := ok_of_bind ticked
    have wokenTimed := clockTimed.quiet
      (by simp [Kernel.enabled, free, place]) rfl rfl wakes
    obtain ⟨sameLock, sameControl⟩ := perform_frame (.inr (.inl rfl)) wakes
    rw [← sameLock] at free
    rw [← sameControl] at place
    split at ticked
    · have boostTimed := wokenTimed.quiet
        (by simp [Kernel.enabled, free, place]) rfl rfl ticked
      obtain ⟨sameLock, _⟩ := perform_frame (.inr (.inr rfl)) ticked
      rw [← sameLock] at free
      exact ⟨boostTimed, free⟩
    · cases ticked
      exact ⟨wokenTimed, free⟩
  · cases ticked
    exact ⟨timed, free⟩

/-- The charge of a tick brings the process to the test. -/
theorem charge (timed : s.Timed) (free : s.2.lock = none)
    (current : s.2.cpuProc c = some p)
    (performed : s.perform (.charge c) = .ok final) :
    Run (kernel ncpu) (.boot ncpu) final.1 final.2 ∧ QuantumLaw final.1 ∧
      final.2.lock = none ∧ final.2.cpuProc c = some p ∧
      final.2.control c = .process ∧ final.Due p ∧
      ∀ q, q ≠ p → final.Kept q := by
  obtain ⟨levels, invariant⟩ := Kernel.invariant_of_run timed.run
  have inside := invariant.owners.cpus.process_of_free free current
  obtain ⟨after, executed, recorded⟩ := ok_of_bind performed
  cases recorded
  have taken : (kernel ncpu).step s.2 (.charge c) after :=
    ⟨by simp [Kernel.enabled, inside], executed⟩
  obtain ⟨next, _, effect⟩ := invariant.step taken
  simp only [Kernel.exec, Kernel.myproc_eq current] at executed
  cases executed
  refine ⟨.step timed.run taken, ⟨by simp [Kernel.yields], timed.law⟩,
    free, current, inside, (timed.kept p).charge effect current, ?_⟩
  intro q different
  refine (timed.kept q).quiet effect (by simp [Kernel.yields]) ?_
  simpa [Kernel.charges, current] using Ne.symm different

/-- The quantum test yields exactly at the end of a quantum. -/
theorem quantumCheck (timed : s.Timed) (free : s.2.lock = none)
    (current : s.2.cpuProc c = some p)
    (checked : s.quantumCheck c p = .ok final) : final.Timed := by
  obtain ⟨charged, performed, checked⟩ := ok_of_bind checked
  obtain ⟨run, law, free, current, inside, due, others⟩ :=
    timed.charge free current performed
  obtain ⟨levels, invariant⟩ := Kernel.invariant_of_run run
  rw [Nat.one_shiftLeft] at checked
  split at checked
  · rename_i used
    obtain ⟨after, executed, recorded⟩ := ok_of_bind checked
    cases recorded
    have taken : (kernel ncpu).step charged.2 (.yield c) after :=
      ⟨by simp [Kernel.enabled, free, inside], executed⟩
    obtain ⟨next, _, effect⟩ := invariant.step taken
    refine ⟨.step run taken, ?_, ?_, law⟩
    · intro q
      by_cases same : q = p
      · subst q
        exact kept_of_yield effect current
      · refine (others q same).quiet effect ?_ (by simp [Kernel.charges])
        simpa [Kernel.yields, current] using Ne.symm same
    · intro q yielder
      have same : p = q := by
        simpa [Kernel.yields, current] using yielder
      subst q
      exact due.charged used
  · rename_i left
    cases checked
    refine ⟨run, ?_, law⟩
    intro q
    by_cases same : q = p
    · subst q
      exact due.kept left (invariant.ready.bounded p)
    · exact others q same

theorem trap (timed : s.Timed) (free : s.2.lock = none)
    (place : s.2.control c = .process ∨ s.2.control c = .scheduler)
    {user : Bool} (handled : s.trap c user = .ok final) : final.Timed := by
  obtain ⟨middle, ticked, handled⟩ := ok_of_bind handled
  obtain ⟨middleTimed, middleFree⟩ := timed.clockTick free place ticked
  cases current : middle.2.cpuProc c with
  | none =>
      simp only [current] at handled
      cases handled
      exact middleTimed
  | some p =>
      simp only [current] at handled
      split at handled
      · cases handled
        exact middleTimed
      · split at handled
        · exact middleTimed.quantumCheck middleFree current handled
        · cases handled
          exact middleTimed

/-- Every step of the timed kernel keeps the invariant. -/
theorem step (timed : s.Timed) {label : TimedLabel ncpu}
    (taken : s.next label = some final) : final.Timed := by
  cases label with
  | action action =>
      simp only [Traced.next] at taken
      split at taken
      · rename_i guard
        apply timed.quiet guard.2 _ _ (ok_of_toOption taken)
        · cases action <;> simp_all [Action.ofTimer, Kernel.yields]
        · cases action <;> simp_all [Action.ofTimer, Kernel.charges]
      · cases taken
  | timer c user =>
      simp only [Traced.next] at taken
      split at taken
      · rename_i guard
        exact timed.trap guard.1 guard.2 (ok_of_toOption taken)
      · cases taken

theorem boot : Timed (([], .boot ncpu) : Traced ncpu) := by
  refine ⟨.refl, ?_, trivial⟩
  intro p
  constructor
  · exact Nat.two_pow_pos nprio
  · intro _
    rfl
  · intro high
    exact absurd rfl high

end Timed

end Traced

theorem QuantumLaw.at {later past : History (Kernel ncpu) (Action ncpu)}
    {k : Kernel ncpu} {action : Action ncpu}
    (law : QuantumLaw (later ++ (k, action) :: past)) {p : ProcId}
    (yields : k.yields action = some p) :
    ticksCharged past p = 2 ^ (k.ptable.proc p).priority := by
  induction later with
  | nil => exact law.1 p yields
  | cons entry later induction => exact induction law.2

/-- The quantum law: whenever `yield` takes a process out of its level, to the
next one or back into the last one, exactly `2 ^ priority` ticks have been
charged to it since it entered the level. -/
theorem yield_after_quantum {s : Traced ncpu}
    {steps : History (Traced ncpu) (TimedLabel ncpu)}
    {later past : History (Kernel ncpu) (Action ncpu)} {k : Kernel ncpu}
    {c : Fin ncpu} {p : ProcId}
    (timed : Run (timedKernel ncpu) ([], .boot ncpu) steps s)
    (occurs : s.1 = later ++ (k, .yield c) :: past)
    (current : k.cpuProc c = some p) :
    ticksCharged past p = 2 ^ (k.ptable.proc p).priority ∧
      ∃ after, (kernel ncpu).step k (.yield c) after ∧
        (after.ptable.proc p).priority =
          if (k.ptable.proc p).priority = nprio - 1 then
            (k.ptable.proc p).priority
          else (k.ptable.proc p).priority + 1 := by
  have kept : s.Timed := timed.invariant .boot
    fun taken before => before.step taken
  have law := kept.law
  have run := kept.run
  rw [occurs] at law run
  refine ⟨law.at current, ?_⟩
  obtain ⟨after, earlier, taken, _⟩ := run.split_at
  obtain ⟨levels, invariant⟩ := Kernel.invariant_of_run earlier
  obtain ⟨next, _, effect⟩ := invariant.step taken
  refine ⟨after, taken, ?_⟩
  have yields : k.yields (.yield c) = some p := current
  rw [effect.priority p, ← loweredPriority_eq (invariant.ready.bounded p)]
  simp [Kernel.allocates, Action.boosts, yields]

/-- The first process uses up its quanta at levels 0 and 1. -/
theorem yield_after_quantum_level_one :
    ∃ steps s later past k,
      Run (timedKernel 1) ([], .boot 1) steps s ∧
      s.1 = later ++ (k, .yield 0) :: past ∧
      (k.ptable.proc 0).priority = 1 ∧ ticksCharged past 0 = 2 := by
  have passed : (replay Traced.next [] ([], .boot 1)
      ((Kernel.bootActions 0).map .action ++
        [.timer 0 true, .action (.switchBack 0), .action (.schedule 0),
          .action (.resume 0), .timer 0 true, .timer 0 true])).any
        (fun result => match result.2.1 with
          | [] => false
          | (k, action) :: _ => decide (action = .yield 0 ∧
              k.cpuProc 0 = some 0 ∧ (k.ptable.proc 0).priority = 1)) =
      true := by
    decide +kernel
  have sound : ∀ {before label after}, Traced.next before label = some after →
      (timedKernel 1).step before label after := id
  obtain ⟨steps, s, timed, facts⟩ := Run.of_replay sound passed
  cases occurs : s.1 with
  | nil => simp [occurs] at facts
  | cons entry past =>
      obtain ⟨k, action⟩ := entry
      simp only [occurs, decide_eq_true_eq] at facts
      obtain ⟨rfl, current, level⟩ := facts
      have split : s.1 = [] ++ (k, .yield 0) :: past := occurs
      have law := (yield_after_quantum timed split current).1
      rw [level] at law
      exact ⟨steps, s, [], past, k, timed, occurs, level, law⟩

/-- The quanta that a process has used since its slot was allocated or the
last boost. -/
def quantaUsed : History (Kernel ncpu) (Action ncpu) → ProcId → Nat
  | [], _ => 0
  | (k, action) :: history, p =>
      if k.allocates action = some p ∨ action.boosts then 0
      else if k.yields action = some p then quantaUsed history p + 1
      else quantaUsed history p

/-- The priority of a process is the number of quanta it has used, up to the
last level. -/
theorem priority_eq_quantaUsed {k : Kernel ncpu}
    {history : History (Kernel ncpu) (Action ncpu)}
    (run : Run (kernel ncpu) (.boot ncpu) history k) (p : ProcId) :
    (k.ptable.proc p).priority = min (quantaUsed history p) (nprio - 1) := by
  induction run with
  | refl => rfl
  | step earlier taken induction =>
      obtain ⟨_, invariant⟩ := Kernel.invariant_of_run earlier
      obtain ⟨_, _, effect⟩ := invariant.step taken
      rw [effect.priority p, loweredPriority_eq (invariant.ready.bounded p),
        induction, quantaUsed]
      split
      · exact (Nat.zero_min _).symm
      · split
        · split <;> omega
        · rfl

/-- The first process has used one quantum. -/
theorem priority_eq_quantaUsed_one :
    ∃ history k, Run (kernel 1) (.boot 1) history k ∧
      (k.ptable.proc 0).priority = 1 := by
  have passed : (replay Kernel.next [] (.boot 1)
      (Kernel.bootActions 0 ++ [.yield 0])).any
      (fun result => decide (quantaUsed result.1 0 = 1)) = true := by
    decide +kernel
  obtain ⟨history, k, run, used⟩ := Run.of_replay Kernel.step_of_next passed
  refine ⟨history, k, run, ?_⟩
  rw [priority_eq_quantaUsed run, of_decide_eq_true used]
  rfl

end Xv6
