import Xv6.Proc.Family

/-!
# The life of a process

A slot goes round in one cycle.  `allocproc` takes it, `fork` or `userinit`
starts the process or `fork` gives the slot back, the process runs until it
exits, and a `wait` of its parent frees the slot.  `Turn` lists the moves
between these stages together with the actions that make them.  The `pid` is
drawn when the slot is taken and cleared when it is freed, so that no two
processes ever share one.
-/

namespace Xv6

open Lib

variable {ncpu : Nat}

/-- The process that an action ends. -/
def Kernel.exits (k : Kernel ncpu) : Action ncpu → Option ProcId
  | .exit c => k.cpuProc c
  | _ => none

/-- What an action can do to the stage of the life in the slot `q`. -/
inductive Kernel.Turn (k : Kernel ncpu) (action : Action ncpu)
    (q : ProcId) : ProcState → ProcState → Prop where
  | stays {before after : ProcState}
      (kin : ProcState.Kin before after)
      (allocates : k.allocates action ≠ some q)
      (exits : k.exits action ≠ some q)
      (reaps : k.reaps action ≠ some q) :
      Turn k action q before after
  | allocated
      (allocates : k.allocates action = some q) :
      Turn k action q .unused .embryo
  | started :
      Turn k action q .embryo .runnable
  | givenUp :
      Turn k action q .embryo .unused
  | exited
      (exits : k.exits action = some q) :
      Turn k action q .running .zombie
  | reaped
      (reaps : k.reaps action = some q) :
      Turn k action q .zombie .unused

namespace Kernel

variable {k after : Kernel ncpu} {levels next : Levels ProcId}
  {action : Action ncpu} {c : Fin ncpu} {p q : ProcId}

theorem allocates_unused (allocates : k.allocates action = some q) :
    k.ptable.state q = .unused := by
  cases action with
  | userinitAlloc | forkAlloc => exact freeSlot_unused allocates
  | _ => cases allocates

/-- A scan that frees a slot is one of its current parent, and finds the
process exited. -/
theorem reaps_child (reaps : k.reaps action = some q) :
    ∃ p result, k.waitResult action = some (p, result) ∧
      k.ptable.zombieChild p = some q := by
  obtain ⟨⟨p, result⟩, scan, found⟩ := Option.bind_eq_some_iff.mp reaps
  exact ⟨p, result, scan, found⟩

theorem reaps_zombie (reaps : k.reaps action = some q) :
    k.ptable.state q = .zombie := by
  obtain ⟨p, _, _, found⟩ := reaps_child reaps
  exact (zombieChild_some found).2

/-- An action that takes no slot, ends no process and frees no slot. -/
structure Plain (k : Kernel ncpu) (action : Action ncpu) : Prop where
  allocates : k.allocates action = none
  exits : k.exits action = none
  reaps : k.reaps action = none

theorem Plain.turn (plain : k.Plain action)
    {before later : ProcState} (kin : ProcState.Kin before later) :
    Turn k action q before later :=
  .stays kin (by simp [plain.allocates]) (by simp [plain.exits])
    (by simp [plain.reaps])

theorem Plain.turn_update (plain : k.Plain action) {table : PTable}
    {entry : Proc}
    (views : table.view = Function.update k.ptable.view p entry)
    (kin : ProcState.Kin (k.ptable.state p) entry.state) :
    Turn k action q (k.ptable.state q) (table.state q) :=
  plain.turn (kin_update views kin q)

theorem WaitStart.exits_none {chan : Option Chan}
    (starts : WaitStart k c p action chan) : k.exits action = none := by
  cases starts <;> rfl

theorem WaitStart.plain {chan : Option Chan} {result : PTable.WaitResult}
    (starts : WaitStart k c p action chan)
    (scan : k.waitResult action = some (p, result))
    (nothing : k.ptable.zombieChild p = none) : k.Plain action :=
  ⟨starts.allocates_none, starts.exits_none, by simp [reaps, scan, nothing]⟩

theorem plain_resume (onCpu : k.cpuProc c = some p)
    (other : (k.ptable.proc p).context ≠ .wait) :
    k.Plain (.resume c) :=
  ⟨rfl, rfl, by simp [reaps, waitResult, onCpu, other]⟩

/-- A slot other than the one a step is about. -/
private theorem turn_other {value : ProcState}
    (allocates : ∀ r, k.allocates action = some r → r = p)
    (exits : ∀ r, k.exits action = some r → r = p)
    (reaps : ∀ r, k.reaps action = some r → r = p) (other : q ≠ p) :
    Turn k action q (k.ptable.state q)
      (Function.update k.ptable.state p value q) := by
  rw [Function.update_of_ne other]
  refine .stays (.refl _) ?_ ?_ ?_
  · exact fun taken => other (allocates q taken)
  · exact fun ended => other (exits q ended)
  · exact fun freed => other (reaps q freed)

private theorem turn_allocates {table : PTable} {entry : Proc}
    (allocates : k.allocates action = some p)
    (exits : k.exits action = none) (reaps : k.reaps action = none)
    (views : table.view = Function.update k.ptable.view p entry)
    (state : entry.state = .embryo) :
    Turn k action q (k.ptable.state q) (table.state q) := by
  rw [PTable.state_eq_update views, state]
  by_cases same : q = p
  · subst q
    rw [Function.update_self, allocates_unused allocates]
    exact .allocated allocates
  · refine turn_other ?_ (by simp [exits]) (by simp [reaps]) same
    intro r taken
    simpa [allocates] using taken.symm

private theorem turn_holds {table : PTable} {entry : Proc}
    (plain : k.Plain action)
    (isEmbryo : k.ptable.state p = .embryo)
    (views : table.view = Function.update k.ptable.view p entry)
    (state : entry.state = .runnable ∨ entry.state = .unused) :
    Turn k action q (k.ptable.state q) (table.state q) := by
  rw [PTable.state_eq_update views]
  by_cases same : q = p
  · subst q
    rw [Function.update_self, isEmbryo]
    rcases state with isRunnable | isUnused
    · rw [isRunnable]
      exact .started
    · rw [isUnused]
      exact .givenUp
  · exact turn_other (by simp [plain.allocates]) (by simp [plain.exits])
      (by simp [plain.reaps]) same

/-- Every step takes every slot through one turn of its life. -/
theorem Effect.turn (owners : k.Owners) (ready : Ready k.ptable levels)
    (effect : Effect k levels action after next) (q : ProcId) :
    Turn k action q (k.ptable.state q) (after.ptable.state q) := by
  have current : ∀ {d : Fin ncpu} {r : ProcId}, k.control d = .process →
      k.cpuProc d = some r → k.ptable.state r = .running :=
    fun control onCpu =>
      owners.cpus.current_running (by simp [control]) onCpu
  cases effect with
  | userinitAlloc free control slot small views
  | forkAlloc free control onCpu idle slot small views =>
      exact turn_allocates slot rfl rfl views rfl
  | userinitKalloc control views | forkKalloc control onCpu holds views
  | forkCopy control onCpu holds views | charge control onCpu views
  | userTrap control onCpu idle views =>
      exact Plain.turn_update ⟨rfl, rfl, rfl⟩ views (.refl _)
  | @userinitEnqueue c p table free control views =>
      have isEmbryo : k.ptable.state p = .embryo :=
        owners.slots.embryo (.cpu c) p (by simp [held, control, Control.held])
      exact turn_holds ⟨rfl, rfl, rfl⟩ isEmbryo views (.inl rfl)
  | idle | switchBack | killNone | clock =>
      exact Plain.turn ⟨rfl, rfl, rfl⟩ (.refl _)
  | @dispatch c p rest table free control chosen head views =>
      have isRunnable : k.ptable.state p = .runnable :=
        ready.chosen_runnable chosen
      exact Plain.turn_update ⟨rfl, rfl, rfl⟩ views
        (.of_alive (.inr (.inl isRunnable)) (.inl rfl))
  | @resume c p control onCpu context =>
      refine (plain_resume onCpu ?_).turn (.refl _)
      rcases context with first | second
      · simp [first]
      · simp [second]
  | @resumeSleep c p table control onCpu context views =>
      exact (plain_resume onCpu (by simp [context])).turn_update views
        (.refl _)
  | @waitReaped c p child table action chan onCpu starts result found views =>
      have reaped : k.reaps action = some child := by
        simp [reaps, result, found]
      change Turn k action q _ (table.view q).state
      rw [PTable.read_update_twice Proc.state views rfl]
      by_cases same : q = child
      · subst q
        rw [reaps_zombie reaped, if_pos rfl]
        exact .reaped reaped
      · rw [if_neg same]
        refine .stays (.refl _) (by simp [starts.allocates_none])
          (by simp [starts.exits_none]) ?_
        rw [reaped]
        simpa using Ne.symm same
  | waitFailed onCpu starts result nothing reason views =>
      exact (starts.plain result nothing).turn_update views (.refl _)
  | waitSleeps onCpu starts result nothing views =>
      have isRunning := owners.cpus.current_running starts.place onCpu
      exact (starts.plain result nothing).turn_update views
        (.of_alive (running_alive isRunning) (.inr (.inr rfl)))
  | yield free control onCpu views =>
      exact Plain.turn_update ⟨rfl, rfl, rfl⟩ views
        (.of_alive (running_alive (current control onCpu)) (.inr (.inl rfl)))
  | sleep free control onCpu views =>
      exact Plain.turn_update ⟨rfl, rfl, rfl⟩ views
        (.of_alive (running_alive (current control onCpu)) (.inr (.inr rfl)))
  | @exit c p table grown free control onCpu idle different grows views =>
      change Turn k _ q _ (table.view q).state
      rw [views]
      by_cases same : q = p
      · subst q
        rw [exitView_self, current control onCpu]
        exact .exited onCpu
      · refine .stays (wakes_exitView k.ptable.view k.initproc same).kin
          (by simp [allocates]) ?_ (by simp [reaps, waitResult])
        simpa [exits, onCpu] using Ne.symm same
  | @forkAllocFull c full =>
      have plain : k.Plain (.forkAlloc c) := ⟨full, rfl, rfl⟩
      exact plain.turn (.refl _)
  | @forkFail c p np table action control onCpu failed views =>
      have plain : k.Plain action := by
        rcases failed with ⟨rfl, _⟩ | ⟨rfl, _⟩
        · exact ⟨rfl, rfl, rfl⟩
        · exact ⟨rfl, rfl, rfl⟩
      have isEmbryo : k.ptable.state np = .embryo := by
        apply owners.slots.embryo (.process p) np
        rcases failed with ⟨_, holds⟩ | ⟨_, holds⟩
        · simp [held, holds, Activity.held]
        · simp [held, holds, Activity.held]
      exact turn_holds plain isEmbryo views (.inr rfl)
  | @forkEnqueue c p np table free control onCpu holds views =>
      have isEmbryo : k.ptable.state np = .embryo :=
        owners.slots.embryo (.process p) np
          (by simp [held, holds, Activity.held])
      exact turn_holds ⟨rfl, rfl, rfl⟩ isEmbryo views (.inl rfl)
  | kill free found grows views =>
      exact Plain.turn_update ⟨rfl, rfl, rfl⟩ views
        (Proc.wakes_markKilled _).kin
  | @wakeup c chan table grown free grows views =>
      change Turn k _ q _ (table.view q).state
      rw [views]
      exact Plain.turn ⟨rfl, rfl, rfl⟩ (Proc.wakes_wake _ _).kin
  | @boost c table free views =>
      change Turn k _ q _ (table.view q).state
      rw [views]
      exact Plain.turn ⟨rfl, rfl, rfl⟩ (.refl _)

/-! ## Process identifiers -/

private theorem pid_plain (plain : k.Plain action)
    (same : (after.ptable.view q).pid = (k.ptable.view q).pid) :
    (after.ptable.proc q).pid =
      if k.allocates action = some q then k.nextpid
      else if k.reaps action = some q then 0
      else (k.ptable.proc q).pid := by
  simpa [plain.allocates, plain.reaps] using same

private theorem pid_allocates {table : PTable} {entry : Proc}
    (allocates : k.allocates action = some p) (reaps : k.reaps action = none)
    (views : table.view = Function.update k.ptable.view p entry)
    (pid : entry.pid = k.nextpid) :
    (table.proc q).pid =
      if k.allocates action = some q then k.nextpid
      else if k.reaps action = some q then 0
      else (k.ptable.proc q).pid := by
  have read := PTable.read_update Proc.pid views q
  simp only [allocates, reaps, Option.some.injEq, reduceCtorEq, if_false]
  rw [← PTable.view_pid, read, pid]
  simp only [eq_comm, PTable.view_pid]

/-- A slot gets its `pid` when it is taken and keeps it until it is
freed. -/
theorem Effect.pid (effect : Effect k levels action after next)
    (q : ProcId) :
    (after.ptable.proc q).pid =
      if k.allocates action = some q then k.nextpid
      else if k.reaps action = some q then 0
      else (k.ptable.proc q).pid := by
  cases effect with
  | userinitAlloc free control slot small views
  | forkAlloc free control onCpu idle slot small views =>
      exact pid_allocates slot rfl views rfl
  | idle | switchBack | killNone | clock =>
      exact pid_plain ⟨rfl, rfl, rfl⟩ rfl
  | forkAllocFull full => exact pid_plain ⟨full, rfl, rfl⟩ rfl
  | @resume c p control onCpu context =>
      refine pid_plain (plain_resume onCpu ?_) rfl
      rcases context with first | second
      · simp [first]
      · simp [second]
  | resumeSleep control onCpu context views =>
      exact pid_plain (plain_resume onCpu (by simp [context]))
        (PTable.read_same Proc.pid views rfl q)
  | waitFailed onCpu starts result nothing reason views
  | waitSleeps onCpu starts result nothing views =>
      exact pid_plain (starts.plain result nothing)
        (PTable.read_same Proc.pid views rfl q)
  | @waitReaped c p child table action chan onCpu starts result found views =>
      have reaped : k.reaps action = some child := by
        simp [reaps, result, found]
      change (table.view q).pid = _
      rw [PTable.read_update_twice Proc.pid views rfl, reaped,
        starts.allocates_none]
      simp [eq_comm]
  | @exit c p table grown free control onCpu idle different grows views =>
      have same := read_exitView Proc.pid k.ptable.view p k.initproc
        Proc.wake_pid (fun _ => Proc.adopt_pid _ _ _) (fun _ => rfl) q
      rw [← views] at same
      simpa [allocates, reaps, waitResult] using same
  | forkFail control onCpu failed views =>
      have same := PTable.read_same Proc.pid views rfl q
      rcases failed with ⟨rfl, _⟩ | ⟨rfl, _⟩
      · exact pid_plain ⟨rfl, rfl, rfl⟩ same
      · exact pid_plain ⟨rfl, rfl, rfl⟩ same
  | kill free found grows views =>
      exact pid_plain ⟨rfl, rfl, rfl⟩
        (PTable.read_same Proc.pid views (Proc.markKilled_pid _) q)
  | wakeup free grows views =>
      refine pid_plain ⟨rfl, rfl, rfl⟩ ?_
      simp only [views]
      exact Proc.wake_pid _ _
  | boost free views =>
      refine pid_plain ⟨rfl, rfl, rfl⟩ ?_
      simp only [views]
  | _ =>
      rename_i views
      exact pid_plain ⟨rfl, rfl, rfl⟩
        (PTable.read_same Proc.pid views rfl q)

theorem Effect.nextpid (effect : Effect k levels action after next) :
    after.nextpid =
      if (k.allocates action).isSome then k.nextpid + 1 else k.nextpid := by
  cases effect with
  | userinitAlloc free control slot small views =>
      simp [allocates, slot]
  | forkAlloc free control onCpu idle slot small views =>
      simp [allocates, slot]
  | forkAllocFull full => simp [allocates, full]
  | waitReaped onCpu starts =>
      rw [starts.allocates_none]
      rfl
  | waitFailed onCpu starts =>
      rw [starts.allocates_none]
      rfl
  | waitSleeps onCpu starts =>
      rw [starts.allocates_none]
      rfl
  | forkFail control onCpu failed =>
      rcases failed with ⟨rfl, _⟩ | ⟨rfl, _⟩ <;> rfl
  | _ => rfl

/-- The processes have different positive `pid`s, all drawn before the next
one. -/
structure Pids (k : Kernel ncpu) : Prop where
  positive : 1 ≤ k.nextpid
  drawn : ∀ q, k.ptable.state q ≠ .unused →
    1 ≤ (k.ptable.proc q).pid ∧ (k.ptable.proc q).pid < k.nextpid
  distinct : ∀ q r, k.ptable.state q ≠ .unused →
    k.ptable.state r ≠ .unused →
    (k.ptable.proc q).pid = (k.ptable.proc r).pid → q = r

/-- A slot in use was in use before, with the same `pid`, or has just been
taken. -/
private theorem pid_before
    (turn : Turn k action q (k.ptable.state q) (after.ptable.state q))
    (pid : (after.ptable.proc q).pid =
      if k.allocates action = some q then k.nextpid
      else if k.reaps action = some q then 0
      else (k.ptable.proc q).pid)
    (inUse : after.ptable.state q ≠ .unused) :
    (k.allocates action = some q ∧
      (after.ptable.proc q).pid = k.nextpid) ∨
    (k.ptable.state q ≠ .unused ∧
      (after.ptable.proc q).pid = (k.ptable.proc q).pid) := by
  by_cases taken : k.allocates action = some q
  · rw [if_pos taken] at pid
    exact .inl ⟨taken, pid⟩
  · have kept : k.reaps action ≠ some q ∧ k.ptable.state q ≠ .unused := by
      generalize before : k.ptable.state q = state at turn
      generalize later : after.ptable.state q = state' at turn inUse
      cases turn with
      | stays kin _ _ reaps =>
          exact ⟨reaps, fun isUnused => inUse (kin.2.2.mpr isUnused)⟩
      | allocated allocates => exact absurd allocates taken
      | givenUp => exact absurd rfl inUse
      | reaped => exact absurd rfl inUse
      | started =>
          refine ⟨fun freed => ?_, by decide⟩
          simp [reaps_zombie freed] at before
      | exited =>
          refine ⟨fun freed => ?_, by decide⟩
          simp [reaps_zombie freed] at before
    rw [if_neg taken, if_neg kept.1] at pid
    exact .inr ⟨kept.2, pid⟩

theorem Effect.pids (owners : k.Owners) (ready : Ready k.ptable levels)
    (pids : k.Pids) (effect : Effect k levels action after next) :
    after.Pids := by
  have before := fun q =>
    pid_before (effect.turn owners ready q) (effect.pid q)
  have fresh := effect.nextpid
  have grows : k.nextpid ≤ after.nextpid := by
    rw [fresh]
    split <;> omega
  have taken : ∀ q, k.allocates action = some q →
      after.nextpid = k.nextpid + 1 := by
    intro q allocates
    simpa [allocates] using fresh
  constructor
  · exact le_trans pids.positive grows
  · intro q inUse
    have positive := pids.positive
    rcases before q inUse with ⟨allocates, pid⟩ | ⟨wasInUse, pid⟩
    · have next := taken q allocates
      omega
    · have drawn := pids.drawn q wasInUse
      omega
  · intro q r qInUse rInUse same
    rcases before q qInUse with ⟨qTaken, qPid⟩ | ⟨qWasInUse, qPid⟩
    · rcases before r rInUse with ⟨rTaken, _⟩ | ⟨rWasInUse, rPid⟩
      · simpa [qTaken] using rTaken
      · have drawn := pids.drawn r rWasInUse
        omega
    · rcases before r rInUse with ⟨rTaken, rPid⟩ | ⟨rWasInUse, rPid⟩
      · have drawn := pids.drawn q qWasInUse
        omega
      · apply pids.distinct q r qWasInUse rWasInUse
        omega

/-- In every state of every run the processes have different positive
`pid`s. -/
theorem pids_of_run {history : History (Kernel ncpu) (Action ncpu)}
    (run : Run (kernel ncpu) (boot ncpu) history k) : k.Pids := by
  have initial : (boot ncpu).Pids := by
    have unused : ∀ q, (boot ncpu).ptable.state q = .unused := fun _ => rfl
    constructor
    · exact le_refl 1
    · intro q inUse
      exact absurd (unused q) inUse
    · intro q r inUse
      exact absurd (unused q) inUse
  apply run.invariant_history initial
  intro past before action after previous taken pids
  obtain ⟨levels, invariant⟩ := invariant_of_run previous
  obtain ⟨next, _, effect⟩ := invariant.step taken
  exact effect.pids invariant.owners invariant.ready pids

end Kernel

end Xv6
