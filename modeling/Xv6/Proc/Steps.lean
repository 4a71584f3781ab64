import Xv6.Proc.Sections
import Xv6.Proc.Owners

/-!
# What a step of the kernel can do

`Effect` lists the steps of the kernel: under which guards a step is taken,
what it makes of the lists of ready processes, of the view of every process
and of the state of the CPUs.  From a state with ready queues in which the
lock, the CPUs and the slots are in order, every step is one of these, so that
a property of runs is proved by cases on `Effect` and never unfolds the
kernel.
-/

namespace Xv6

open Lib

namespace Kernel

variable {ncpu : Nat}

/-- A scan of `wait` starts when it is called, or when its `sleep` returns and
has cleared the channel. -/
inductive WaitStart (k : Kernel ncpu) (c : Fin ncpu) (p : ProcId) :
    Action ncpu → Option Chan → Prop where
  | call
      (free : k.lock = none)
      (control : k.control c = .process)
      (idle : k.activity p = .other) :
      WaitStart k c p (.wait c) (k.ptable.proc p).chan
  | again
      (control : k.control c = .resumed)
      (context : (k.ptable.proc p).context = .wait) :
      WaitStart k c p (.resume c) none

/-- The steps of the kernel from a state whose ready processes are listed in
`levels`. -/
inductive Effect (k : Kernel ncpu) (levels : Levels ProcId) :
    Action ncpu → Kernel ncpu → Levels ProcId → Prop where
  | userinitAlloc {c : Fin ncpu} {p : ProcId} {table : PTable}
      (free : k.lock = none)
      (control : k.control c = .main)
      (slot : k.ptable.freeSlot = some p)
      (small : k.nextpid < intMax)
      (views : table.view = Function.update k.ptable.view p
        { k.ptable.view p with
          state := .embryo, pid := k.nextpid, priority := 0 }) :
      Effect k levels (.userinitAlloc c)
        { k with
          ptable := table
          nextpid := k.nextpid + 1
          control := Function.update k.control c (.allocproc p) }
        levels
  | userinitKalloc {c : Fin ncpu} {p : ProcId} {table : PTable}
      (control : k.control c = .allocproc p)
      (views : table.view = Function.update k.ptable.view p
        { k.ptable.view p with context := .forkret }) :
      Effect k levels (.userinitKalloc c)
        { k with
          ptable := table
          initproc := some p
          control := Function.update k.control c (.userinit p) }
        levels
  | userinitEnqueue {c : Fin ncpu} {p : ProcId} {table : PTable}
      (free : k.lock = none)
      (control : k.control c = .userinit p)
      (views : table.view = Function.update k.ptable.view p
        { k.ptable.view p with state := .runnable }) :
      Effect k levels (.userinitEnqueue c)
        { k with
          ptable := table
          control := Function.update k.control c .scheduler }
        (levels.push (k.ptable.proc p).priority p)
  | idle {c : Fin ncpu}
      (nothing : k.ptable.chosen = none) :
      Effect k levels (.schedule c) k levels
  | dispatch {c : Fin ncpu} {p : ProcId} {rest : List ProcId}
      {table : PTable}
      (free : k.lock = none)
      (control : k.control c = .scheduler)
      (chosen : k.ptable.chosen = some p)
      (head : levels (k.ptable.proc p).priority = p :: rest)
      (views : table.view = Function.update k.ptable.view p
        { k.ptable.view p with state := .running }) :
      Effect k levels (.schedule c)
        { k with
          ptable := table
          lock := some c
          cpuProc := Function.update k.cpuProc c (some p)
          control := Function.update k.control c .resumed }
        (Function.update levels (k.ptable.proc p).priority rest)
  | resume {c : Fin ncpu} {p : ProcId}
      (control : k.control c = .resumed)
      (onCpu : k.cpuProc c = some p)
      (context : (k.ptable.proc p).context = .forkret ∨
        (k.ptable.proc p).context = .yield) :
      Effect k levels (.resume c) (k.releaseLock c k.ptable) levels
  | resumeSleep {c : Fin ncpu} {p : ProcId} {table : PTable}
      (control : k.control c = .resumed)
      (onCpu : k.cpuProc c = some p)
      (context : (k.ptable.proc p).context = .sleep)
      (views : table.view = Function.update k.ptable.view p
        { k.ptable.view p with chan := none }) :
      Effect k levels (.resume c) (k.releaseLock c table) levels
  | waitReaped {c : Fin ncpu} {p child : ProcId} {table : PTable}
      {action : Action ncpu} {chan : Option Chan}
      (onCpu : k.cpuProc c = some p)
      (starts : WaitStart k c p action chan)
      (result : k.waitResult action =
        some (p, .returned (k.ptable.proc child).pid))
      (found : k.ptable.zombieChild p = some child)
      (views : table.view = Function.update
        (Function.update k.ptable.view p
          { k.ptable.view p with chan := chan })
        child
        { k.ptable.view child with
          pid := 0, parent := none, killed := false, state := .unused }) :
      Effect k levels action (k.releaseLock c table) levels
  | waitFailed {c : Fin ncpu} {p : ProcId} {table : PTable}
      {action : Action ncpu} {chan : Option Chan}
      (onCpu : k.cpuProc c = some p)
      (starts : WaitStart k c p action chan)
      (result : k.waitResult action = some (p, .returned (-1)))
      (nothing : k.ptable.zombieChild p = none)
      (reason : (∀ q, (k.ptable.proc q).parent ≠ some p) ∨
        (k.ptable.proc p).killed = true)
      (views : table.view = Function.update k.ptable.view p
        { k.ptable.view p with chan := chan }) :
      Effect k levels action (k.releaseLock c table) levels
  | waitSleeps {c : Fin ncpu} {p : ProcId} {table : PTable}
      {action : Action ncpu} {chan : Option Chan}
      (onCpu : k.cpuProc c = some p)
      (starts : WaitStart k c p action chan)
      (result : k.waitResult action = some (p, .sleeping))
      (nothing : k.ptable.zombieChild p = none)
      (views : table.view = Function.update k.ptable.view p
        { k.ptable.view p with
          chan := some (.proc p), state := .sleeping, context := .wait }) :
      Effect k levels action
        { k with
          ptable := table
          lock := some c
          control := Function.update k.control c .switched }
        levels
  | switchBack {c : Fin ncpu}
      (control : k.control c = .switched) :
      Effect k levels (.switchBack c)
        { k with
          lock := none
          cpuProc := Function.update k.cpuProc c none
          control := Function.update k.control c .scheduler }
        levels
  | yield {c : Fin ncpu} {p : ProcId} {table : PTable}
      (free : k.lock = none)
      (control : k.control c = .process)
      (onCpu : k.cpuProc c = some p)
      (views : table.view = Function.update k.ptable.view p
        { k.ptable.view p with
          priority := PTable.loweredPriority (k.ptable.proc p).priority
          ticksRunning := 0
          state := .runnable
          context := .yield }) :
      Effect k levels (.yield c)
        { k with
          ptable := table
          lock := some c
          control := Function.update k.control c .switched }
        (levels.push
          (PTable.loweredPriority (k.ptable.proc p).priority) p)
  | sleep {c : Fin ncpu} {p : ProcId} {address : Nat} {table : PTable}
      (free : k.lock = none)
      (control : k.control c = .process)
      (onCpu : k.cpuProc c = some p)
      (views : table.view = Function.update k.ptable.view p
        { k.ptable.view p with
          chan := some (.addr address)
          state := .sleeping
          context := .sleep }) :
      Effect k levels (.sleep c address)
        { k with
          ptable := table
          lock := some c
          control := Function.update k.control c .switched }
        levels
  | exit {c : Fin ncpu} {p : ProcId} {table : PTable}
      {grown : Levels ProcId}
      (free : k.lock = none)
      (control : k.control c = .process)
      (onCpu : k.cpuProc c = some p)
      (idle : k.activity p = .other)
      (different : k.initproc ≠ some p)
      (grows : Levels.Grows levels grown)
      (views : table.view = exitView k.ptable.view p k.initproc) :
      Effect k levels (.exit c)
        { k with
          ptable := table
          lock := some c
          control := Function.update k.control c .switched }
        grown
  | forkAllocFull {c : Fin ncpu}
      (full : k.ptable.freeSlot = none) :
      Effect k levels (.forkAlloc c) k levels
  | forkAlloc {c : Fin ncpu} {p np : ProcId} {table : PTable}
      (free : k.lock = none)
      (control : k.control c = .process)
      (onCpu : k.cpuProc c = some p)
      (idle : k.activity p = .other)
      (slot : k.ptable.freeSlot = some np)
      (small : k.nextpid < intMax)
      (views : table.view = Function.update k.ptable.view np
        { k.ptable.view np with
          state := .embryo, pid := k.nextpid, priority := 0 }) :
      Effect k levels (.forkAlloc c)
        { k with
          ptable := table
          nextpid := k.nextpid + 1
          activity := Function.update k.activity p (.allocproc np) }
        levels
  | forkKalloc {c : Fin ncpu} {p np : ProcId} {table : PTable}
      (control : k.control c = .process)
      (onCpu : k.cpuProc c = some p)
      (holds : k.activity p = .allocproc np)
      (views : table.view = Function.update k.ptable.view np
        { k.ptable.view np with context := .forkret }) :
      Effect k levels (.forkKalloc c true)
        { k with
          ptable := table
          activity := Function.update k.activity p (.fork np) }
        levels
  | forkFail {c : Fin ncpu} {p np : ProcId} {table : PTable}
      {action : Action ncpu}
      (control : k.control c = .process)
      (onCpu : k.cpuProc c = some p)
      (failed : action = .forkKalloc c false ∧ k.activity p = .allocproc np ∨
        action = .forkCopy c false ∧ k.activity p = .fork np)
      (views : table.view = Function.update k.ptable.view np
        { k.ptable.view np with state := .unused }) :
      Effect k levels action
        { k with
          ptable := table
          activity := Function.update k.activity p .other }
        levels
  | forkCopy {c : Fin ncpu} {p np : ProcId} {table : PTable}
      (control : k.control c = .process)
      (onCpu : k.cpuProc c = some p)
      (holds : k.activity p = .fork np)
      (views : table.view = Function.update k.ptable.view np
        { k.ptable.view np with parent := some p }) :
      Effect k levels (.forkCopy c true)
        { k with
          ptable := table
          activity := Function.update k.activity p (.forkCopied np) }
        levels
  | forkEnqueue {c : Fin ncpu} {p np : ProcId} {table : PTable}
      (free : k.lock = none)
      (control : k.control c = .process)
      (onCpu : k.cpuProc c = some p)
      (holds : k.activity p = .forkCopied np)
      (views : table.view = Function.update k.ptable.view np
        { k.ptable.view np with state := .runnable }) :
      Effect k levels (.forkEnqueue c)
        { k with
          ptable := table
          activity := Function.update k.activity p .other }
        (levels.push (k.ptable.proc np).priority np)
  | killNone {c : Fin ncpu} {pid : Int}
      (nothing : killTarget k.ptable pid = none) :
      Effect k levels (.kill c pid) k levels
  | kill {c : Fin ncpu} {pid : Int} {target : ProcId} {table : PTable}
      {grown : Levels ProcId}
      (free : k.lock = none)
      (found : killTarget k.ptable pid = some target)
      (grows : Levels.Grows levels grown)
      (views : table.view = Function.update k.ptable.view target
        (k.ptable.view target).markKilled) :
      Effect k levels (.kill c pid) { k with ptable := table } grown
  | wakeup {c : Fin ncpu} {chan : Chan} {table : PTable}
      {grown : Levels ProcId}
      (free : k.lock = none)
      (grows : Levels.Grows levels grown)
      (views : table.view = fun q => (k.ptable.view q).wake (some chan)) :
      Effect k levels (.wakeup c chan) { k with ptable := table } grown
  | boost {c : Fin ncpu} {table : PTable}
      (free : k.lock = none)
      (views : table.view =
        fun q => { k.ptable.view q with priority := 0 }) :
      Effect k levels (.boost c) { k with ptable := table }
        (levels.collapse nprio)
  | clock {c : Fin ncpu} :
      Effect k levels (.clock c)
        { k with ticks := uintAdd k.ticks 1 } levels
  | charge {c : Fin ncpu} {p : ProcId} {table : PTable}
      (control : k.control c = .process)
      (onCpu : k.cpuProc c = some p)
      (views : table.view = Function.update k.ptable.view p
        { k.ptable.view p with
          ticksRunning := uintAdd (k.ptable.proc p).ticksRunning 1 }) :
      Effect k levels (.charge c) { k with ptable := table } levels
  | userTrap {c : Fin ncpu} {p : ProcId} {table : PTable}
      (control : k.control c = .process)
      (onCpu : k.cpuProc c = some p)
      (idle : k.activity p = .other)
      (views : table.view = Function.update k.ptable.view p
        { k.ptable.view p with killed := true }) :
      Effect k levels (.userTrap c) { k with ptable := table } levels

/-! ## Every step has an effect -/

section

variable {k after : Kernel ncpu} {levels : Levels ProcId} {c : Fin ncpu}
  {p : ProcId}

/-- The step is one of `Effect` and leaves ready queues. -/
def Explained (k : Kernel ncpu) (levels : Levels ProcId)
    (action : Action ncpu) (after : Kernel ncpu) : Prop :=
  ∃ next, Ready after.ptable next ∧ Effect k levels action after next

theorem myproc_eq (current : k.cpuProc c = some p) : k.myproc c = .ok p := by
  simp [myproc, current]

theorem running_eq (current : k.cpuProc c = some p) :
    k.running c = k.activity p := by
  simp [running, current]

/-- What `sched` does with a table in which the process has changed its
state. -/
private theorem sched_eq {table : PTable} {context : Context}
    (left : (table.proc p).state ≠ .running) :
    k.sched c p context table = .ok
      { k with
        ptable := table.update p fun entry => { entry with context := context }
        lock := some c
        control := Function.update k.control c .switched } := by
  simp [sched, left]

private theorem view_context {table : PTable} {view : ProcId → Proc}
    {entry : Proc} (context : Context)
    (views : table.view = Function.update view p entry) :
    (table.update p fun entry => { entry with context := context }).view =
      Function.update view p { entry with context := context } := by
  rw [PTable.view_update]
  · rw [views]
    simp
  · intro process
    rfl

private theorem ready_context {table : PTable} (context : Context)
    (ready : Ready table levels) :
    Ready (table.update p fun entry => { entry with context := context })
      levels :=
  ready.update_same (fun _ => rfl) (fun _ => rfl) (fun _ => rfl)

private theorem ready_awake {table : PTable} (ready : Ready table levels) :
    Ready (table.update p fun entry => { entry with chan := none }) levels :=
  ready.update_same (fun _ => rfl) (fun _ => rfl) (fun _ => rfl)

private theorem effect_userinitAlloc (ready : Ready k.ptable levels)
    (guard : k.enabled (.userinitAlloc c) = true)
    (executed : k.exec (.userinitAlloc c) = .ok after) :
    Explained k levels (.userinitAlloc c) after := by
  simp only [enabled, decide_eq_true_eq] at guard
  simp only [exec] at executed
  obtain ⟨found, success, stored⟩ := ok_of_bind executed
  rcases allocproc_eq success with ⟨rfl, _⟩ | ⟨p, slot, small, rfl⟩
  · cases stored
  · cases stored
    exact ⟨levels, ready.allocproc slot k.nextpid,
      .userinitAlloc guard.1 guard.2 slot small
        (PTable.view_update _ _ fun _ => rfl)⟩

private theorem effect_userinitKalloc (ready : Ready k.ptable levels)
    (guard : k.enabled (.userinitKalloc c) = true)
    (executed : k.exec (.userinitKalloc c) = .ok after) :
    Explained k levels (.userinitKalloc c) after := by
  simp only [enabled, decide_eq_true_eq] at guard
  obtain ⟨p, control⟩ := guard
  simp only [exec, control] at executed
  cases executed
  exact ⟨levels, ready_context .forkret ready, .userinitKalloc control
    (PTable.view_update _ _ fun _ => rfl)⟩

private theorem effect_userinitEnqueue (owners : k.Owners)
    (ready : Ready k.ptable levels)
    (guard : k.enabled (.userinitEnqueue c) = true)
    (executed : k.exec (.userinitEnqueue c) = .ok after) :
    Explained k levels (.userinitEnqueue c) after := by
  simp only [enabled, decide_eq_true_eq] at guard
  obtain ⟨free, p, control⟩ := guard
  have isEmbryo : (k.ptable.proc p).state = .embryo :=
    owners.slots.embryo (.cpu c) p (by simp [held, control, Control.held])
  obtain ⟨table, success, still, views⟩ :=
    ready.enqueue (p := p) (by simp [isEmbryo])
  simp only [exec, control, success] at executed
  cases executed
  exact ⟨_, still, .userinitEnqueue free control views⟩

private theorem effect_schedule (ready : Ready k.ptable levels)
    (guard : k.enabled (.schedule c) = true)
    (executed : k.exec (.schedule c) = .ok after) :
    Explained k levels (.schedule c) after := by
  simp only [enabled, decide_eq_true_eq] at guard
  simp only [exec, schedule] at executed
  cases chosen : k.ptable.chosen with
  | none =>
      simp only [chosen] at executed
      cases executed
      exact ⟨levels, ready, .idle chosen⟩
  | some p =>
      obtain ⟨table, rest, success, head, still, views⟩ :=
        ready.dispatch chosen
      simp only [chosen, success] at executed
      cases executed
      exact ⟨_, still, .dispatch guard.1 guard.2 chosen head views⟩

/-- Assigning to `chan` only. -/
private theorem view_chan {table start : PTable} {chan : Option Chan}
    (same : start = table.update p fun entry => { entry with chan := chan }) :
    start.view = Function.update table.view p
      { table.view p with chan := chan } := by
  rw [same]
  exact table.view_update p fun _ => rfl

/-- The end of a scan of `wait` that starts from `start`. -/
private theorem effect_waitLoop (owners : k.Owners)
    (ready : Ready k.ptable levels) {action : Action ncpu}
    {start : PTable} {chan : Option Chan}
    (inside : k.control c = .process ∨ k.control c = .resumed)
    (current : k.cpuProc c = some p)
    (starts : WaitStart k c p action chan)
    (begins : start = k.ptable.update p fun entry =>
      { entry with chan := chan })
    (result : k.waitResult action = some (p, (start.wait p).1))
    (executed : k.waitLoop c p start = .ok after) :
    Explained k levels action after := by
  have isRunning : (k.ptable.proc p).state = .running :=
    owners.cpus.current_running inside current
  have startReady : Ready start levels := by
    rw [begins]
    exact ready.update_same (fun _ => rfl) (fun _ => rfl) (fun _ => rfl)
  have startView := view_chan begins
  have entry : ∀ q, q ≠ p → start.view q = k.ptable.view q := by
    intro q different
    rw [startView, Function.update_of_ne different]
  have parent : ∀ q, (start.proc q).parent = (k.ptable.proc q).parent := by
    intro q
    by_cases same : q = p
    · subst q
      simp [begins, PTable.update]
    · simpa using congrArg Proc.parent (entry q same)
  have state : ∀ q, (start.proc q).state = (k.ptable.proc q).state := by
    intro q
    by_cases same : q = p
    · subst q
      simp [begins, PTable.update]
    · simpa using congrArg Proc.state (entry q same)
  have killed : (start.proc p).killed = (k.ptable.proc p).killed := by
    simp [begins, PTable.update]
  have sameChild : start.zombieChild p = k.ptable.zombieChild p := by
    simp only [PTable.zombieChild, parent, state]
  have ends := wait_ends start p
  unfold waitLoop at executed
  generalize start.wait p = scan at ends executed result
  obtain ⟨outcome, table⟩ := scan
  simp only at ends executed result
  cases ends with
  | reaped child found =>
      cases executed
      rw [sameChild] at found
      have exited := (zombieChild_some found).2
      have different : child ≠ p := by
        rintro rfl
        simp [isRunning] at exited
      have pid : (start.proc child).pid = (k.ptable.proc child).pid := by
        simpa using congrArg Proc.pid (entry child different)
      rw [pid] at result
      refine ⟨levels, startReady.reap (by rw [state, exited]),
        .waitReaped current starts result found ?_⟩
      rw [PTable.view_reap, entry child different, startView]
  | failed nothing reason =>
      cases executed
      rw [sameChild] at nothing
      simp only [parent, killed] at reason
      exact ⟨levels, startReady, .waitFailed current starts result
        nothing reason startView⟩
  | sleeps nothing =>
      rw [sameChild] at nothing
      have sleepReady : Ready (start.sleep p (.proc p)) levels :=
        startReady.sleep (.proc p) (by simp [state, isRunning])
      simp only at executed
      rw [sched_eq (by simp [PTable.sleep, PTable.update])] at executed
      cases executed
      refine ⟨levels, ready_context .wait sleepReady,
        .waitSleeps current starts result nothing ?_⟩
      have slept := view_context .wait (start.view_sleep p (.proc p))
      rw [startView] at slept
      simpa using slept

private theorem effect_resume (owners : k.Owners)
    (ready : Ready k.ptable levels)
    (guard : k.enabled (.resume c) = true)
    (executed : k.exec (.resume c) = .ok after) :
    Explained k levels (.resume c) after := by
  simp only [enabled, decide_eq_true_eq] at guard
  obtain ⟨p, current, _⟩ := owners.cpus.onCpu c (.inr guard)
  simp only [exec, myproc_eq current] at executed
  change k.resume c p = .ok after at executed
  unfold resume at executed
  cases context : (k.ptable.proc p).context with
  | forkret =>
      simp only [context] at executed
      cases executed
      exact ⟨levels, ready, .resume guard current (.inl context)⟩
  | yield =>
      simp only [context] at executed
      cases executed
      exact ⟨levels, ready, .resume guard current (.inr context)⟩
  | sleep =>
      simp only [context] at executed
      cases executed
      exact ⟨levels, ready_awake ready,
        .resumeSleep guard current context
          (PTable.view_update _ _ fun _ => rfl)⟩
  | wait =>
      simp only [context] at executed
      exact effect_waitLoop owners ready (.inr guard) current
        (.again guard context) rfl
        (by simp [waitResult, current, context, awake]) executed

private theorem effect_wait (owners : k.Owners)
    (ready : Ready k.ptable levels)
    (guard : k.enabled (.wait c) = true)
    (executed : k.exec (.wait c) = .ok after) :
    Explained k levels (.wait c) after := by
  simp only [enabled, decide_eq_true_eq] at guard
  obtain ⟨free, control, idle⟩ := guard
  obtain ⟨p, current, _⟩ := owners.cpus.onCpu c (.inl control)
  rw [running_eq current] at idle
  simp only [exec, myproc_eq current] at executed
  have unchanged : k.ptable = k.ptable.update p fun entry =>
      { entry with chan := (k.ptable.proc p).chan } := by
    simp [PTable.update]
  exact effect_waitLoop owners ready (.inl control) current
    (.call free control idle) unchanged (by simp [waitResult, current])
    executed

private theorem effect_yield (owners : k.Owners)
    (ready : Ready k.ptable levels)
    (guard : k.enabled (.yield c) = true)
    (executed : k.exec (.yield c) = .ok after) :
    Explained k levels (.yield c) after := by
  simp only [enabled, decide_eq_true_eq] at guard
  obtain ⟨p, current, isRunning⟩ := owners.cpus.onCpu c (.inl guard.2)
  obtain ⟨table, success, still, views⟩ := ready.yield isRunning
  have left : (table.proc p).state ≠ .running := by
    rw [← PTable.view_state, views]
    simp
  simp only [exec, myproc_eq current] at executed
  change (k.ptable.yield p).bind _ = _ at executed
  rw [success] at executed
  change k.sched c p .yield table = .ok after at executed
  rw [sched_eq left] at executed
  cases executed
  exact ⟨_, ready_context .yield still, .yield guard.1 guard.2 current
    (view_context .yield views)⟩

private theorem effect_sleep (owners : k.Owners)
    (ready : Ready k.ptable levels) {address : Nat}
    (guard : k.enabled (.sleep c address) = true)
    (executed : k.exec (.sleep c address) = .ok after) :
    Explained k levels (.sleep c address) after := by
  simp only [enabled, decide_eq_true_eq] at guard
  obtain ⟨p, current, isRunning⟩ := owners.cpus.onCpu c (.inl guard.2)
  have waiting : (k.ptable.proc p).state ≠ .runnable := by
    change k.ptable.state p ≠ _
    simp [isRunning]
  simp only [exec, myproc_eq current] at executed
  change k.sched c p .sleep (k.ptable.sleep p (.addr address)) =
    .ok after at executed
  rw [sched_eq (by simp [PTable.sleep, PTable.update])] at executed
  cases executed
  exact ⟨levels, ready_context .sleep (ready.sleep (.addr address) waiting),
    .sleep guard.1 guard.2 current
      (view_context .sleep (k.ptable.view_sleep p (.addr address)))⟩

/-- `exit` keeps the context of the process. -/
private theorem exitView_context {view : ProcId → Proc}
    {initproc : Option ProcId} :
    (exitView view p initproc p).context = (view p).context := by
  simp only [exitView, Function.update_self, passedView, List.mem_finRange,
    if_true]
  split <;> simp

private theorem effect_exit (owners : k.Owners)
    (ready : Ready k.ptable levels)
    (guard : k.enabled (.exit c) = true)
    (executed : k.exec (.exit c) = .ok after) :
    Explained k levels (.exit c) after := by
  simp only [enabled, decide_eq_true_eq] at guard
  obtain ⟨free, control, idle⟩ := guard
  obtain ⟨p, current, isRunning⟩ := owners.cpus.onCpu c (.inl control)
  rw [running_eq current] at idle
  simp only [exec, myproc_eq current] at executed
  change k.exit c p = .ok after at executed
  unfold exit at executed
  by_cases isInit : k.initproc = some p
  · rw [if_pos isInit] at executed
    cases executed
  · obtain ⟨table, grown, success, still, grows, views⟩ :=
      ready.exit isRunning isInit
    have left : (table.proc p).state ≠ .running := by
      rw [← PTable.view_state, views]
      simp [exitView]
    rw [if_neg isInit, success] at executed
    change k.sched c p _ table = .ok after at executed
    rw [sched_eq left] at executed
    cases executed
    refine ⟨grown, ready_context _ still,
      .exit free control current idle isInit grows ?_⟩
    rw [PTable.view_update]
    · have context : (k.ptable.proc p).context =
          (exitView k.ptable.view p k.initproc p).context := by
        rw [exitView_context, PTable.view_context]
      rw [views, context]
      exact Function.update_eq_self p (exitView k.ptable.view p k.initproc)
    · intro entry
      rfl

private theorem effect_forkAlloc (owners : k.Owners)
    (ready : Ready k.ptable levels)
    (guard : k.enabled (.forkAlloc c) = true)
    (executed : k.exec (.forkAlloc c) = .ok after) :
    Explained k levels (.forkAlloc c) after := by
  simp only [enabled, decide_eq_true_eq] at guard
  obtain ⟨free, control, idle⟩ := guard
  obtain ⟨p, current, _⟩ := owners.cpus.onCpu c (.inl control)
  rw [running_eq current] at idle
  simp only [exec, myproc_eq current] at executed
  change k.forkAlloc p = .ok after at executed
  obtain ⟨found, success, stored⟩ := ok_of_bind executed
  rcases allocproc_eq success with ⟨rfl, full⟩ | ⟨np, slot, small, rfl⟩
  · cases stored
    exact ⟨levels, ready, .forkAllocFull full⟩
  · cases stored
    exact ⟨levels, ready.allocproc slot k.nextpid,
      .forkAlloc free control current idle slot small
        (PTable.view_update _ _ fun _ => rfl)⟩

/-- A slot that is held can be given back. -/
private theorem ready_forkFail (owners : k.Owners)
    (ready : Ready k.ptable levels) {np : ProcId}
    (holds : (k.activity p).held = some np) :
    Ready (k.forkFail p np).ptable levels := by
  have isEmbryo : (k.ptable.proc np).state = .embryo :=
    owners.slots.embryo (.process p) np holds
  have waiting : (k.ptable.proc np).state ≠ .runnable := by
    simp [isEmbryo]
  have given : Ready (k.ptable.update np fun entry =>
      { entry with state := .unused }) levels :=
    ready.update_waiting (fun _ => rfl) waiting (by simp) (ready.bounded np)
  exact given

private theorem effect_forkKalloc (owners : k.Owners)
    (ready : Ready k.ptable levels) {success : Bool}
    (guard : k.enabled (.forkKalloc c success) = true)
    (executed : k.exec (.forkKalloc c success) = .ok after) :
    Explained k levels (.forkKalloc c success) after := by
  simp only [enabled, decide_eq_true_eq] at guard
  obtain ⟨control, np, holds⟩ := guard
  obtain ⟨p, current, _⟩ := owners.cpus.onCpu c (.inl control)
  rw [running_eq current] at holds
  simp only [exec, myproc_eq current] at executed
  cases executed
  simp only [forkKalloc, holds]
  cases success with
  | true =>
      exact ⟨levels, ready_context .forkret ready,
        .forkKalloc control current holds
          (PTable.view_update _ _ fun _ => rfl)⟩
  | false =>
      exact ⟨levels,
        ready_forkFail owners ready (by simp [holds, Activity.held]),
        .forkFail control current (.inl ⟨rfl, holds⟩)
          (PTable.view_update _ _ fun _ => rfl)⟩

private theorem effect_forkCopy (owners : k.Owners)
    (ready : Ready k.ptable levels) {success : Bool}
    (guard : k.enabled (.forkCopy c success) = true)
    (executed : k.exec (.forkCopy c success) = .ok after) :
    Explained k levels (.forkCopy c success) after := by
  simp only [enabled, decide_eq_true_eq] at guard
  obtain ⟨control, np, holds⟩ := guard
  obtain ⟨p, current, _⟩ := owners.cpus.onCpu c (.inl control)
  rw [running_eq current] at holds
  simp only [exec, myproc_eq current] at executed
  cases executed
  simp only [forkCopy, holds]
  cases success with
  | true =>
      have still : Ready (k.ptable.update np fun entry =>
          { entry with parent := some p }) levels :=
        ready.update_same (fun _ => rfl) (fun _ => rfl) (fun _ => rfl)
      exact ⟨levels, still, .forkCopy control current holds
        (PTable.view_update _ _ fun _ => rfl)⟩
  | false =>
      exact ⟨levels,
        ready_forkFail owners ready (by simp [holds, Activity.held]),
        .forkFail control current (.inr ⟨rfl, holds⟩)
          (PTable.view_update _ _ fun _ => rfl)⟩

private theorem effect_forkEnqueue (owners : k.Owners)
    (ready : Ready k.ptable levels)
    (guard : k.enabled (.forkEnqueue c) = true)
    (executed : k.exec (.forkEnqueue c) = .ok after) :
    Explained k levels (.forkEnqueue c) after := by
  simp only [enabled, decide_eq_true_eq] at guard
  obtain ⟨free, control, np, holds⟩ := guard
  obtain ⟨p, current, _⟩ := owners.cpus.onCpu c (.inl control)
  rw [running_eq current] at holds
  have isEmbryo : (k.ptable.proc np).state = .embryo :=
    owners.slots.embryo (.process p) np (by simp [held, holds, Activity.held])
  obtain ⟨table, success, still, views⟩ :=
    ready.enqueue (p := np) (by simp [isEmbryo])
  simp only [exec, myproc_eq current] at executed
  change k.forkEnqueue p = .ok after at executed
  simp only [forkEnqueue, holds, success] at executed
  cases executed
  exact ⟨_, still, .forkEnqueue free control current holds views⟩

private theorem effect_kill (ready : Ready k.ptable levels) {pid : Int}
    (guard : k.enabled (.kill c pid) = true)
    (executed : k.exec (.kill c pid) = .ok after) :
    Explained k levels (.kill c pid) after := by
  simp only [enabled, decide_eq_true_eq] at guard
  obtain ⟨value, table, grown, success, still, grows, outcome⟩ :=
    ready.kill pid
  simp only [exec, success] at executed
  cases executed
  cases target : killTarget k.ptable pid with
  | none =>
      simp only [target] at outcome
      obtain ⟨_, rfl⟩ := outcome
      exact ⟨levels, ready, .killNone target⟩
  | some p =>
      simp only [target] at outcome
      exact ⟨grown, still, .kill guard.1 target grows outcome.2.2⟩

private theorem effect_wakeup (ready : Ready k.ptable levels) {chan : Chan}
    (guard : k.enabled (.wakeup c chan) = true)
    (executed : k.exec (.wakeup c chan) = .ok after) :
    Explained k levels (.wakeup c chan) after := by
  simp only [enabled, decide_eq_true_eq] at guard
  obtain ⟨table, grown, success, still, grows, views⟩ :=
    ready.wakeup1 (some chan)
  simp only [exec, success] at executed
  cases executed
  exact ⟨grown, still, .wakeup guard.1 grows views⟩

private theorem effect_boost (ready : Ready k.ptable levels)
    (guard : k.enabled (.boost c) = true)
    (executed : k.exec (.boost c) = .ok after) :
    Explained k levels (.boost c) after := by
  simp only [enabled, decide_eq_true_eq] at guard
  obtain ⟨table, success, still, views⟩ := ready.priorityBoost
  simp only [exec, success] at executed
  cases executed
  exact ⟨_, still, .boost guard.1 views⟩

private theorem effect_charge (owners : k.Owners)
    (ready : Ready k.ptable levels)
    (guard : k.enabled (.charge c) = true)
    (executed : k.exec (.charge c) = .ok after) :
    Explained k levels (.charge c) after := by
  simp only [enabled, decide_eq_true_eq] at guard
  obtain ⟨p, current, _⟩ := owners.cpus.onCpu c (.inl guard)
  simp only [exec, myproc_eq current] at executed
  cases executed
  have still : Ready (k.ptable.update p fun entry =>
      { entry with ticksRunning := uintAdd entry.ticksRunning 1 }) levels :=
    ready.update_same (fun _ => rfl) (fun _ => rfl) (fun _ => rfl)
  exact ⟨levels, still, .charge guard current
    (PTable.view_update _ _ fun _ => rfl)⟩

private theorem effect_userTrap (owners : k.Owners)
    (ready : Ready k.ptable levels)
    (guard : k.enabled (.userTrap c) = true)
    (executed : k.exec (.userTrap c) = .ok after) :
    Explained k levels (.userTrap c) after := by
  simp only [enabled, decide_eq_true_eq] at guard
  obtain ⟨control, idle⟩ := guard
  obtain ⟨p, current, _⟩ := owners.cpus.onCpu c (.inl control)
  rw [running_eq current] at idle
  simp only [exec, myproc_eq current] at executed
  cases executed
  have still : Ready (k.ptable.update p fun entry =>
      { entry with killed := true }) levels :=
    ready.update_same (fun _ => rfl) (fun _ => rfl) (fun _ => rfl)
  exact ⟨levels, still, .userTrap control current idle
    (PTable.view_update _ _ fun _ => rfl)⟩

/-- Every step of the kernel is one of `Effect`. -/
theorem step_effect (owners : k.Owners) (ready : Ready k.ptable levels)
    {action : Action ncpu} (taken : (kernel ncpu).step k action after) :
    ∃ next, Ready after.ptable next ∧ Effect k levels action after next := by
  obtain ⟨guard, executed⟩ := taken
  cases action with
  | userinitAlloc c => exact effect_userinitAlloc ready guard executed
  | userinitKalloc c => exact effect_userinitKalloc ready guard executed
  | userinitEnqueue c =>
      exact effect_userinitEnqueue owners ready guard executed
  | schedule c => exact effect_schedule ready guard executed
  | resume c => exact effect_resume owners ready guard executed
  | switchBack c =>
      simp only [enabled, decide_eq_true_eq] at guard
      cases executed
      exact ⟨levels, ready, .switchBack guard⟩
  | yield c => exact effect_yield owners ready guard executed
  | sleep c address => exact effect_sleep owners ready guard executed
  | exit c => exact effect_exit owners ready guard executed
  | wait c => exact effect_wait owners ready guard executed
  | forkAlloc c => exact effect_forkAlloc owners ready guard executed
  | forkKalloc c success =>
      exact effect_forkKalloc owners ready guard executed
  | forkCopy c success => exact effect_forkCopy owners ready guard executed
  | forkEnqueue c => exact effect_forkEnqueue owners ready guard executed
  | kill c pid => exact effect_kill ready guard executed
  | wakeup c chan => exact effect_wakeup ready guard executed
  | boost c => exact effect_boost ready guard executed
  | clock c =>
      cases executed
      exact ⟨levels, ready, .clock⟩
  | charge c => exact effect_charge owners ready guard executed
  | userTrap c => exact effect_userTrap owners ready guard executed

end

end Kernel

end Xv6
