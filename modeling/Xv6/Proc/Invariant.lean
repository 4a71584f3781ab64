import Xv6.Proc.Steps

/-!
# The invariant of the kernel

Every state that a run from `boot` reaches has ready queues, and its lock, its
CPUs and its slots are in order.  Well-formedness of the multilevel feedback
queue and exclusive dispatch are read off this invariant.
-/

namespace Xv6

open Lib

variable {ncpu : Nat}

/-! ## Effects on the states of processes -/

/-- A process keeps its state or is woken. -/
def ProcState.Wakes (before after : ProcState) : Prop :=
  after = before ∨ before = .sleeping ∧ after = .runnable

namespace ProcState.Wakes

variable {before after : ProcState}

theorem refl (state : ProcState) : Wakes state state := .inl rfl

theorem running_iff (wakes : Wakes before after) :
    after = .running ↔ before = .running := by
  rcases wakes with same | ⟨asleep, woken⟩
  · rw [same]
  · simp [asleep, woken]

theorem embryo (wakes : Wakes before after) (isEmbryo : before = .embryo) :
    after = .embryo := by
  rcases wakes with same | ⟨asleep, _⟩
  · rw [same, isEmbryo]
  · simp [asleep] at isEmbryo

theorem alive (wakes : Wakes before after) (wasAlive : before.Alive) :
    after.Alive := by
  rcases wakes with same | ⟨_, woken⟩
  · rwa [same]
  · exact .inr (.inl woken)

end ProcState.Wakes

theorem Proc.wakes_wake (process : Proc) (chan : Option Chan) :
    ProcState.Wakes process.state (process.wake chan).state :=
  process.wake_state chan

theorem Proc.wakes_markKilled (process : Proc) :
    ProcState.Wakes process.state process.markKilled.state := by
  unfold Proc.markKilled
  split
  · rename_i asleep
    exact .inr ⟨asleep, rfl⟩
  · exact .inl rfl

theorem exitView_self (view : ProcId → Proc) (p : ProcId)
    (initproc : Option ProcId) :
    (exitView view p initproc p).state = .zombie := by
  simp [exitView]

theorem wakes_exitView (view : ProcId → Proc) {p q : ProcId}
    (initproc : Option ProcId) (different : q ≠ p) :
    ProcState.Wakes (view q).state (exitView view p initproc q).state := by
  rw [exitView, Function.update_of_ne different]
  simp only [passedView, List.mem_finRange, if_true]
  have first := (view q).wake_state ((view p).parent.map .proc)
  split
  · have second := (((view q).wake ((view p).parent.map .proc)).adopt p
      initproc).wake_state (initproc.map .proc)
    simp only [Proc.adopt_state] at second
    rcases first with same | ⟨asleep, woken⟩
    · rw [same] at second
      exact second
    · rw [woken] at second
      simp only [reduceCtorEq, false_and, or_false] at second
      exact .inr ⟨asleep, second⟩
  · simpa [ProcState.Wakes] using first

namespace Kernel

variable {k after : Kernel ncpu} {levels next : Levels ProcId}
  {c : Fin ncpu} {p : ProcId}

/-! ## Every effect keeps the owners in order -/

theorem held_of_control {value : Control}
    (control : after.control = Function.update k.control c value)
    (activity : after.activity = k.activity) :
    after.held = Function.update k.held (.cpu c) value.held := by
  funext holder
  cases holder with
  | cpu d =>
      by_cases same : d = c
      · subst d
        simp [held, control]
      · have other : Holder.cpu d ≠ Holder.cpu c := by
          simpa using same
        simp [held, control, same, other]
  | process q => simp [held, activity]

theorem held_of_activity {value : Activity}
    (control : after.control = k.control)
    (activity : after.activity = Function.update k.activity p value) :
    after.held = Function.update k.held (.process p) value.held := by
  funext holder
  cases holder with
  | cpu d => simp [held, control]
  | process q =>
      by_cases same : q = p
      · subst q
        simp [held, activity]
      · have other : (Holder.process q : Holder ncpu) ≠ .process p := by
          simpa using same
        simp [held, activity, same, other]

namespace Owners

theorem of_control {value : Control}
    (control : after.control = Function.update k.control c value)
    (activity : after.activity = k.activity)
    (cpus : Cpus after.lock after.control after.cpuProc after.ptable.state)
    (slots : Slots (Function.update k.held (.cpu c) value.held)
      after.ptable.state) : after.Owners := by
  refine ⟨cpus, ?_⟩
  rw [held_of_control control activity]
  exact slots

theorem of_activity {value : Activity}
    (control : after.control = k.control)
    (activity : after.activity = Function.update k.activity p value)
    (cpus : Cpus after.lock after.control after.cpuProc after.ptable.state)
    (slots : Slots (Function.update k.held (.process p) value.held)
      after.ptable.state) : after.Owners := by
  refine ⟨cpus, ?_⟩
  rw [held_of_activity control activity]
  exact slots

/-- A CPU goes on to code that holds the same slot, or none as before. -/
theorem of_switch {value : Control}
    (control : after.control = Function.update k.control c value)
    (activity : after.activity = k.activity)
    (same : (k.control c).held = value.held)
    (cpus : Cpus after.lock after.control after.cpuProc after.ptable.state)
    (slots : Slots k.held after.ptable.state) : after.Owners := by
  apply of_control control activity cpus
  have unchanged : Function.update k.held (.cpu c) value.held = k.held := by
    rw [← same]
    exact Function.update_eq_self (Holder.cpu c) k.held
  rw [unchanged]
  exact slots

theorem boot : (Kernel.boot ncpu).Owners := by
  constructor
  · constructor <;> intro c
    · by_cases first : c.val = 0 <;> simp [Kernel.boot, first]
    · by_cases first : c.val = 0 <;> simp [Kernel.boot, first]
    · by_cases first : c.val = 0 <;> simp [Kernel.boot, first]
    · simp [Kernel.boot]
    · simp [Kernel.boot, PTable.state, PTable.zero]
    · simp [Kernel.boot]
  · have nothing : ∀ holder, (Kernel.boot ncpu).held holder = none := by
      intro holder
      cases holder with
      | cpu c =>
          by_cases first : c.val = 0 <;>
            simp [held, Kernel.boot, first, Control.held]
      | process p => rfl
    constructor <;> simp [nothing]

/-- Steps that wake processes and otherwise leave states, CPUs and held slots
alone. -/
theorem frame (owners : k.Owners) (lock : after.lock = k.lock)
    (cpuProc : after.cpuProc = k.cpuProc)
    (control : after.control = k.control) (held : after.held = k.held)
    (wakes : ∀ q, ProcState.Wakes (k.ptable.state q)
      (after.ptable.state q)) :
    after.Owners := by
  constructor
  · rw [lock, cpuProc, control]
    exact owners.cpus.frame (fun _ _ _ => Iff.rfl)
      fun q => (wakes q).running_iff
  · rw [held]
    exact owners.slots.frame (fun q => (wakes q).embryo)
      fun q _ _ => (wakes q).alive

/-- A process on its CPU releases the lock. -/
theorem release (owners : k.Owners) {table : PTable}
    (inside : k.lock = none ∧ k.control c = .process ∨
      k.control c = .resumed)
    (same : ∀ q, table.state q = .running ↔ k.ptable.state q = .running)
    (kept : ∀ q, k.ptable.state q = .embryo → table.state q = .embryo)
    (alive : ∀ q, (k.ptable.state q).Alive → (table.state q).Alive) :
    (k.releaseLock c table).Owners := by
  have unheld : (k.control c).held = none := by
    rcases inside with ⟨_, process⟩ | resumed
    · simp [process, Control.held]
    · simp [resumed, Control.held]
  refine of_switch (c := c) rfl rfl unheld ?_ ?_
  · exact owners.cpus.release inside same
  · exact owners.slots.frame kept fun q _ _ => alive q

/-- A process changes its own state and switches to the scheduler. -/
theorem leave (owners : k.Owners) {table : PTable}
    (inside : k.lock = none ∧ k.control c = .process ∨
      k.control c = .resumed)
    (current : k.cpuProc c = some p)
    (left : table.state p ≠ .running)
    (others : ∀ q, q ≠ p →
      ProcState.Wakes (k.ptable.state q) (table.state q))
    (alive : (table.state p).Alive ∨ k.activity p = .other) :
    Owners
      { k with
        ptable := table
        lock := some c
        control := Function.update k.control c .switched } := by
  have here : k.control c = .process ∨ k.control c = .resumed := by
    rcases inside with ⟨_, process⟩ | resumed
    · exact .inl process
    · exact .inr resumed
  have wasRunning := owners.cpus.current_running here current
  have unheld : (k.control c).held = none := by
    rcases here with process | resumed
    · simp [process, Control.held]
    · simp [resumed, Control.held]
  refine of_switch (c := c) rfl rfl unheld ?_ ?_
  · exact owners.cpus.leave inside current left
      fun q different => (others q different).running_iff
  · apply owners.slots.frame
    · intro q isEmbryo
      have different : q ≠ p := by
        rintro rfl
        simp [wasRunning] at isEmbryo
      exact (others q different).embryo isEmbryo
    · intro q np holds wasAlive
      by_cases same : q = p
      · subst q
        rcases alive with stillAlive | idle
        · exact stillAlive
        · simp [held, idle, Activity.held] at holds
      · exact (others q same).alive wasAlive

/-- Code outside of any process moves on without touching `RUNNING`
processes. -/
private theorem cpus_move (owners : k.Owners) {value : Control}
    {state : ProcId → ProcState}
    (before : k.control c ≠ .process ∧ k.control c ≠ .resumed ∧
      k.control c ≠ .switched)
    (later : value ≠ .process ∧ value ≠ .resumed ∧ value ≠ .switched)
    (same : ∀ q, state q = .running ↔ k.ptable.state q = .running) :
    Cpus k.lock (Function.update k.control c value) k.cpuProc state := by
  apply owners.cpus.frame _ same
  intro d place moves
  by_cases here : d = c
  · subst d
    rw [Function.update_self]
    rcases moves with rfl | rfl | rfl
    · simp [before, later]
    · simp [before, later]
    · simp [before, later]
  · rw [Function.update_of_ne here]

end Owners

/-- An assignment that gives a process a state other than `RUNNING`, when it
was not `RUNNING` before. -/
private theorem running_update {state : ProcId → ProcState} {q : ProcId}
    {value : ProcState} (before : state p ≠ .running)
    (later : value ≠ .running) :
    Function.update state p value q = .running ↔ state q = .running := by
  by_cases same : q = p
  · subst q
    simp [before, later]
  · rw [Function.update_of_ne same]

theorem state_same {table before : PTable} {entry : Proc}
    (views : table.view = Function.update before.view p entry)
    (same : entry.state = before.state p) : table.state = before.state := by
  rw [PTable.state_eq_update views, same]
  exact Function.update_eq_self p before.state

private theorem wakes_of_eq {table before : PTable}
    (same : table.state = before.state) (q : ProcId) :
    ProcState.Wakes (before.state q) (table.state q) := by
  rw [same]
  exact .refl _

/-- A scan of `wait` runs on the CPU of the process. -/
theorem WaitStart.inside {action : Action ncpu} {chan : Option Chan}
    (starts : WaitStart k c p action chan) :
    k.lock = none ∧ k.control c = .process ∨ k.control c = .resumed := by
  cases starts with
  | call free control => exact .inl ⟨free, control⟩
  | again control => exact .inr control

theorem WaitStart.place {action : Action ncpu} {chan : Option Chan}
    (starts : WaitStart k c p action chan) :
    k.control c = .process ∨ k.control c = .resumed := by
  cases starts with
  | call free control => exact .inl control
  | again control => exact .inr control

theorem WaitStart.allocates_none {action : Action ncpu}
    {chan : Option Chan} (starts : WaitStart k c p action chan) :
    k.allocates action = none := by
  cases starts <;> rfl

/-- A held slot passes to a state other than `RUNNING`. -/
private theorem effect_release_owners (owners : k.Owners) {np : ProcId}
    {table : PTable} {entry : Proc}
    (holds : (k.activity p).held = some np)
    (views : table.view = Function.update k.ptable.view np entry)
    (final : entry.state ≠ .running) :
    Owners
      { k with
        ptable := table
        activity := Function.update k.activity p .other } := by
  have states := PTable.state_eq_update views
  have wasEmbryo : k.ptable.state np = .embryo :=
    owners.slots.embryo (.process p) np holds
  refine .of_activity (k := k) (p := p) rfl rfl ?_ ?_
  · apply owners.cpus.frame (fun _ _ _ => Iff.rfl)
    intro q
    simp only [states]
    exact running_update (by simp [wasEmbryo]) final
  · have held : k.held (.process p) = some np := holds
    simp only [states]
    exact owners.slots.release held entry.state

/-- A process goes on with a slot it holds. -/
private theorem effect_phase_owners (owners : k.Owners) {np : ProcId}
    {table : PTable} {entry : Proc} {value : Activity}
    (holds : value.held = (k.activity p).held)
    (views : table.view = Function.update k.ptable.view np entry)
    (same : entry.state = k.ptable.state np) :
    Owners
      { k with
        ptable := table
        activity := Function.update k.activity p value } := by
  have states := state_same views same
  have unchanged : Function.update k.held (.process p) value.held =
      k.held := by
    rw [holds]
    exact Function.update_eq_self (Holder.process p) k.held
  refine .of_activity (k := k) (p := p) rfl rfl ?_ ?_
  · simp only [states]
    exact owners.cpus
  · simp only [states, unchanged]
    exact owners.slots

/-- A process that stays in the table gives up its CPU. -/
private theorem effect_leave_owners (owners : k.Owners) {table : PTable}
    {entry : Proc}
    (inside : k.lock = none ∧ k.control c = .process ∨
      k.control c = .resumed)
    (current : k.cpuProc c = some p)
    (views : table.view = Function.update k.ptable.view p entry)
    (left : entry.state ≠ .running) (alive : entry.state.Alive) :
    Owners
      { k with
        ptable := table
        lock := some c
        control := Function.update k.control c .switched } := by
  have states := PTable.state_eq_update views
  apply owners.leave inside current
  · simpa [states] using left
  · intro q different
    rw [states, Function.update_of_ne different]
    exact .refl _
  · left
    simpa [states] using alive

/-- A parent frees an exited child. -/
private theorem effect_reap_owners (owners : k.Owners) {child : ProcId}
    {table : PTable} {chan : Option Chan} {entry : Proc}
    (inside : k.lock = none ∧ k.control c = .process ∨
      k.control c = .resumed)
    (found : k.ptable.zombieChild p = some child)
    (views : table.view = Function.update
      (Function.update k.ptable.view p { k.ptable.view p with chan := chan })
      child entry)
    (freed : entry.state = .unused) : (k.releaseLock c table).Owners := by
  have states : table.state =
      Function.update k.ptable.state child .unused := by
    funext q
    change (table.view q).state = _
    rw [PTable.read_update_twice Proc.state views rfl, freed,
      Function.update_apply]
    rfl
  have wasZombie : k.ptable.state child = .zombie :=
    (zombieChild_some found).2
  apply owners.release inside
  · intro q
    rw [states]
    exact running_update (by simp [wasZombie]) (by simp)
  · intro q isEmbryo
    have different : q ≠ child := by
      rintro rfl
      simp [wasZombie] at isEmbryo
    rw [states, Function.update_of_ne different, isEmbryo]
  · intro q alive
    have different : q ≠ child := by
      rintro rfl
      simp [wasZombie, ProcState.Alive] at alive
    rw [states, Function.update_of_ne different]
    exact alive

/-- Every effect keeps the lock, the CPUs and the slots in order. -/
theorem Effect.owners (owners : k.Owners) (ready : Ready k.ptable levels)
    {action : Action ncpu} (effect : Effect k levels action after next) :
    after.Owners := by
  cases effect with
  | userinitAlloc free control slot small views =>
      rename_i c p table
      have states := PTable.state_eq_update views
      have wasUnused : k.ptable.state p = .unused := freeSlot_unused slot
      refine .of_control (c := c) rfl rfl ?_ ?_
      · apply owners.cpus_move (by simp [control]) (by simp)
        intro q
        rw [states]
        exact running_update (by simp [wasUnused]) (by simp)
      · rw [states]
        exact owners.slots.acquire wasUnused (by simp)
  | userinitKalloc control views =>
      rename_i c p table
      have states := state_same views rfl
      refine .of_switch (c := c) rfl rfl ?_ ?_ ?_
      · rw [control]
        rfl
      · apply owners.cpus_move (by simp [control]) (by simp)
        intro q
        rw [states]
      · rw [states]
        exact owners.slots
  | userinitEnqueue free control views =>
      rename_i c p table
      have states := PTable.state_eq_update views
      have holds : k.held (.cpu c) = some p := by
        simp [held, control, Control.held]
      have wasEmbryo := owners.slots.embryo _ _ holds
      refine .of_control (c := c) rfl rfl ?_ ?_
      · apply owners.cpus_move (by simp [control]) (by simp)
        intro q
        rw [states]
        exact running_update (by simp [wasEmbryo]) (by simp)
      · rw [states]
        exact owners.slots.release holds _
  | idle => exact owners
  | dispatch free control chosen head views =>
      rename_i c p rest table
      have states := PTable.state_eq_update views
      have wasRunnable : k.ptable.state p = .runnable :=
        ready.chosen_runnable chosen
      refine .of_switch (c := c) rfl rfl ?_ ?_ ?_
      · rw [control]
        rfl
      · rw [states]
        exact owners.cpus.dispatch free control (by simp [wasRunnable])
      · rw [states]
        apply owners.slots.frame
        · intro q isEmbryo
          have different : q ≠ p := by
            rintro rfl
            simp [wasRunnable] at isEmbryo
          rw [Function.update_of_ne different, isEmbryo]
        · intro q np _ alive
          by_cases same : q = p
          · subst q
            simp [ProcState.Alive]
          · rwa [Function.update_of_ne same]
  | resume control =>
      exact owners.release (.inr control) (fun _ => Iff.rfl)
        (fun _ => id) fun _ => id
  | resumeSleep control current context views =>
      have states := state_same views rfl
      apply owners.release (.inr control) <;> intro q <;> rw [states]
      · exact id
      · exact id
  | waitReaped current starts result found views =>
      exact effect_reap_owners owners starts.inside found views rfl
  | waitFailed current starts result nothing reason views =>
      have states := state_same views rfl
      apply owners.release starts.inside <;> intro q <;> rw [states]
      · exact id
      · exact id
  | waitSleeps current starts result nothing views =>
      exact effect_leave_owners owners starts.inside current views (by simp)
        (by simp [ProcState.Alive])
  | switchBack control =>
      rename_i c
      refine .of_switch (k := k) (c := c) rfl rfl ?_ ?_ owners.slots
      · rw [control]
        rfl
      · exact owners.cpus.switchBack control
  | yield free control current views | sleep free control current views =>
      exact effect_leave_owners owners (.inl ⟨free, control⟩) current views
        (by simp) (by simp [ProcState.Alive])
  | exit free control current idle different grows views =>
      rename_i c p table
      have states : ∀ q, table.state q =
          (exitView k.ptable.view p k.initproc q).state := by
        intro q
        rw [← views]
        rfl
      apply owners.leave (.inl ⟨free, control⟩) current
      · rw [states, exitView_self]
        simp
      · intro q different
        rw [states]
        exact wakes_exitView k.ptable.view k.initproc different
      · exact .inr idle
  | forkAllocFull => exact owners
  | forkAlloc free control current idle slot small views =>
      rename_i c p np table
      have states := PTable.state_eq_update views
      have wasUnused : k.ptable.state np = .unused := freeSlot_unused slot
      have isRunning := owners.cpus.current_running (.inl control) current
      refine .of_activity (k := k) (p := p) rfl rfl ?_ ?_
      · apply owners.cpus.frame (fun _ _ _ => Iff.rfl)
        intro q
        simp only [states]
        exact running_update (by simp [wasUnused]) (by simp)
      · simp only [states]
        apply owners.slots.acquire wasUnused
        rintro q ⟨⟩
        exact .inl isRunning
  | forkKalloc control current holds views
  | forkCopy control current holds views =>
      refine effect_phase_owners owners ?_ views rfl
      rw [holds]
      rfl
  | forkFail control current failed views =>
      apply effect_release_owners owners _ views (by simp)
      rcases failed with ⟨_, holds⟩ | ⟨_, holds⟩
      · simp [holds, Activity.held]
      · simp [holds, Activity.held]
  | forkEnqueue free control current holds views =>
      apply effect_release_owners owners _ views (by simp)
      simp [holds, Activity.held]
  | killNone => exact owners
  | kill free found grows views =>
      rename_i c pid target table
      have states := PTable.state_eq_update views
      refine owners.frame rfl rfl rfl rfl ?_
      intro q
      simp only [states]
      by_cases same : q = target
      · subst q
        rw [Function.update_self]
        exact (k.ptable.view target).wakes_markKilled
      · rw [Function.update_of_ne same]
        exact .refl _
  | wakeup free grows views =>
      rename_i c chan table
      refine owners.frame rfl rfl rfl rfl ?_
      intro q
      change ProcState.Wakes (k.ptable.view q).state (table.view q).state
      rw [views]
      exact (k.ptable.view q).wakes_wake (some chan)
  | boost free views =>
      rename_i c table
      have states : table.state = k.ptable.state := by
        funext q
        change (table.view q).state = _
        rw [views]
        rfl
      exact owners.frame rfl rfl rfl rfl (wakes_of_eq states)
  | clock => exact owners.frame rfl rfl rfl rfl fun q => .refl _
  | charge control current views | userTrap control current idle views =>
      exact owners.frame rfl rfl rfl rfl (wakes_of_eq (state_same views rfl))

/-! ## Reachable states -/

/-- The invariant of the kernel. -/
structure Invariant (k : Kernel ncpu) (levels : Levels ProcId) : Prop where
  owners : k.Owners
  ready : Ready k.ptable levels

/-- One step keeps the invariant and is one of `Effect`. -/
theorem Invariant.step (invariant : k.Invariant levels)
    {action : Action ncpu} (taken : (kernel ncpu).step k action after) :
    ∃ next, after.Invariant next ∧ Effect k levels action after next := by
  obtain ⟨next, ready, effect⟩ :=
    step_effect invariant.owners invariant.ready taken
  exact ⟨next, ⟨effect.owners invariant.owners invariant.ready, ready⟩,
    effect⟩

theorem invariant_boot : (boot ncpu).Invariant fun _ => [] :=
  ⟨.boot, .zero⟩

/-- Every state of every run has the invariant. -/
theorem invariant_of_run {history : History (Kernel ncpu) (Action ncpu)}
    (run : Run (kernel ncpu) (boot ncpu) history k) :
    ∃ levels, k.Invariant levels := by
  have initial : ∃ levels, (boot ncpu).Invariant levels :=
    ⟨_, invariant_boot⟩
  apply run.invariant initial
  rintro before action after taken ⟨levels, invariant⟩
  obtain ⟨next, invariant', _⟩ := invariant.step taken
  exact ⟨next, invariant'⟩

end Kernel

/-! ## The multilevel feedback queue -/

/-- The multilevel feedback queue is well formed: following `nextProc` from
each `queueFirst` gives a finite list without repetition that ends in null and
in `queueLast`, and the lists divide the `RUNNABLE` processes by priority. -/
structure PTable.WellFormed (table : PTable) : Prop where
  chain : ∀ level < nprio,
    Segment table.next (table.queueFirst level) (table.queue level) none
  nodup : ∀ level < nprio, (table.queue level).Nodup
  last : ∀ level < nprio,
    table.queueLast level = (table.queue level).getLast?
  first_null : ∀ level < nprio,
    table.queueFirst level = none ↔ table.queue level = []
  last_null : ∀ level < nprio,
    table.queueLast level = none ↔ table.queue level = []
  priority : ∀ level < nprio, ∀ p ∈ table.queue level,
    (table.proc p).priority = level
  runnable : ∀ level < nprio, ∀ p ∈ table.queue level,
    (table.proc p).state = .runnable
  disjoint : ∀ left < nprio, ∀ right < nprio, left ≠ right →
    (table.queue left).Disjoint (table.queue right)
  complete : ∀ p, (table.proc p).state = .runnable →
    ∃ level < nprio, p ∈ table.queue level
  bounded : ∀ p, (table.proc p).priority < nprio

theorem Ready.wellFormed {table : PTable} {levels : Levels ProcId}
    (ready : Ready table levels) : table.WellFormed := by
  have same : ∀ level < nprio, table.queue level = levels level :=
    fun _ low => ready.toQueues.queue_eq low
  constructor
  · intro level low
    rw [same level low]
    exact (ready.queue level low).chain
  · intro level low
    rw [same level low]
    exact (ready.queue level low).nodup
  · intro level low
    rw [same level low]
    exact (ready.queue level low).last_eq
  · intro level low
    rw [same level low]
    exact (ready.queue level low).first_eq_none_iff
  · intro level low
    rw [same level low]
    exact (ready.queue level low).last_eq_none_iff
  · intro level low
    rw [same level low]
    exact ready.priority level low
  · intro level low p member
    rw [same level low] at member
    exact (ready.runnable p).mpr (ready.toQueues.mem_iff.mp member).2
  · intro left leftLow right rightLow different
    rw [same left leftLow, same right rightLow]
    exact ready.toQueues.disjoint leftLow rightLow different
  · intro p isRunnable
    have low := ready.bounded p
    refine ⟨(table.proc p).priority, low, ?_⟩
    rw [same _ low]
    exact (ready.runnable p).mp isRunnable
  · exact ready.bounded

/-- In every state of every run from `boot`, the multilevel feedback queue is
well formed.  The states of a run are those between critical sections, so
that this covers every state in which `ptable.lock` is free. -/
theorem mlfq_wellFormed {k : Kernel ncpu}
    {history : History (Kernel ncpu) (Action ncpu)}
    (run : Run (kernel ncpu) (.boot ncpu) history k) :
    k.ptable.WellFormed := by
  obtain ⟨levels, invariant⟩ := Kernel.invariant_of_run run
  exact invariant.ready.wellFormed

/-- A run in which the first process forks a child that waits in queue 0. -/
theorem mlfq_wellFormed_after_fork :
    ∃ history k, Run (kernel 1) (.boot 1) history k ∧ k.lock = none ∧
      k.ptable.queue 0 = [1] ∧ k.ptable.WellFormed := by
  have passed : (replay Kernel.next [] (.boot 1)
      (Kernel.bootActions 0 ++ Kernel.forkActions 0)).any
        (fun result => decide (result.2.lock = none ∧
          result.2.ptable.queue 0 = [1])) = true := by
    decide +kernel
  obtain ⟨history, k, run, facts⟩ := Run.of_replay Kernel.step_of_next passed
  have facts := of_decide_eq_true facts
  exact ⟨history, k, run, facts.1, facts.2, mlfq_wellFormed run⟩

/-- With `ptable.lock` free, a process is `RUNNING` exactly when it is the
current process of a CPU, it is so of one CPU only, and it is neither queued
nor about to be dispatched. -/
theorem running_iff_current {k : Kernel ncpu}
    {history : History (Kernel ncpu) (Action ncpu)}
    (run : Run (kernel ncpu) (.boot ncpu) history k)
    (free : k.lock = none) :
    (∀ p, (k.ptable.proc p).state = .running ↔
      ∃ c, k.cpuProc c = some p) ∧
    (∀ p c d, k.cpuProc c = some p → k.cpuProc d = some p → c = d) ∧
    (∀ p c, k.cpuProc c = some p →
      ∀ level < nprio, p ∉ k.ptable.queue level) ∧
    (∀ p c, k.cpuProc c = some p → k.ptable.chosen ≠ some p) := by
  obtain ⟨levels, owners, ready⟩ := Kernel.invariant_of_run run
  have isRunning : ∀ p c, k.cpuProc c = some p →
      (k.ptable.proc p).state = .running := by
    intro p c current
    exact owners.cpus.current_running
      (.inl (owners.cpus.process_of_free free current)) current
  refine ⟨?_, ?_, ?_, ?_⟩
  · intro p
    constructor
    · exact owners.cpus.running p
    · rintro ⟨c, current⟩
      exact isRunning p c current
  · intro p c d
    exact owners.cpus.exclusive c d p
  · intro p c current level low member
    have isRunnable := ready.wellFormed.runnable level low p member
    simp [isRunning p c current] at isRunnable
  · intro p c current chosen
    have isRunnable := ready.chosen_runnable chosen
    simp [isRunning p c current] at isRunnable

/-- A run on two CPUs that both have a current process. -/
theorem running_iff_current_two_cpus :
    ∃ history k, Run (kernel 2) (.boot 2) history k ∧ k.lock = none ∧
      k.cpuProc 0 = some 0 ∧ k.cpuProc 1 = some 1 ∧
      (k.ptable.proc 1).state = .running ∧
      k.ptable.chosen ≠ some 0 := by
  have passed : (replay Kernel.next [] (.boot 2)
      (Kernel.bootActions 0 ++ Kernel.forkActions 0 ++
        [.schedule 1, .resume 1])).any
        (fun result => decide (result.2.lock = none ∧
          result.2.cpuProc 0 = some 0 ∧ result.2.cpuProc 1 = some 1)) =
      true := by
    decide +kernel
  obtain ⟨history, k, run, facts⟩ := Run.of_replay Kernel.step_of_next passed
  obtain ⟨free, first, second⟩ := of_decide_eq_true facts
  obtain ⟨running, _, _, waiting⟩ := running_iff_current run free
  exact ⟨history, k, run, free, first, second,
    (running 1).mpr ⟨1, second⟩, waiting 0 0 first⟩

end Xv6
