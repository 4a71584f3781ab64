import Xv6.Proc.Kernel
import Xv6.Proc.Queues

/-!
# Who owns the lock, the CPUs and the slots

Two invariants of the kernel that speak about the states of the processes
only.  `Cpus` relates the lock, the code of every CPU and its current process
to the processes that are `RUNNING`.  `Slots` relates the code that sets up a
new process to the slots that are `EMBRYO`.  Each has one rule for every way
in which a critical section changes what it speaks about, and a frame rule
for all the others.
-/

namespace Xv6

variable {ncpu : Nat}

def PTable.state (table : PTable) (p : ProcId) : ProcState :=
  (table.proc p).state

theorem PTable.state_eq_update {table before : PTable} {p : ProcId}
    {entry : Proc}
    (views : table.view = Function.update before.view p entry) :
    table.state = Function.update before.state p entry.state := by
  funext q
  change (table.view q).state = _
  rw [views]
  by_cases same : q = p
  · subst q
    simp
  · simp [same, PTable.state]

/-! ## The CPUs -/

/-- A CPU holds the lock while it switches, it has a current process from the
switch to that process until the end of the switch back, and the processes
that are `RUNNING` are the current ones of which the switch back has not
begun. -/
structure Cpus (lock : Option (Fin ncpu)) (control : Fin ncpu → Control)
    (cpuProc : Fin ncpu → Option ProcId) (state : ProcId → ProcState) :
    Prop where
  locked : ∀ c, lock = some c ↔ control c = .resumed ∨ control c = .switched
  onCpu : ∀ c, control c = .process ∨ control c = .resumed →
    ∃ p, cpuProc c = some p ∧ state p = .running
  leaving : ∀ c, control c = .switched →
    ∃ p, cpuProc c = some p ∧ state p ≠ .running
  occupied : ∀ c p, cpuProc c = some p →
    control c = .process ∨ control c = .resumed ∨ control c = .switched
  running : ∀ p, state p = .running → ∃ c, cpuProc c = some p
  exclusive : ∀ c d p, cpuProc c = some p → cpuProc d = some p → c = d

namespace Cpus

variable {lock : Option (Fin ncpu)} {control changed : Fin ncpu → Control}
  {cpuProc : Fin ncpu → Option ProcId} {state after : ProcId → ProcState}
  {c : Fin ncpu} {p : ProcId}

theorem current_running (cpus : Cpus lock control cpuProc state)
    (here : control c = .process ∨ control c = .resumed)
    (current : cpuProc c = some p) : state p = .running := by
  obtain ⟨q, isCurrent, isRunning⟩ := cpus.onCpu c here
  rw [current] at isCurrent
  cases isCurrent
  exact isRunning

/-- With the lock free a current process is on its CPU. -/
theorem process_of_free (cpus : Cpus lock control cpuProc state)
    (free : lock = none) (current : cpuProc c = some p) :
    control c = .process := by
  rcases cpus.occupied c p current with inside | switching
  · exact inside
  · have held := (cpus.locked c).mpr switching
    simp [free] at held

/-- Steps that neither move a CPU to or from a process nor change which
processes are `RUNNING`. -/
theorem frame (cpus : Cpus lock control cpuProc state)
    (controls : ∀ d place,
      place = .process ∨ place = .resumed ∨ place = .switched →
      (changed d = place ↔ control d = place))
    (same : ∀ q, after q = .running ↔ state q = .running) :
    Cpus lock changed cpuProc after := by
  have process := fun d => controls d .process (.inl rfl)
  have resumed := fun d => controls d .resumed (.inr (.inl rfl))
  have switched := fun d => controls d .switched (.inr (.inr rfl))
  constructor
  · intro d
    rw [resumed, switched]
    exact cpus.locked d
  · intro d here
    rw [process, resumed] at here
    simpa [same] using cpus.onCpu d here
  · intro d here
    rw [switched] at here
    simpa [same] using cpus.leaving d here
  · intro d q current
    rw [process, resumed, switched]
    exact cpus.occupied d q current
  · intro q isRunning
    exact cpus.running q ((same q).mp isRunning)
  · exact cpus.exclusive

/-- The lock is free or held by this CPU, so that no other one switches. -/
private theorem quiet (cpus : Cpus lock control cpuProc state)
    (own : lock = none ∨ lock = some c) {d : Fin ncpu} (other : d ≠ c) :
    control d ≠ .resumed ∧ control d ≠ .switched := by
  have notLocked : lock ≠ some d := by
    rcases own with free | held
    · simp [free]
    · simp [held, Ne.symm other]
  exact not_or.mp (mt (cpus.locked d).mpr notLocked)

/-- One CPU moves on while no other one switches. -/
private theorem move {lock' : Option (Fin ncpu)}
    {cpuProc' : Fin ncpu → Option ProcId}
    (cpus : Cpus lock control cpuProc state)
    (own : lock = none ∨ lock = some c)
    (own' : lock' = none ∨ lock' = some c)
    (controls : ∀ d, d ≠ c → changed d = control d)
    (currents : ∀ d, d ≠ c → cpuProc' d = cpuProc d)
    (locked : lock' = some c ↔ changed c = .resumed ∨ changed c = .switched)
    (here : cpuProc' c = none ∧ changed c = .scheduler ∨
      ∃ p, cpuProc' c = some p ∧
        ((changed c = .process ∨ changed c = .resumed) ∧ after p = .running ∨
          changed c = .switched ∧ after p ≠ .running))
    (others : ∀ d q, d ≠ c → cpuProc d = some q →
      cpuProc' c ≠ some q ∧ (after q = .running ↔ state q = .running))
    (running : ∀ q, after q = .running →
      ∃ d, cpuProc' d = some q) :
    Cpus lock' changed cpuProc' after := by
  constructor
  · intro d
    by_cases same : d = c
    · rw [same]
      exact locked
    · rw [controls d same]
      have quiet := cpus.quiet own same
      rcases own' with free | held
      · simp [free, quiet]
      · simp [held, Ne.symm same, quiet]
  · intro d inside
    by_cases same : d = c
    · subst d
      rcases here with ⟨_, idle⟩ | ⟨p, current, ⟨_, isRunning⟩ | ⟨left, _⟩⟩
      · simp [idle] at inside
      · exact ⟨p, current, isRunning⟩
      · simp [left] at inside
    · rw [controls d same] at inside
      obtain ⟨q, current, isRunning⟩ := cpus.onCpu d inside
      exact ⟨q, (currents d same).trans current,
        (others d q same current).2.mpr isRunning⟩
  · intro d switched
    by_cases same : d = c
    · subst d
      rcases here with ⟨_, idle⟩ | ⟨p, current, ⟨inside, _⟩ | ⟨_, left⟩⟩
      · simp [idle] at switched
      · simp [switched] at inside
      · exact ⟨p, current, left⟩
    · rw [controls d same] at switched
      exact absurd switched (cpus.quiet own same).2
  · intro d q current
    by_cases same : d = c
    · subst d
      rcases here with ⟨none, _⟩ | ⟨_, _, ⟨inside, _⟩ | ⟨left, _⟩⟩
      · simp [none] at current
      · exact inside.imp_right .inl
      · exact .inr (.inr left)
    · rw [controls d same]
      exact cpus.occupied d q ((currents d same).symm.trans current)
  · exact running
  · intro d e q first second
    by_cases same : d = c <;> by_cases same' : e = c
    · rw [same, same']
    · rw [same] at first
      rw [currents e same'] at second
      exact absurd first (others e q same' second).1
    · rw [currents d same] at first
      rw [same'] at second
      exact absurd second (others d q same first).1
    · rw [currents d same] at first
      rw [currents e same'] at second
      exact cpus.exclusive d e q first second

/-- The scheduler of an idle CPU switches to a process. -/
theorem dispatch (cpus : Cpus lock control cpuProc state)
    (free : lock = none) (idle : control c = .scheduler)
    (waiting : state p ≠ .running) :
    Cpus (some c) (Function.update control c .resumed)
      (Function.update cpuProc c (some p))
      (Function.update state p .running) := by
  refine cpus.move (.inl free) (.inr rfl)
    (fun d other => Function.update_of_ne other _ _)
    (fun d other => Function.update_of_ne other _ _) (by simp)
    (.inr ⟨p, by simp, by simp⟩) ?_ ?_
  · intro d q _ current
    have isRunning := cpus.current_running
      (.inl (cpus.process_of_free free current)) current
    have different : q ≠ p := by
      rintro rfl
      exact waiting isRunning
    simp [Ne.symm different, different]
  · intro q isRunning
    by_cases same : q = p
    · exact ⟨c, by rw [same, Function.update_self]⟩
    · rw [Function.update_of_ne same] at isRunning
      obtain ⟨d, current⟩ := cpus.running q isRunning
      refine ⟨d, ?_⟩
      rw [Function.update_of_ne]
      · exact current
      · rintro rfl
        have inside := cpus.process_of_free free current
        simp [idle] at inside

theorem own_of_inside (cpus : Cpus lock control cpuProc state)
    (inside : lock = none ∧ control c = .process ∨ control c = .resumed) :
    lock = none ∨ lock = some c := by
  rcases inside with ⟨free, _⟩ | resumed
  · exact .inl free
  · exact .inr ((cpus.locked c).mpr (.inl resumed))

/-- The current process of a CPU is on no other CPU. -/
private theorem elsewhere (cpus : Cpus lock control cpuProc state)
    (current : cpuProc c = some p) {d : Fin ncpu} {q : ProcId} (other : d ≠ c)
    (there : cpuProc d = some q) : q ≠ p := by
  rintro rfl
  exact other (cpus.exclusive d c q there current)

/-- A process on its CPU releases the lock. -/
theorem release (cpus : Cpus lock control cpuProc state)
    (inside : lock = none ∧ control c = .process ∨ control c = .resumed)
    (same : ∀ q, after q = .running ↔ state q = .running) :
    Cpus none (Function.update control c .process) cpuProc after := by
  obtain ⟨p, current, isRunning⟩ := cpus.onCpu c (inside.imp_left And.right)
  refine cpus.move (cpus.own_of_inside inside) (.inl rfl)
    (fun d other => Function.update_of_ne other _ _) (fun _ _ => rfl)
    (by simp) (.inr ⟨p, current, .inl ⟨by simp, (same p).mpr isRunning⟩⟩) ?_
    fun q isRunning => cpus.running q ((same q).mp isRunning)
  intro d q other there
  refine ⟨?_, same q⟩
  rw [current, Ne, Option.some.injEq]
  exact Ne.symm (cpus.elsewhere current other there)

/-- A process gives up its CPU: it has changed its state and switches back to
the scheduler. -/
theorem leave (cpus : Cpus lock control cpuProc state)
    (inside : lock = none ∧ control c = .process ∨ control c = .resumed)
    (current : cpuProc c = some p) (left : after p ≠ .running)
    (same : ∀ q, q ≠ p → (after q = .running ↔ state q = .running)) :
    Cpus (some c) (Function.update control c .switched) cpuProc after := by
  refine cpus.move (cpus.own_of_inside inside) (.inr rfl)
    (fun d other => Function.update_of_ne other _ _) (fun _ _ => rfl)
    (by simp) (.inr ⟨p, current, .inr ⟨by simp, left⟩⟩) ?_ ?_
  · intro d q other there
    have different := cpus.elsewhere current other there
    refine ⟨?_, same q different⟩
    rw [current, Ne, Option.some.injEq]
    exact Ne.symm different
  · intro q isRunning
    have different : q ≠ p := by
      rintro rfl
      exact left isRunning
    exact cpus.running q ((same q different).mp isRunning)

/-- The scheduler clears the current process and releases the lock. -/
theorem switchBack (cpus : Cpus lock control cpuProc state)
    (switched : control c = .switched) :
    Cpus none (Function.update control c .scheduler)
      (Function.update cpuProc c none) state := by
  obtain ⟨p, current, left⟩ := cpus.leaving c switched
  refine cpus.move (.inr ((cpus.locked c).mpr (.inr switched))) (.inl rfl)
    (fun d other => Function.update_of_ne other _ _)
    (fun d other => Function.update_of_ne other _ _) (by simp)
    (.inl ⟨by simp, by simp⟩) (by simp) ?_
  intro q isRunning
  obtain ⟨d, isCurrent⟩ := cpus.running q isRunning
  refine ⟨d, ?_⟩
  rw [Function.update_of_ne]
  · exact isCurrent
  · rintro rfl
    rw [current] at isCurrent
    cases isCurrent
    exact left isRunning

end Cpus

/-! ## The slots -/

/-- The code that holds a slot between `allocproc` and `enqueue`: a CPU in
`userinit` or a process in `fork`. -/
inductive Holder (ncpu : Nat) where
  | cpu (c : Fin ncpu)
  | process (p : ProcId)
  deriving DecidableEq

def Control.held : Control → Option ProcId
  | .allocproc p => some p
  | .userinit p => some p
  | _ => none

def Activity.held : Activity → Option ProcId
  | .other => none
  | .allocproc np => some np
  | .fork np => some np
  | .forkCopied np => some np

/-- The slot a piece of code holds. -/
def Kernel.held (k : Kernel ncpu) : Holder ncpu → Option ProcId
  | .cpu c => (k.control c).held
  | .process p => (k.activity p).held

/-- The states of a process that executes code. -/
def ProcState.Alive (state : ProcState) : Prop :=
  state = .running ∨ state = .runnable ∨ state = .sleeping

/-- A held slot is `EMBRYO`, it has one holder, and a process that holds a
slot is alive. -/
structure Slots (held : Holder ncpu → Option ProcId)
    (state : ProcId → ProcState) : Prop where
  embryo : ∀ holder np, held holder = some np → state np = .embryo
  unique : ∀ first second np, held first = some np →
    held second = some np → first = second
  active : ∀ p np, held (.process p) = some np → (state p).Alive

namespace Slots

variable {held : Holder ncpu → Option ProcId}
  {state after : ProcId → ProcState} {holder : Holder ncpu} {np : ProcId}

theorem frame (slots : Slots held state)
    (kept : ∀ q, state q = .embryo → after q = .embryo)
    (alive : ∀ q np, held (.process q) = some np → (state q).Alive →
      (after q).Alive) :
    Slots held after where
  embryo holder np holds := kept np (slots.embryo holder np holds)
  unique := slots.unique
  active q np holds := alive q np holds (slots.active q np holds)

/-- `allocproc` takes an unused slot. -/
theorem acquire (slots : Slots held state) (isUnused : state np = .unused)
    (alive : ∀ p, holder = .process p → (state p).Alive) :
    Slots (Function.update held holder (some np))
      (Function.update state np .embryo) := by
  have fresh : ∀ other, held other ≠ some np := by
    intro other holds
    have isEmbryo := slots.embryo other np holds
    simp [isUnused] at isEmbryo
  have survives : ∀ p, (state p).Alive →
      (Function.update state np .embryo p).Alive := by
    intro p wasAlive
    rw [Function.update_of_ne]
    · exact wasAlive
    · rintro rfl
      simp [ProcState.Alive, isUnused] at wasAlive
  constructor
  · intro other slot holds
    by_cases same : slot = np
    · subst slot
      simp
    · have before : held other = some slot := by
        by_cases here : other = holder
        · subst other
          rw [Function.update_self, Option.some.injEq] at holds
          exact absurd holds.symm same
        · rwa [Function.update_of_ne here] at holds
      rw [Function.update_of_ne same]
      exact slots.embryo other slot before
  · intro first second slot holdsFirst holdsSecond
    by_cases here : first = holder <;> by_cases there : second = holder
    · rw [here, there]
    · subst first
      rw [Function.update_self, Option.some.injEq] at holdsFirst
      rw [Function.update_of_ne there, ← holdsFirst] at holdsSecond
      exact absurd holdsSecond (fresh second)
    · subst second
      rw [Function.update_self, Option.some.injEq] at holdsSecond
      rw [Function.update_of_ne here, ← holdsSecond] at holdsFirst
      exact absurd holdsFirst (fresh first)
    · rw [Function.update_of_ne here] at holdsFirst
      rw [Function.update_of_ne there] at holdsSecond
      exact slots.unique first second slot holdsFirst holdsSecond
  · intro p slot holds
    apply survives
    by_cases here : Holder.process p = holder
    · exact alive p here.symm
    · rw [Function.update_of_ne here] at holds
      exact slots.active p slot holds

/-- The holder passes its slot on, or gives it back. -/
theorem release (slots : Slots held state)
    (holds : held holder = some np) (final : ProcState) :
    Slots (Function.update held holder none)
      (Function.update state np final) := by
  have isEmbryo := slots.embryo holder np holds
  have before : ∀ other slot,
      Function.update held holder none other = some slot →
      held other = some slot ∧ slot ≠ np := by
    intro other slot stillHolds
    have different : other ≠ holder := by
      rintro rfl
      simp at stillHolds
    rw [Function.update_of_ne different] at stillHolds
    refine ⟨stillHolds, ?_⟩
    rintro rfl
    exact different (slots.unique other holder slot stillHolds holds)
  constructor
  · intro other slot stillHolds
    obtain ⟨earlier, different⟩ := before other slot stillHolds
    rw [Function.update_of_ne different]
    exact slots.embryo other slot earlier
  · intro first second slot holdsFirst holdsSecond
    exact slots.unique first second slot (before _ _ holdsFirst).1
      (before _ _ holdsSecond).1
  · intro p slot stillHolds
    have wasAlive := slots.active p slot (before _ _ stillHolds).1
    rw [Function.update_of_ne]
    · exact wasAlive
    · rintro rfl
      simp [ProcState.Alive, isEmbryo] at wasAlive

end Slots

/-- The lock, the CPUs and the slots of a kernel are in order. -/
structure Kernel.Owners (k : Kernel ncpu) : Prop where
  cpus : Cpus k.lock k.control k.cpuProc k.ptable.state
  slots : Slots k.held k.ptable.state

end Xv6
