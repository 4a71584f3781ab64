import Xv6.Proc.Life

/-!
# `exit` and `wait`

A parent that sleeps in `wait` sleeps on its own address.  It goes to sleep in
the critical section in which it saw no exited child, and every `exit` wakes
the parent, and `initproc` when it hands over an exited child, in the critical
section in which the child becomes one.  So no wakeup is lost.  An exited
process stays in its slot until one `wait` of its parent frees it.
-/

namespace Xv6

open Lib

variable {ncpu : Nat}

/-! ## Sleeping parents -/

/-- No process that sleeps in `wait` has an exited child. -/
def Attentive (view : ProcId → Proc) : Prop :=
  ∀ p q, (view p).state = .sleeping → (view p).chan = some (.proc p) →
    (view q).parent = some p → (view q).state ≠ .zombie

namespace Attentive

variable {view : ProcId → Proc} {p : ProcId} {entry : Proc}

/-- Assignments to one process that neither exits nor goes to sleep in
`wait`. -/
theorem update (attentive : Attentive view)
    (waits : entry.state = .sleeping → entry.chan = some (.proc p) →
      (view p).state = .sleeping ∧ (view p).chan = some (.proc p))
    (exits : entry.state = .zombie →
      (view p).state = .zombie ∧ entry.parent = (view p).parent) :
    Attentive (Function.update view p entry) := by
  intro r q asleep onOwn isChild exited
  have before : (view r).state = .sleeping ∧
      (view r).chan = some (.proc r) := by
    by_cases same : r = p
    · subst r
      rw [Function.update_self] at asleep onOwn
      exact waits asleep onOwn
    · rw [Function.update_of_ne same] at asleep onOwn
      exact ⟨asleep, onOwn⟩
  have child : (view q).parent = some r ∧ (view q).state = .zombie := by
    by_cases same : q = p
    · subst q
      rw [Function.update_self] at isChild exited
      obtain ⟨wasZombie, sameParent⟩ := exits exited
      exact ⟨sameParent.symm.trans isChild, wasZombie⟩
    · rw [Function.update_of_ne same] at isChild exited
      exact ⟨isChild, exited⟩
  exact attentive r q before.1 before.2 child.1 child.2

/-- A process that sees no exited child goes to sleep. -/
theorem sleep (attentive : Attentive view)
    (nothing : ∀ q, (view q).parent = some p → (view q).state ≠ .zombie)
    (asleep : entry.state = .sleeping) :
    Attentive (Function.update view p entry) := by
  intro r q rAsleep onOwn isChild exited
  have other : q ≠ p := by
    rintro rfl
    simp [asleep] at exited
  rw [Function.update_of_ne other] at isChild exited
  by_cases same : r = p
  · rw [same] at isChild
    exact nothing q isChild exited
  · rw [Function.update_of_ne same] at rAsleep onOwn
    exact attentive r q rAsleep onOwn isChild exited

/-- The same assignment to every process. -/
theorem map (attentive : Attentive view) {assign : Proc → Proc}
    (parent : ∀ process, (assign process).parent = process.parent)
    (chan : ∀ process, (assign process).chan = process.chan)
    (state : ∀ process,
      ProcState.Wakes process.state (assign process).state) :
    Attentive fun q => assign (view q) := by
  intro p q asleep onOwn isChild exited
  simp only [parent, chan] at onOwn isChild
  have wasAsleep : (view p).state = .sleeping := by
    rcases state (view p) with same | ⟨_, woken⟩
    · exact same.symm.trans asleep
    · simp [woken] at asleep
  have wasExited : (view q).state = .zombie := by
    rcases state (view q) with same | ⟨_, woken⟩
    · exact same.symm.trans exited
    · simp [woken] at exited
  exact attentive p q wasAsleep onOwn isChild wasExited

end Attentive

/-- A process that still sleeps after a wakeup sleeps on another channel. -/
theorem Proc.asleep_of_wake {process : Proc} {chan : Option Chan}
    (asleep : (process.wake chan).state = .sleeping) :
    process.state = .sleeping ∧ process.chan ≠ chan := by
  unfold Proc.wake at asleep
  split at asleep
  · cases asleep
  · rename_i other
    exact ⟨asleep, fun same => other ⟨asleep, same⟩⟩

/-- A process that sleeps after an `exit` slept before, on another channel
than the parent of the process that exits, and not on `initproc` if that gets
an exited child. -/
theorem asleep_of_exitView {view : ProcId → Proc} {curproc p : ProcId}
    {initproc : Option ProcId}
    (asleep : (exitView view curproc initproc p).state = .sleeping) :
    p ≠ curproc ∧ (view p).state = .sleeping ∧
      (view p).chan ≠ (view curproc).parent.map .proc ∧
      ((∃ q, (view q).parent = some curproc ∧ (view q).state = .zombie) →
        (view p).chan ≠ initproc.map .proc) := by
  have other : p ≠ curproc := by
    rintro rfl
    simp [exitView_self] at asleep
  let woken : ProcId → Proc :=
    fun q => (view q).wake ((view curproc).parent.map .proc)
  have first : (woken p).state = .sleeping →
      (view p).state = .sleeping ∧
        (view p).chan ≠ (view curproc).parent.map .proc :=
    Proc.asleep_of_wake
  have passed : (passedView woken curproc initproc (List.finRange nproc)
      p).state = .sleeping := by
    simpa [exitView, Function.update_of_ne other] using asleep
  unfold passedView at passed
  simp only [List.mem_finRange, if_true] at passed
  split at passed
  · obtain ⟨wasAsleep, chan⟩ := Proc.asleep_of_wake passed
    rw [Proc.adopt_state] at wasAsleep
    rw [Proc.adopt_chan] at chan
    obtain ⟨before, onOther⟩ := first wasAsleep
    refine ⟨other, before, onOther, fun _ => ?_⟩
    rwa [Proc.wake_chan] at chan
  · rename_i noZombie
    rw [Proc.adopt_state] at passed
    obtain ⟨before, onOther⟩ := first passed
    refine ⟨other, before, onOther, ?_⟩
    rintro ⟨q, isChild, exited⟩
    refine absurd ⟨q, List.mem_finRange q, ?_, ?_⟩ noZombie
    · rw [Proc.wake_parent]
      exact isChild
    · rw [Proc.wake_state_zombie]
      exact exited

/-- `exit` wakes the parents of all the children that are exited
afterwards. -/
theorem Attentive.exit {view : ProcId → Proc} {curproc : ProcId}
    {initproc : Option ProcId} (attentive : Attentive view)
    (proper : (view curproc).parent ≠ some curproc) :
    Attentive (exitView view curproc initproc) := by
  intro p q asleep onOwn isChild exited
  obtain ⟨other, wasAsleep, notParent, notInit⟩ := asleep_of_exitView asleep
  have chan := read_exitView Proc.chan view curproc initproc
    Proc.wake_chan (fun _ => Proc.adopt_chan _ _ _) (fun _ => rfl) p
  rw [chan] at onOwn
  rw [onOwn] at notParent notInit
  rw [exitView_parent] at isChild
  by_cases self : q = curproc
  · subst q
    rw [if_neg proper] at isChild
    exact notParent (by simp [isChild])
  · have wasExited : (view q).state = .zombie :=
      (wakes_exitView view initproc self).kin.2.1.mp exited
    split at isChild
    · rename_i handed
      exact notInit ⟨q, handed, wasExited⟩ (by simp [isChild])
    · exact attentive p q wasAsleep onOwn isChild wasExited

namespace Kernel

variable {k after : Kernel ncpu} {levels next : Levels ProcId}
  {action : Action ncpu} {p q : ProcId}

/-- Assignments that leave a process awake and alive, or as it was. -/
private theorem attentive_update (attentive : Attentive k.ptable.view)
    {table : PTable} {entry : Proc}
    (views : table.view = Function.update k.ptable.view p entry)
    (awake : entry.state ≠ .sleeping)
    (lives : entry.state ≠ .zombie) : Attentive table.view := by
  rw [views]
  apply attentive.update
  · intro asleep
    exact absurd asleep awake
  · intro exited
    exact absurd exited lives

private theorem attentive_same (attentive : Attentive k.ptable.view)
    {table : PTable} {entry : Proc}
    (views : table.view = Function.update k.ptable.view p entry)
    (state : entry.state = (k.ptable.view p).state)
    (chan : entry.chan = (k.ptable.view p).chan)
    (parent : entry.parent = (k.ptable.view p).parent) :
    Attentive table.view := by
  rw [views]
  apply attentive.update
  · intro asleep onOwn
    exact ⟨state.symm.trans asleep, chan.symm.trans onOwn⟩
  · intro exited
    exact ⟨state.symm.trans exited, parent⟩

theorem Effect.attentive (owners : k.Owners) (family : k.Family)
    (attentive : Attentive k.ptable.view)
    (effect : Effect k levels action after next) :
    Attentive after.ptable.view := by
  have scanning : ∀ {d : Fin ncpu} {r : ProcId} {chan : Option Chan},
      WaitStart k d r action chan → k.cpuProc d = some r →
      (k.ptable.proc r).state = .running :=
    fun starts onCpu => owners.cpus.current_running starts.place onCpu
  cases effect with
  | idle | resume | switchBack | forkAllocFull | killNone | clock =>
      exact attentive
  | userinitAlloc free control slot small views
  | userinitEnqueue free control views
  | dispatch free control chosen head views
  | yield free control onCpu views
  | forkAlloc free control onCpu idle slot small views
  | forkFail control onCpu failed views
  | forkEnqueue free control onCpu holds views =>
      exact attentive_update attentive views (by simp) (by simp)
  | userinitKalloc control views | forkKalloc control onCpu holds views
  | charge control onCpu views | userTrap control onCpu idle views =>
      exact attentive_same attentive views rfl rfl rfl
  | @forkCopy c p np table control onCpu holds views =>
      have isEmbryo : (k.ptable.proc np).state = .embryo :=
        owners.slots.embryo (.process p) np
          (by simp [held, holds, Activity.held])
      exact attentive_update attentive views (by simp [isEmbryo])
        (by simp [isEmbryo])
  | @resumeSleep c p table control onCpu context views =>
      have isRunning : (k.ptable.proc p).state = .running :=
        owners.cpus.current_running (.inr control) onCpu
      exact attentive_update attentive views (by simp [isRunning])
        (by simp [isRunning])
  | waitFailed onCpu starts result nothing reason views =>
      have isRunning := scanning starts onCpu
      exact attentive_update attentive views (by simp [isRunning])
        (by simp [isRunning])
  | @waitReaped c p child table action chan onCpu starts result found views =>
      have isRunning := scanning starts onCpu
      have first : Attentive (Function.update k.ptable.view p
          { k.ptable.view p with chan := chan }) := by
        apply attentive.update
        · intro asleep
          simp [isRunning] at asleep
        · intro exited
          simp [isRunning] at exited
      change Attentive table.view
      rw [views]
      exact first.update (by simp) (by simp)
  | waitSleeps onCpu starts result nothing views =>
      change Attentive (PTable.view _)
      rw [views]
      apply attentive.sleep
      · intro q isChild
        exact zombieChild_none nothing q isChild
      · rfl
  | sleep free control onCpu views =>
      change Attentive (PTable.view _)
      rw [views]
      apply attentive.update
      · intro asleep onOwn
        simp at onOwn
      · intro exited
        simp at exited
  | @exit c p table grown free control onCpu idle different grows views =>
      change Attentive (PTable.view _)
      rw [views]
      exact attentive.exit (family.lineage.proper p)
  | kill free found grows views =>
      change Attentive (PTable.view _)
      rw [views]
      apply attentive.update
      · intro asleep onOwn
        rw [Proc.markKilled_chan] at onOwn
        rcases Proc.wakes_markKilled (k.ptable.view _) with
          same | ⟨_, woken⟩
        · exact ⟨same.symm.trans asleep, onOwn⟩
        · simp [woken] at asleep
      · intro exited
        refine ⟨?_, Proc.markKilled_parent _⟩
        exact (Proc.wakes_markKilled _).kin.2.1.mp exited
  | wakeup free grows views =>
      change Attentive (PTable.view _)
      rw [views]
      exact attentive.map (fun _ => Proc.wake_parent _ _)
        (fun _ => Proc.wake_chan _ _) (fun _ => Proc.wakes_wake _ _)
  | boost free views =>
      change Attentive (PTable.view _)
      rw [views]
      exact attentive.map (fun _ => rfl) (fun _ => rfl)
        (fun process => .refl process.state)

theorem attentive_of_run {history : History (Kernel ncpu) (Action ncpu)}
    (run : Run (kernel ncpu) (boot ncpu) history k) :
    Attentive k.ptable.view := by
  apply run.invariant_history
  · intro p q _ _ isChild
    cases isChild
  · intro past before action after previous taken attentive
    obtain ⟨levels, invariant⟩ := invariant_of_run previous
    obtain ⟨next, _, effect⟩ := invariant.step taken
    exact effect.attentive invariant.owners (family_of_run previous)
      attentive

/-! ## Scans of `wait` -/

/-- How a scan of `wait` ends in terms of the table it finds. -/
theorem Effect.scan (effect : Effect k levels action after next)
    {result : PTable.WaitResult}
    (scan : k.waitResult action = some (p, result)) :
    (∃ child, k.ptable.zombieChild p = some child ∧
      result = .returned (k.ptable.proc child).pid) ∨
    (k.ptable.zombieChild p = none ∧ result = .returned (-1) ∧
      ((∀ q, (k.ptable.proc q).parent ≠ some p) ∨
        (k.ptable.proc p).killed = true)) ∨
    (k.ptable.zombieChild p = none ∧ result = .sleeping) := by
  cases effect with
  | @waitReaped c p child table action chan onCpu starts ended found views =>
      simp only [ended, Option.some.injEq, Prod.mk.injEq] at scan
      obtain ⟨rfl, rfl⟩ := scan
      exact .inl ⟨child, found, rfl⟩
  | waitFailed onCpu starts ended nothing reason views =>
      simp only [ended, Option.some.injEq, Prod.mk.injEq] at scan
      obtain ⟨rfl, rfl⟩ := scan
      exact .inr (.inl ⟨nothing, rfl, reason⟩)
  | waitSleeps onCpu starts ended nothing views =>
      simp only [ended, Option.some.injEq, Prod.mk.injEq] at scan
      obtain ⟨rfl, rfl⟩ := scan
      exact .inr (.inr ⟨nothing, rfl⟩)
  | resume control onCpu context =>
      rcases context with first | second
      · simp [waitResult, onCpu, first] at scan
      · simp [waitResult, onCpu, second] at scan
  | resumeSleep control onCpu context views =>
      simp [waitResult, onCpu, context] at scan
  | forkFail control onCpu failed views =>
      rcases failed with ⟨rfl, _⟩ | ⟨rfl, _⟩
      · cases scan
      · cases scan
  | _ => cases scan

/-- The action frees the slot by a `wait` of the parent of its process, which
returns the `pid`. -/
def ReapedBy (k : Kernel ncpu) (action : Action ncpu) (q : ProcId)
    (pid : Int) : Prop :=
  ∃ p, k.ptable.parent q = some p ∧
    k.waitResult action = some (p, .returned pid)

theorem Effect.reapedBy (effect : Effect k levels action after next)
    (reaps : k.reaps action = some q) :
    ReapedBy k action q (k.ptable.proc q).pid := by
  obtain ⟨p, result, scan, found⟩ := reaps_child reaps
  rcases effect.scan scan with ⟨child, same, rfl⟩ | ⟨nothing, _⟩ | ⟨nothing, _⟩
  · rw [found, Option.some.injEq] at same
    rw [← same] at scan
    exact ⟨p, (zombieChild_some found).1, scan⟩
  · simp [found] at nothing
  · simp [found] at nothing

/-! ## Exited processes -/

/-- The steps that free the slot. -/
def reapings (history : History (Kernel ncpu) (Action ncpu)) (q : ProcId) :
    History (Kernel ncpu) (Action ncpu) :=
  history.filter fun entry => entry.1.reaps entry.2 = some q

/-- What has become of a process since it exited with `pid`: it is still
there, or one `wait` of its parent has returned its `pid` and freed the
slot. -/
def Outcome (later : History (Kernel ncpu) (Action ncpu)) (k : Kernel ncpu)
    (q : ProcId) (pid : Int) : Prop :=
  (k.ptable.state q = .zombie ∧ (k.ptable.proc q).pid = pid ∧
    reapings later q = []) ∨
  (k.ptable.state q = .unused ∧ ∃ entry, reapings later q = [entry] ∧
    ReapedBy entry.1 entry.2 q pid)

private theorem reapings_other
    {later : History (Kernel ncpu) (Action ncpu)}
    (other : k.reaps action ≠ some q) :
    reapings ((k, action) :: later) q = reapings later q := by
  simp [reapings, other]

private theorem reapings_cons
    {later : History (Kernel ncpu) (Action ncpu)}
    (reaps : k.reaps action = some q) :
    reapings ((k, action) :: later) q = (k, action) :: reapings later q := by
  simp [reapings, reaps]

/-- One step after the process has exited. -/
theorem Effect.outcome {later : History (Kernel ncpu) (Action ncpu)}
    {pid : Int} (owners : k.Owners) (ready : Ready k.ptable levels)
    (effect : Effect k levels action after next)
    (other : k.allocates action ≠ some q)
    (outcome : Outcome later k q pid) :
    Outcome ((k, action) :: later) after q pid := by
  have turn := effect.turn owners ready q
  have samePid := effect.pid q
  rw [if_neg other] at samePid
  rcases outcome with ⟨isZombie, hasPid, none⟩ | ⟨isUnused, one⟩
  · rw [isZombie] at turn
    generalize finish : after.ptable.state q = state at turn
    cases turn with
    | stays kin _ _ reaps =>
        rw [if_neg reaps] at samePid
        refine .inl ⟨?_, samePid.trans hasPid, ?_⟩
        · rw [finish]
          exact kin.2.1.mpr rfl
        · rw [reapings_other reaps]
          exact none
    | reaped reaps =>
        refine .inr ⟨finish, (k, action), ?_, ?_⟩
        · rw [reapings_cons reaps, none]
        · rw [← hasPid]
          exact effect.reapedBy reaps
  · rw [isUnused] at turn
    generalize finish : after.ptable.state q = state at turn
    cases turn with
    | stays kin _ _ reaps =>
        refine .inr ⟨?_, ?_⟩
        · rw [finish]
          exact kin.2.2.mpr rfl
        · rw [reapings_other reaps]
          exact one
    | allocated allocates => exact absurd allocates other

/-- Every exited process of a run, until its slot is taken again. -/
theorem outcome_of_run {history : History (Kernel ncpu) (Action ncpu)}
    (run : Run (kernel ncpu) (boot ncpu) history k) :
    ∀ {later past : History (Kernel ncpu) (Action ncpu)}
      {before : Kernel ncpu} {c : Fin ncpu} {q : ProcId},
      history = later ++ (before, .exit c) :: past →
      before.cpuProc c = some q →
      (∀ entry ∈ later, entry.1.allocates entry.2 ≠ some q) →
      Outcome later k q (before.ptable.proc q).pid := by
  apply run.invariant_history
  · intro later past before c q split
    simp at split
  · intro earlier middle action after previous taken outcome later past
      before c q split onCpu untouched
    obtain ⟨levels, invariant⟩ := invariant_of_run previous
    obtain ⟨next, _, effect⟩ := invariant.step taken
    cases later with
    | nil =>
        simp only [List.nil_append, List.cons.injEq, Prod.mk.injEq] at split
        obtain ⟨⟨rfl, rfl⟩, _⟩ := split
        have turn := effect.turn invariant.owners invariant.ready q
        have samePid := effect.pid q
        have guard := taken.1
        simp only [enabled, decide_eq_true_eq] at guard
        have isRunning : middle.ptable.state q = .running :=
          invariant.owners.cpus.current_running (.inl guard.2.1) onCpu
        refine .inl ⟨?_, ?_, rfl⟩
        · rw [isRunning] at turn
          generalize after.ptable.state q = state at turn
          cases turn with
          | stays _ _ other => exact absurd onCpu other
          | exited => rfl
        · simpa [allocates, reaps, waitResult] using samePid
    | cons entry later =>
        simp only [List.cons_append, List.cons.injEq] at split
        obtain ⟨rfl, split⟩ := split
        apply effect.outcome invariant.owners invariant.ready
        · exact untouched _ List.mem_cons_self
        · apply outcome split onCpu
          intro entry member
          exact untouched entry (List.mem_cons_of_mem _ member)

end Kernel

/-- `exit` and `wait` in every run.  Every process that has been started and
is not `initproc` has a parent that has not exited.  No process that sleeps in
`wait` has an exited child.  Until its slot is taken again, an exited process
is freed by no step or by exactly one, a `wait` of its parent at that time
that returns its `pid`.  A `wait` with an exited child frees one, and a `wait`
returns -1 only to a process that has no child or is killed. -/
theorem exit_wait_protocol {k : Kernel ncpu}
    {history : History (Kernel ncpu) (Action ncpu)}
    (run : Run (kernel ncpu) (.boot ncpu) history k) :
    (∀ q, (k.ptable.proc q).state ∈
        [ProcState.sleeping, .runnable, .running, .zombie] →
      k.initproc ≠ some q →
      ∃ p, (k.ptable.proc q).parent = some p ∧
        (k.ptable.proc p).state ≠ .unused ∧
        (k.ptable.proc p).state ≠ .zombie) ∧
    (∀ p q, (k.ptable.proc p).state = .sleeping →
      (k.ptable.proc p).chan = some (.proc p) →
      (k.ptable.proc q).parent = some p →
      (k.ptable.proc q).state ≠ .zombie) ∧
    (∀ later before c past q, history = later ++ (before, .exit c) :: past →
      before.cpuProc c = some q →
      (∀ entry ∈ later, entry.1.allocates entry.2 ≠ some q) →
      ((k.ptable.proc q).state = .zombie ∧
        later.filter (fun entry => entry.1.reaps entry.2 = some q) = []) ∨
      ((k.ptable.proc q).state = .unused ∧ ∃ entry p,
        later.filter (fun entry => entry.1.reaps entry.2 = some q) =
          [entry] ∧
        (entry.1.ptable.proc q).parent = some p ∧
        entry.1.waitResult entry.2 =
          some (p, .returned (before.ptable.proc q).pid))) ∧
    (∀ before action p result, (before, action) ∈ history →
      before.waitResult action = some (p, result) →
      ((∃ q, (before.ptable.proc q).parent = some p ∧
          (before.ptable.proc q).state = .zombie) →
        ∃ child, before.reaps action = some child ∧
          result = .returned (before.ptable.proc child).pid) ∧
      (result = .returned (-1) →
        (∀ q, (before.ptable.proc q).parent ≠ some p) ∨
          (before.ptable.proc p).killed = true)) := by
  refine ⟨?_, Kernel.attentive_of_run run, ?_, ?_⟩
  · intro q started other
    have lineage := (Kernel.family_of_run run).lineage
    have inLife : (k.ptable.state q).Alive ∨ k.ptable.state q = .zombie := by
      simp only [List.mem_cons, List.not_mem_nil, or_false] at started
      unfold ProcState.Alive PTable.state
      tauto
    obtain ⟨p, isParent⟩ :=
      Option.ne_none_iff_exists'.mp (lineage.orphan q inLife other)
    have isAlive := lineage.alive q p isParent
    exact ⟨p, isParent, isAlive.ne_unused, isAlive.ne_zombie⟩
  · intro later before c past q split onCpu untouched
    rcases Kernel.outcome_of_run run split onCpu untouched with
      ⟨isZombie, _, none⟩ | ⟨isUnused, entry, one, p, isParent, result⟩
    · exact .inl ⟨isZombie, none⟩
    · exact .inr ⟨isUnused, entry, p, one, isParent, result⟩
  · intro before action p result member scan
    obtain ⟨later, past, split⟩ := List.append_of_mem member
    rw [split] at run
    obtain ⟨after, earlier, taken, _⟩ := run.split_at
    obtain ⟨levels, invariant⟩ := Kernel.invariant_of_run earlier
    obtain ⟨next, _, effect⟩ := invariant.step taken
    rcases effect.scan scan with
      ⟨child, found, rfl⟩ | ⟨nothing, rfl, reason⟩ | ⟨nothing, rfl⟩
    · constructor
      · intro _
        exact ⟨child, by simp [Kernel.reaps, scan, found], rfl⟩
      · intro failed
        have inUse : before.ptable.state child ≠ .unused := by
          have exited : before.ptable.state child = .zombie :=
            (zombieChild_some found).2
          simp [exited]
        have drawn := ((Kernel.pids_of_run earlier).drawn child inUse).1
        simp only [PTable.WaitResult.returned.injEq] at failed
        omega
    · constructor
      · rintro ⟨q, isChild, exited⟩
        exact absurd exited (zombieChild_none nothing q isChild)
      · exact fun _ => reason
    · constructor
      · rintro ⟨q, isChild, exited⟩
        exact absurd exited (zombieChild_none nothing q isChild)
      · intro failed
        cases failed

/-- A run in which the parent sleeps in `wait`, the child exits and the
parent wakes up and frees it. -/
theorem exit_wait_protocol_child :
    ∃ history k, Run (kernel 1) (.boot 1) history k ∧
      (k.ptable.proc 1).state = .unused ∧
      ∃ later before past, history = later ++ (before, .exit 0) :: past ∧
        ∃ entry p,
          later.filter (fun entry => entry.1.reaps entry.2 = some 1) =
            [entry] ∧
          (entry.1.ptable.proc 1).parent = some p ∧
          entry.1.waitResult entry.2 = some (p, .returned 2) := by
  have passed : (replay Kernel.next [] (.boot 1)
      (Kernel.bootActions 0 ++ Kernel.forkActions 0 ++
        [.wait 0, .switchBack 0, .schedule 0, .resume 0, .exit 0,
          .switchBack 0, .schedule 0, .resume 0])).any
        (fun result => decide (
          (result.2.ptable.proc 1).state = .unused ∧
          (∀ entry ∈ result.1.take 3,
            entry.1.allocates entry.2 ≠ some 1) ∧
          ∃ entry ∈ (result.1.drop 3).head?, entry.2 = .exit 0 ∧
            entry.1.cpuProc 0 = some 1 ∧
            (entry.1.ptable.proc 1).pid = 2)) = true := by
    decide +kernel
  obtain ⟨history, k, run, facts⟩ := Run.of_replay Kernel.step_of_next passed
  obtain ⟨freed, untouched, ⟨before, action⟩, member, isExit, onCpu, named⟩ :=
    of_decide_eq_true facts
  have freed : (k.ptable.proc 1).state = .unused := freed
  have isExit : action = .exit 0 := isExit
  have named : (before.ptable.proc 1).pid = 2 := named
  subst isExit
  have rest : ∃ past, history.drop 3 = (before, .exit 0) :: past := by
    cases suffix : history.drop 3 with
    | nil => simp [suffix] at member
    | cons entry past =>
        simp [suffix] at member
        exact ⟨past, by rw [member]⟩
  obtain ⟨past, rest⟩ := rest
  have split : history = history.take 3 ++ (before, .exit 0) :: past := by
    rw [← rest, List.take_append_drop]
  refine ⟨history, k, run, freed, history.take 3, before, past, split, ?_⟩
  rcases (exit_wait_protocol run).2.2.1 (history.take 3) before 0 past 1
    split onCpu untouched with ⟨isZombie, _⟩ | ⟨_, entry, p, one, isParent,
      result⟩
  · simp [freed] at isZombie
  · rw [named] at result
    exact ⟨entry, p, one, isParent, result⟩

end Xv6
