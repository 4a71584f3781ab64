import Xv6.Proc.Invariant

/-!
# Who killed a process

The flag `killed` and the `pid` live in slots that are used again.  `wait`
clears both, `allocproc` clears neither, and `kill` looks at every slot
whatever its state.  A mark that `kill` leaves in a slot without a process,
or that it puts on a slot whose `fork` then fails, passes to the next process
of the slot.  In the runs without such steps every mark is owed to a `kill`
with the `pid` of the process or to a trap of the process itself.
-/

namespace Xv6

open Lib

variable {ncpu : Nat}

/-- A reason for the process `p` with the given `pid` to be marked: a `kill`
with its `pid`, or an unexpected trap in user mode. -/
def Kernel.blames (k : Kernel ncpu) (p : ProcId) (pid : Int) :
    Action ncpu → Bool
  | .kill _ target => target = pid
  | .userTrap c => k.cpuProc c = some p
  | _ => false

/-- The steps since the slot was last allocated. -/
def lifetime (history : History (Kernel ncpu) (Action ncpu)) (p : ProcId) :
    History (Kernel ncpu) (Action ncpu) :=
  history.takeWhile fun entry => entry.1.allocates entry.2 ≠ some p

/-- A `kill` does not find its `pid` in an unused slot, and a `fork` that
fails gives back a slot that is not marked. -/
def Kernel.killSafe (k : Kernel ncpu) : Action ncpu → Bool
  | .kill _ pid => ∀ p, killTarget k.ptable pid = some p →
      (k.ptable.proc p).state ≠ .unused
  | .forkKalloc c success => success = false →
      ∀ np, k.running c = .allocproc np → (k.ptable.proc np).killed = false
  | .forkCopy c success => success = false →
      ∀ np, k.running c = .fork np → (k.ptable.proc np).killed = false
  | _ => true

/-- A marked slot holds a process, and the mark has a reason in the lifetime
of that process. -/
def Accounted (history : History (Kernel ncpu) (Action ncpu))
    (k : Kernel ncpu) (p : ProcId) : Prop :=
  (k.ptable.proc p).killed = true → (k.ptable.proc p).state ≠ .unused ∧
    ∃ entry ∈ lifetime history p,
      entry.1.blames p (k.ptable.proc p).pid entry.2 = true

/-- The part of a process that attribution speaks about. -/
private def mark (process : Proc) : Bool × Int × Bool :=
  (process.killed, process.pid, process.state = .unused)

private theorem mark_wake (process : Proc) (chan : Option Chan) :
    mark (process.wake chan) = mark process := by
  unfold mark Proc.wake
  split
  · rename_i asleep
    simp [asleep.1]
  · rfl

namespace Kernel

variable {k after : Kernel ncpu} {levels next : Levels ProcId}
  {action : Action ncpu} {p q : ProcId}
  {history : History (Kernel ncpu) (Action ncpu)}

private theorem lifetime_cons (other : k.allocates action ≠ some q) :
    lifetime ((k, action) :: history) q =
      (k, action) :: lifetime history q := by
  simp [lifetime, other]

/-- Steps that leave the mark, the `pid` and the use of a slot alone. -/
private theorem accounted_frame (accounted : Accounted history k q)
    (other : k.allocates action ≠ some q)
    (same : mark (after.ptable.view q) = mark (k.ptable.view q)) :
    Accounted ((k, action) :: history) after q := by
  simp only [mark, PTable.view_killed, PTable.view_pid, PTable.view_state,
    Prod.mk.injEq] at same
  obtain ⟨killed, pid, sameUse⟩ := same
  have unused := decide_eq_decide.mp sameUse
  intro marked
  rw [killed] at marked
  obtain ⟨inUse, entry, member, blames⟩ := accounted marked
  refine ⟨fun isUnused => inUse (unused.mp isUnused), entry, ?_, ?_⟩
  · rw [lifetime_cons other]
    exact List.mem_cons_of_mem _ member
  · rw [pid]
    exact blames

/-- A step that is a reason itself. -/
private theorem accounted_now (other : k.allocates action ≠ some q)
    (inUse : (after.ptable.proc q).state ≠ .unused)
    (blames : k.blames q (after.ptable.proc q).pid action = true) :
    Accounted ((k, action) :: history) after q := by
  intro _
  refine ⟨inUse, (k, action), ?_, blames⟩
  rw [lifetime_cons other]
  exact List.mem_cons_self

private theorem accounted_unmarked
    (unmarked : (after.ptable.proc q).killed = false) :
    Accounted history after q := by
  intro marked
  simp [unmarked] at marked

/-- Allocation finds an unmarked slot. -/
private theorem accounted_alloc (accounted : ∀ p, Accounted history k p)
    {table : PTable} (slot : k.ptable.freeSlot = some p)
    (allocates : k.allocates action = some p)
    (views : table.view = Function.update k.ptable.view p
      { k.ptable.view p with
        state := .embryo, pid := k.nextpid, priority := 0 })
    (stored : after.ptable = table) :
    Accounted ((k, action) :: history) after q := by
  by_cases same : q = p
  · subst q
    apply accounted_unmarked
    have read := PTable.read_same Proc.killed views rfl p
    rw [stored]
    by_contra marked
    have wasMarked : (k.ptable.proc p).killed = true := by
      rw [← PTable.view_killed, ← read]
      simpa using marked
    exact (accounted p wasMarked).1 (freeSlot_unused slot)
  · apply accounted_frame (accounted q)
    · rw [allocates]
      simpa using Ne.symm same
    · have read := PTable.read_update mark views q
      rw [if_neg same] at read
      rw [stored]
      exact read

/-- Assignments to another slot leave the mark alone. -/
private theorem accounted_elsewhere (accounted : Accounted history k q)
    (other : k.allocates action ≠ some q) {entry : Proc}
    (views : after.ptable.view = Function.update k.ptable.view p entry)
    (different : q ≠ p) :
    Accounted ((k, action) :: history) after q := by
  apply accounted_frame accounted other
  rw [PTable.read_update mark views q, if_neg different]

/-- Assignments that keep the mark of a slot. -/
private theorem accounted_same (accounted : Accounted history k q)
    (other : k.allocates action ≠ some q) {entry : Proc}
    (views : after.ptable.view = Function.update k.ptable.view p entry)
    (same : mark entry = mark (k.ptable.view p)) :
    Accounted ((k, action) :: history) after q :=
  accounted_frame accounted other (PTable.read_same mark views same q)

/-- `exit` leaves marks and `pid`s alone, and the slot in use. -/
private theorem mark_exitView (initproc : Option ProcId)
    (inUse : (k.ptable.proc p).state ≠ .unused) :
    mark (exitView k.ptable.view p initproc q) = mark (k.ptable.view q) := by
  have killed := read_exitView Proc.killed k.ptable.view p initproc
    Proc.wake_killed (fun _ => Proc.adopt_killed _ _ _) (fun _ => rfl) q
  have pid := read_exitView Proc.pid k.ptable.view p initproc
    Proc.wake_pid (fun _ => Proc.adopt_pid _ _ _) (fun _ => rfl) q
  have unused : (exitView k.ptable.view p initproc q).state = .unused ↔
      (k.ptable.view q).state = .unused := by
    by_cases same : q = p
    · subst q
      simp [exitView_self, inUse]
    · rcases wakes_exitView k.ptable.view initproc same with
        kept | ⟨asleep, woken⟩
      · rw [kept]
      · simp only [asleep, woken, reduceCtorEq]
  simp only [mark, killed, pid, unused]

/-- Every safe step keeps all marks accounted for. -/
theorem Effect.accounted (owners : k.Owners) (ready : Ready k.ptable levels)
    (safe : k.killSafe action = true) (accounted : ∀ p, Accounted history k p)
    (effect : Effect k levels action after next) (q : ProcId) :
    Accounted ((k, action) :: history) after q := by
  have inUse : ∀ c p, k.cpuProc c = some p →
      k.control c = .process ∨ k.control c = .resumed →
      (k.ptable.proc p).state ≠ .unused := by
    intro c p current place
    have isRunning : (k.ptable.proc p).state = .running :=
      owners.cpus.current_running place current
    simp [isRunning]
  have heldInUse : ∀ holder np, k.held holder = some np →
      (k.ptable.proc np).state ≠ .unused := by
    intro holder np holds
    have isEmbryo : (k.ptable.proc np).state = .embryo :=
      owners.slots.embryo holder np holds
    simp [isEmbryo]
  cases effect with
  | userinitAlloc free control slot small views
  | forkAlloc free control current idle slot small views =>
      exact accounted_alloc accounted slot slot views rfl
  | userinitEnqueue free control views =>
      rename_i c p table
      have before := heldInUse (.cpu c) p
        (by simp [held, control, Control.held])
      exact accounted_same (accounted q) (by simp [allocates]) views
        (by simp [mark, before])
  | forkEnqueue free control current holds views =>
      rename_i c p np table
      have before := heldInUse (.process p) np
        (by simp [held, holds, Activity.held])
      exact accounted_same (accounted q) (by simp [allocates]) views
        (by simp [mark, before])
  | dispatch free control chosen head views =>
      have isRunnable := ready.chosen_runnable chosen
      exact accounted_same (accounted q) (by simp [allocates]) views
        (by simp [mark, isRunnable])
  | yield free control current views | sleep free control current views =>
      have before := inUse _ _ current (.inl control)
      exact accounted_same (accounted q) (by simp [allocates]) views
        (by simp [mark, before])
  | waitSleeps current starts result nothing views =>
      have before := inUse _ _ current starts.place
      exact accounted_same (accounted q) (by simp [starts.allocates_none])
        views (by simp [mark, before])
  | waitFailed current starts result nothing reason views =>
      exact accounted_same (accounted q) (by simp [starts.allocates_none])
        views rfl
  | waitReaped current starts result found views =>
      rename_i c p child table chan
      by_cases reaped : q = child
      · subst q
        apply accounted_unmarked
        change (table.view child).killed = false
        rw [views, Function.update_self]
      · apply accounted_frame (accounted q) (by simp [starts.allocates_none])
        change mark (table.view q) = _
        rw [PTable.read_update_twice mark views rfl, if_neg reaped]
  | exit free control current idle different grows views =>
      apply accounted_frame (accounted q) (by simp [allocates])
      simp only [views]
      exact mark_exitView k.initproc (inUse _ _ current (.inl control))
  | kill free found grows views =>
      rename_i c pid target table
      by_cases same : q = target
      · subst q
        have read := PTable.read_update Proc.pid views target
        have wakes := PTable.read_update Proc.state views target
        rw [if_pos rfl] at read wakes
        have named : (k.ptable.proc target).pid = pid := by
          simpa using List.find?_some found
        apply accounted_now (by simp [allocates])
        · rcases (k.ptable.view target).wakes_markKilled with
            kept | ⟨_, woken⟩
          · rw [kept] at wakes
            change (table.view target).state ≠ .unused
            rw [wakes]
            exact of_decide_eq_true safe target found
          · rw [woken] at wakes
            change (table.view target).state ≠ .unused
            rw [wakes]
            decide
        · change decide (pid = (table.view target).pid) = true
          rw [read, Proc.markKilled_pid, PTable.view_pid, named]
          simp
      · exact accounted_elsewhere (accounted q) (by simp [allocates]) views
          same
  | userTrap control current idle views =>
      rename_i c p table
      by_cases same : q = p
      · subst q
        have state := PTable.read_same Proc.state views rfl p
        apply accounted_now (by simp [allocates])
        · change (table.view p).state ≠ .unused
          rw [state]
          exact inUse c p current (.inl control)
        · simp [blames, current]
      · exact accounted_elsewhere (accounted q) (by simp [allocates]) views
          same
  | forkFail control current failed views =>
      rename_i c p np table
      have silent : k.allocates action = none := by
        rcases failed with ⟨rfl, _⟩ | ⟨rfl, _⟩ <;> rfl
      by_cases same : q = np
      · subst q
        have unmarked : (k.ptable.proc np).killed = false := by
          rcases failed with ⟨rfl, holds⟩ | ⟨rfl, holds⟩
          · exact of_decide_eq_true safe rfl np
              ((running_eq current).trans holds)
          · exact of_decide_eq_true safe rfl np
              ((running_eq current).trans holds)
        apply accounted_unmarked
        have read := PTable.read_same Proc.killed views rfl np
        exact read.trans unmarked
      · exact accounted_elsewhere (accounted q) (by simp [silent]) views same
  | wakeup free grows views =>
      apply accounted_frame (accounted q) (by simp [allocates])
      simp only [views]
      exact mark_wake _ _
  | boost free views =>
      apply accounted_frame (accounted q) (by simp [allocates])
      simp only [views]
      rfl
  | forkAllocFull full =>
      exact accounted_frame (accounted q) (by simp [allocates, full]) rfl
  | idle | resume | switchBack | killNone | clock =>
      exact accounted_frame (accounted q) (by simp [allocates]) rfl
  | _ =>
      rename_i views
      exact accounted_same (accounted q) (by simp [allocates]) views rfl

theorem accounted_of_run
    (run : Run (kernel ncpu) (.boot ncpu) history k)
    (safe : ∀ entry ∈ history, entry.1.killSafe entry.2 = true) :
    ∀ p, Accounted history k p := by
  let condition : Kernel ncpu → Action ncpu → Prop :=
    fun k action => k.killSafe action = true
  have met : ∀ entry ∈ history, condition entry.1 entry.2 := safe
  apply run.invariant_of_forall met
  · intro p marked
    cases marked
  · intro past before action after previous taken safe accounted
    obtain ⟨levels, invariant⟩ := invariant_of_run previous
    obtain ⟨next, _, effect⟩ := invariant.step taken
    exact effect.accounted invariant.owners invariant.ready safe accounted

end Kernel

/-- `kill` returns 0 exactly when it finds a slot with the `pid`. -/
theorem kill_value {table : PTable} {levels : Levels ProcId}
    (ready : Ready table levels) (pid : Int) :
    ∃ value result, table.kill pid = .ok (value, result) ∧
      (value = 0 ↔ ∃ p, (table.proc p).pid = pid) := by
  obtain ⟨value, result, _, success, _, _, outcome⟩ := ready.kill pid
  refine ⟨value, result, success, ?_⟩
  cases target : killTarget table pid with
  | none =>
      simp only [target] at outcome
      rw [outcome.1]
      have absent : ∀ p, (table.proc p).pid ≠ pid := by
        simpa [killTarget] using target
      simpa using absent
  | some p =>
      simp only [target] at outcome
      simp only [outcome.1, true_iff]
      exact ⟨p, outcome.2.1⟩

/-- In a run of safe steps a process is marked only after a `kill` with its
`pid` or a trap of its own, in its lifetime, and each `kill` of the run
returns 0 exactly when some process has the `pid`. -/
theorem killed_accounted {k : Kernel ncpu}
    {history : History (Kernel ncpu) (Action ncpu)}
    (run : Run (kernel ncpu) (.boot ncpu) history k)
    (safe : ∀ entry ∈ history, entry.1.killSafe entry.2 = true) :
    (∀ p, (k.ptable.proc p).killed = true →
      (k.ptable.proc p).state ≠ .unused ∧
        ∃ entry ∈ lifetime history p,
          entry.1.blames p (k.ptable.proc p).pid entry.2 = true) ∧
    (∀ before c pid, (before, .kill c pid) ∈ history →
      ∃ value result, before.ptable.kill pid = .ok (value, result) ∧
        (value = 0 ↔ ∃ p, (before.ptable.proc p).state ≠ .unused ∧
          (before.ptable.proc p).pid = pid)) := by
  refine ⟨Kernel.accounted_of_run run safe, ?_⟩
  intro before c pid member
  have inUse : ∀ p, killTarget before.ptable pid = some p →
      (before.ptable.proc p).state ≠ .unused :=
    of_decide_eq_true (safe _ member)
  obtain ⟨later, past, split⟩ := List.append_of_mem member
  rw [split] at run
  obtain ⟨_, earlier, _, _⟩ := run.split_at
  obtain ⟨levels, invariant⟩ := Kernel.invariant_of_run earlier
  obtain ⟨value, result, success, found⟩ := kill_value invariant.ready pid
  refine ⟨value, result, success, ?_⟩
  rw [found]
  constructor
  · rintro ⟨p, named⟩
    cases target : killTarget before.ptable pid with
    | none =>
        have absent : ∀ p, (before.ptable.proc p).pid ≠ pid := by
          simpa [killTarget] using target
        exact absurd named (absent p)
    | some q =>
        exact ⟨q, inUse q target, by simpa using List.find?_some target⟩
  · rintro ⟨p, _, named⟩
    exact ⟨p, named⟩

/-- A safe run in which the first process forks a child and kills it. -/
theorem killed_accounted_child :
    ∃ history k, Run (kernel 1) (.boot 1) history k ∧
      (k.ptable.proc 1).killed = true ∧ (k.ptable.proc 1).pid = 2 ∧
      ∃ entry ∈ lifetime history 1, entry.1.blames 1 2 entry.2 = true := by
  have passed : (replay Kernel.next [] (.boot 1)
      (Kernel.bootActions 0 ++ Kernel.forkActions 0 ++ [.kill 0 2])).any
        (fun result => decide (
          (∀ entry ∈ result.1, entry.1.killSafe entry.2 = true) ∧
          (result.2.ptable.proc 1).killed = true ∧
          (result.2.ptable.proc 1).pid = 2)) = true := by
    decide +kernel
  obtain ⟨history, k, run, facts⟩ := Run.of_replay Kernel.step_of_next passed
  obtain ⟨safe, marked, named⟩ := of_decide_eq_true facts
  have named : (k.ptable.proc 1).pid = 2 := named
  obtain ⟨_, reason⟩ := (killed_accounted run safe).1 1 marked
  rw [named] at reason
  exact ⟨history, k, run, marked, named, reason⟩

/-- Two runs after which a waiting process is marked although no `kill` since
its `fork` named it and it took no trap.  In the first one `kill` of `pid` 0
marks an unused slot and returns 0 although no process has that `pid`.  In
the second one a slot is marked whose `fork` then fails. -/
theorem kill_marks_later_process :
    (∃ history k, Run (kernel 1) (.boot 1) history k ∧
      (k.ptable.proc 1).state = .runnable ∧
      (k.ptable.proc 1).killed = true ∧
      (∀ entry ∈ lifetime history 1,
        entry.1.blames 1 (k.ptable.proc 1).pid entry.2 = false) ∧
      ∃ entry ∈ history, entry.2 = .kill 0 0 ∧
        (entry.1.ptable.kill 0).toOption.map Prod.fst = some 0 ∧
        ∀ p, (entry.1.ptable.proc p).state ≠ .unused →
          (entry.1.ptable.proc p).pid ≠ 0) ∧
    (∃ history k, Run (kernel 1) (.boot 1) history k ∧
      (k.ptable.proc 2).state = .runnable ∧
      (k.ptable.proc 2).killed = true ∧
      (∀ entry ∈ lifetime history 2,
        entry.1.blames 2 (k.ptable.proc 2).pid entry.2 = false)) := by
  constructor
  · have passed : (replay Kernel.next [] (.boot 1)
        (Kernel.bootActions 0 ++ [.kill 0 0] ++ Kernel.forkActions 0)).any
          (fun result => decide (
            (result.2.ptable.proc 1).state = .runnable ∧
            (result.2.ptable.proc 1).killed = true ∧
            (∀ entry ∈ lifetime result.1 1,
              entry.1.blames 1 (result.2.ptable.proc 1).pid entry.2 =
                false) ∧
            ∃ entry ∈ result.1, entry.2 = .kill 0 0 ∧
              (entry.1.ptable.kill 0).toOption.map Prod.fst = some 0 ∧
              ∀ p, (entry.1.ptable.proc p).state ≠ .unused →
                (entry.1.ptable.proc p).pid ≠ 0)) = true := by
      decide +kernel
    obtain ⟨history, k, run, facts⟩ :=
      Run.of_replay Kernel.step_of_next passed
    exact ⟨history, k, run, of_decide_eq_true facts⟩
  · have passed : (replay Kernel.next [] (.boot 1)
        (Kernel.bootActions 0 ++ Kernel.forkActions 0 ++
          [.forkAlloc 0, .yield 0, .switchBack 0, .schedule 0, .resume 0,
            .kill 0 3, .sleep 0 0, .switchBack 0, .schedule 0, .resume 0,
            .forkKalloc 0 false] ++ Kernel.forkActions 0)).any
          (fun result => decide (
            (result.2.ptable.proc 2).state = .runnable ∧
            (result.2.ptable.proc 2).killed = true ∧
            (∀ entry ∈ lifetime result.1 2,
              entry.1.blames 2 (result.2.ptable.proc 2).pid entry.2 =
                false))) = true := by
      decide +kernel
    obtain ⟨history, k, run, facts⟩ :=
      Run.of_replay Kernel.step_of_next passed
    exact ⟨history, k, run, of_decide_eq_true facts⟩

end Xv6
