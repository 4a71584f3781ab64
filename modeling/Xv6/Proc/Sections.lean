import Xv6.Proc.Ready

/-!
# Specifications of the critical sections

`exit`, `yield`, `sleep`, `allocproc`, `wait` and `kill` on a ready table.
Each specification is total: the section does not fault, it leaves a ready
table, and it determines the view of every process.
-/

namespace Xv6

open Lib

/-! ## `exit` -/

/-- What the loop of `exit` does to one process. -/
def Proc.adopt (process : Proc) (curproc : ProcId)
    (initproc : Option ProcId) : Proc :=
  if process.parent = some curproc then
    { process with parent := initproc }
  else process

section Adopt

variable (process : Proc) (curproc : ProcId) (initproc : Option ProcId)

@[simp] theorem Proc.adopt_state :
    (process.adopt curproc initproc).state = process.state := by
  unfold Proc.adopt
  split <;> rfl

@[simp] theorem Proc.adopt_pid :
    (process.adopt curproc initproc).pid = process.pid := by
  unfold Proc.adopt
  split <;> rfl

@[simp] theorem Proc.adopt_chan :
    (process.adopt curproc initproc).chan = process.chan := by
  unfold Proc.adopt
  split <;> rfl

@[simp] theorem Proc.adopt_killed :
    (process.adopt curproc initproc).killed = process.killed := by
  unfold Proc.adopt
  split <;> rfl

@[simp] theorem Proc.adopt_priority :
    (process.adopt curproc initproc).priority = process.priority := by
  unfold Proc.adopt
  split <;> rfl

@[simp] theorem Proc.adopt_ticksRunning :
    (process.adopt curproc initproc).ticksRunning = process.ticksRunning := by
  unfold Proc.adopt
  split <;> rfl

@[simp] theorem Proc.adopt_context :
    (process.adopt curproc initproc).context = process.context := by
  unfold Proc.adopt
  split <;> rfl

theorem Proc.adopt_parent :
    (process.adopt curproc initproc).parent =
      if process.parent = some curproc then initproc else process.parent := by
  unfold Proc.adopt
  split <;> rfl

theorem Proc.adopt_eq_self (other : process.parent ≠ some curproc) :
    process.adopt curproc initproc = process := by
  simp [Proc.adopt, other]

theorem Proc.adopt_adopt (different : initproc ≠ some curproc) :
    (process.adopt curproc initproc).adopt curproc initproc =
      process.adopt curproc initproc := by
  unfold Proc.adopt
  split <;> simp_all

theorem Proc.adopt_wake (chan : Option Chan) :
    (process.wake chan).adopt curproc initproc =
      (process.adopt curproc initproc).wake chan := by
  unfold Proc.adopt Proc.wake
  split <;> split <;> simp_all

end Adopt

/-- Some child of `curproc` among `slots` has exited. -/
def ZombieChild (view : ProcId → Proc) (curproc : ProcId)
    (slots : List ProcId) : Prop :=
  ∃ q ∈ slots, (view q).parent = some curproc ∧ (view q).state = .zombie

instance (view : ProcId → Proc) (curproc : ProcId) (slots : List ProcId) :
    Decidable (ZombieChild view curproc slots) :=
  inferInstanceAs (Decidable (∃ q ∈ slots, _ ∧ _))

/-- What becomes of a process when `exit` has gone over `slots`. -/
def passedView (view : ProcId → Proc) (curproc : ProcId)
    (initproc : Option ProcId) (slots : List ProcId) (q : ProcId) : Proc :=
  let process :=
    if q ∈ slots then (view q).adopt curproc initproc else view q
  if ZombieChild view curproc slots then process.wake (initproc.map .proc)
  else process

/-- What the critical section of `exit` makes of every process. -/
def exitView (view : ProcId → Proc) (curproc : ProcId)
    (initproc : Option ProcId) : ProcId → Proc :=
  let woken q := (view q).wake ((view curproc).parent.map .proc)
  let passed := passedView woken curproc initproc (List.finRange nproc)
  Function.update passed curproc { passed curproc with state := .zombie }

/-- `exit` changes states and parents only. -/
theorem read_exitView {α : Type*} (read : Proc → α) (view : ProcId → Proc)
    (curproc : ProcId) (initproc : Option ProcId)
    (wakes : ∀ process chan, read (Proc.wake process chan) = read process)
    (adopts : ∀ process, read (Proc.adopt process curproc initproc) =
      read process)
    (exits : ∀ process, read { process with state := .zombie } =
      read process) (q : ProcId) :
    read (exitView view curproc initproc q) = read (view q) := by
  have passed : ∀ woken : ProcId → Proc,
      read (passedView woken curproc initproc (List.finRange nproc) q) =
        read (woken q) := by
    intro woken
    simp only [passedView, List.mem_finRange, if_true]
    split
    · rw [wakes, adopts]
    · rw [adopts]
  unfold exitView
  by_cases same : q = curproc
  · subst q
    simp only [Function.update_self]
    rw [exits, passed, wakes]
  · rw [Function.update_of_ne same, passed, wakes]

theorem exitView_parent (view : ProcId → Proc) (curproc : ProcId)
    (initproc : Option ProcId) (q : ProcId) :
    (exitView view curproc initproc q).parent =
      if (view q).parent = some curproc then initproc
      else (view q).parent := by
  have passed : ∀ woken : ProcId → Proc,
      (passedView woken curproc initproc (List.finRange nproc) q).parent =
        ((woken q).adopt curproc initproc).parent := by
    intro woken
    simp only [passedView, List.mem_finRange, if_true]
    split
    · rw [Proc.wake_parent]
    · rfl
  have adopted : (exitView view curproc initproc q).parent =
      (((view q).wake ((view curproc).parent.map .proc)).adopt curproc
        initproc).parent := by
    unfold exitView
    by_cases same : q = curproc
    · subst q
      simp only [Function.update_self]
      exact passed _
    · rw [Function.update_of_ne same]
      exact passed _
  rw [adopted, Proc.adopt_parent, Proc.wake_parent]

namespace Ready

variable {table : PTable} {levels : Levels ProcId} {p : ProcId}

/-- One iteration of the loop of `exit`. -/
private theorem passChild (ready : Ready table levels)
    (curproc : ProcId) (initproc : Option ProcId) (p : ProcId) :
    ∃ result grown, PTable.passChild curproc initproc table p = .ok result ∧
      Ready result grown ∧ Levels.Grows levels grown ∧
      result.view = passedView table.view curproc initproc [p] := by
  unfold PTable.passChild
  by_cases child : (table.proc p).parent = some curproc
  · rw [if_pos child]
    have moved : Ready
        (table.update p fun entry => { entry with parent := initproc })
        levels :=
      ready.update_same (fun _ => rfl) (fun _ => rfl) (fun _ => rfl)
    have movedView :
        (table.update p fun entry => { entry with parent := initproc }).view =
          Function.update table.view p
            ((table.view p).adopt curproc initproc) := by
      rw [PTable.view_update]
      · simp [Proc.adopt, child]
      · intro entry
        rfl
    have state :
        ((table.update p fun entry =>
          { entry with parent := initproc }).proc p).state =
          (table.proc p).state := by
      simp [PTable.update]
    simp only [state]
    by_cases isZombie : (table.proc p).state = .zombie
    · obtain ⟨result, grown, success, still, grows, views⟩ :=
        moved.wakeup1 (initproc.map .proc)
      refine ⟨result, grown, ?_, still, grows, ?_⟩
      · rw [if_pos isZombie]
        exact success
      · have exited : ZombieChild table.view curproc [p] :=
          ⟨p, by simp, child, isZombie⟩
        funext q
        rw [views, movedView]
        by_cases same : q = p
        · subst q
          simp [passedView, exited]
        · simp [passedView, exited, same]
    · refine ⟨_, levels, if_neg isZombie, moved, Levels.Grows.refl _, ?_⟩
      have none_exited : ¬ ZombieChild table.view curproc [p] := by
        simp [ZombieChild, isZombie]
      funext q
      rw [movedView]
      by_cases same : q = p
      · subst q
        simp [passedView, none_exited]
      · simp [passedView, none_exited, same]
  · refine ⟨table, levels, if_neg child, ready, Levels.Grows.refl _, ?_⟩
    have none_exited : ¬ ZombieChild table.view curproc [p] := by
      simp [ZombieChild, child]
    funext q
    by_cases same : q = p
    · subst q
      have unchanged : (table.view p).adopt curproc initproc = table.view p :=
        Proc.adopt_eq_self _ _ _ child
      simp [passedView, none_exited, unchanged]
    · simp [passedView, none_exited, same]

private theorem passedView_parent (view : ProcId → Proc) {curproc : ProcId}
    {initproc : Option ProcId} (different : initproc ≠ some curproc)
    (p q : ProcId) :
    (passedView view curproc initproc [p] q).parent = some curproc ↔
      q ≠ p ∧ (view q).parent = some curproc := by
  have parent : (passedView view curproc initproc [p] q).parent =
      (if q = p then (view q).adopt curproc initproc else view q).parent := by
    simp only [passedView, List.mem_singleton]
    by_cases exited : ZombieChild view curproc [p]
    · rw [if_pos exited, Proc.wake_parent]
    · rw [if_neg exited]
  rw [parent]
  by_cases same : q = p
  · rw [if_pos same, Proc.adopt_parent]
    by_cases child : (view q).parent = some curproc
    · rw [if_pos child]
      simp [different, same]
    · rw [if_neg child]
      simp [child]
  · rw [if_neg same]
    simp [same]

private theorem passedView_zombie (view : ProcId → Proc) (curproc : ProcId)
    (initproc : Option ProcId) (slots : List ProcId) (q : ProcId) :
    (passedView view curproc initproc slots q).state = .zombie ↔
      (view q).state = .zombie := by
  unfold passedView
  split <;> split <;> simp

private theorem zombieChild_cons (view : ProcId → Proc) (curproc : ProcId)
    {initproc : Option ProcId} (different : initproc ≠ some curproc)
    (p : ProcId) (slots : List ProcId) :
    ZombieChild view curproc (p :: slots) ↔
      ZombieChild view curproc [p] ∨
        ZombieChild (passedView view curproc initproc [p]) curproc slots := by
  unfold ZombieChild
  simp only [passedView_parent view different, passedView_zombie,
    List.mem_cons, List.not_mem_nil, or_false]
  constructor
  · rintro ⟨q, here | later, child, isZombie⟩
    · exact .inl ⟨q, here, child, isZombie⟩
    · by_cases same : q = p
      · exact .inl ⟨q, same, child, isZombie⟩
      · exact .inr ⟨q, later, ⟨same, child⟩, isZombie⟩
  · rintro (⟨q, here, child, isZombie⟩ | ⟨q, later, ⟨_, child⟩, isZombie⟩)
    · exact ⟨q, .inl here, child, isZombie⟩
    · exact ⟨q, .inr later, child, isZombie⟩

/-- Going over a slot and then over others is going over all of them. -/
private theorem passedView_cons (view : ProcId → Proc) (curproc : ProcId)
    {initproc : Option ProcId} (different : initproc ≠ some curproc)
    (p : ProcId) (slots : List ProcId) :
    passedView (passedView view curproc initproc [p]) curproc initproc slots =
      passedView view curproc initproc (p :: slots) := by
  funext q
  have either := zombieChild_cons view curproc different p slots
  have base : (if q ∈ slots
        then (if q = p then (view q).adopt curproc initproc
          else view q).adopt curproc initproc
        else if q = p then (view q).adopt curproc initproc else view q) =
      if q ∈ p :: slots then (view q).adopt curproc initproc
        else view q := by
    by_cases later : q ∈ slots <;> by_cases same : q = p <;>
      simp [later, same, Proc.adopt_adopt _ _ _ different]
  by_cases first : ZombieChild view curproc [p]
  · have whole : ZombieChild view curproc (p :: slots) :=
      either.mpr (.inl first)
    have woken : passedView view curproc initproc (p :: slots) q =
        (if q ∈ p :: slots then (view q).adopt curproc initproc
          else view q).wake (initproc.map .proc) := by
      simp only [passedView, whole, if_true]
    rw [woken, ← base]
    unfold passedView
    simp only [first, if_true, List.mem_singleton]
    split <;> split <;> simp [Proc.adopt_wake]
  · have same : ZombieChild view curproc (p :: slots) ↔
        ZombieChild (passedView view curproc initproc [p]) curproc slots := by
      simpa [first] using either
    have unchanged : passedView view curproc initproc [p] q =
        if q = p then (view q).adopt curproc initproc else view q := by
      simp only [passedView, first, if_false, List.mem_singleton]
    simp only [passedView.eq_1 (passedView view curproc initproc [p]),
      unchanged, base]
    simp only [passedView, same]

private theorem pass_fold {curproc : ProcId} {initproc : Option ProcId}
    (different : initproc ≠ some curproc) :
    ∀ (slots : List ProcId) {table : PTable} {levels : Levels ProcId},
      Ready table levels →
      ∃ result grown,
        slots.foldlM (PTable.passChild curproc initproc) table = .ok result ∧
        Ready result grown ∧ Levels.Grows levels grown ∧
        result.view = passedView table.view curproc initproc slots := by
  intro slots
  induction slots with
  | nil =>
      intro table levels ready
      refine ⟨table, levels, rfl, ready, Levels.Grows.refl _, ?_⟩
      funext q
      simp [passedView, ZombieChild]
  | cons p slots induction =>
      intro table levels ready
      obtain ⟨middle, grown, first, middleReady, grows, views⟩ :=
        ready.passChild curproc initproc p
      obtain ⟨result, final, rest, resultReady, growsFurther, restViews⟩ :=
        induction middleReady
      refine ⟨result, final, ?_, resultReady, grows.trans growsFurther, ?_⟩
      · rw [List.foldlM_cons, first]
        exact rest
      · rw [restViews, views, passedView_cons _ _ different]

/-- The critical section of `exit`. -/
theorem exit (ready : Ready table levels) {initproc : Option ProcId}
    (isRunning : (table.proc p).state = .running)
    (different : initproc ≠ some p) :
    ∃ result grown, table.exit p initproc = .ok result ∧
      Ready result grown ∧ Levels.Grows levels grown ∧
      result.view = exitView table.view p initproc := by
  obtain ⟨woken, wokenLevels, wakes, wokenReady, wokenGrows, wokenViews⟩ :=
    ready.wakeup1 ((table.proc p).parent.map .proc)
  obtain ⟨passed, passedLevels, passes, passedReady, passedGrows,
    passedViews⟩ := pass_fold different (List.finRange nproc) wokenReady
  have stillRunning : (passed.view p).state = .running := by
    have asleep : (table.view p).state ≠ .sleeping := by
      simp [isRunning]
    rw [passedViews, wokenViews]
    unfold passedView
    simp only [List.mem_finRange, if_true, Proc.wake_eq_self _ _ asleep]
    split
    · rw [Proc.wake_eq_self]
      · simp [isRunning]
      · simp [isRunning]
    · simp [isRunning]
  have notRunnable : (passed.proc p).state ≠ .runnable := by
    rw [← PTable.view_state, stillRunning]
    decide
  refine ⟨passed.update p fun entry => { entry with state := .zombie },
    passedLevels, ?_, ?_, wokenGrows.trans passedGrows, ?_⟩
  · unfold PTable.exit PTable.passChildren
    rw [wakes]
    change ((List.finRange nproc).foldlM (PTable.passChild p initproc)
      woken).bind _ = _
    rw [passes]
    rfl
  · exact passedReady.update_waiting (fun _ => rfl) notRunnable (by simp)
      (passedReady.bounded p)
  · rw [PTable.view_update]
    · rw [passedViews, wokenViews]
      rfl
    · intro entry
      rfl

end Ready

/-! ## `yield`, `sleep` and `allocproc` -/

theorem loweredPriority_eq {priority : Nat} (low : priority < nprio) :
    PTable.loweredPriority priority =
      if priority = nprio - 1 then priority else priority + 1 := by
  unfold PTable.loweredPriority
  have small : nprio < 2 ^ 32 := by decide
  split
  · exact uintAdd_of_lt (by omega)
  · exact uintAdd_of_lt (by omega)

theorem loweredPriority_lt {priority : Nat} (low : priority < nprio) :
    PTable.loweredPriority priority < nprio := by
  rw [loweredPriority_eq low]
  split <;> omega

namespace Ready

variable {table : PTable} {levels : Levels ProcId} {p : ProcId}

/-- The critical section of `yield`. -/
theorem yield (ready : Ready table levels)
    (isRunning : (table.proc p).state = .running) :
    ∃ result, table.yield p = .ok result ∧
      Ready result
        (levels.push (PTable.loweredPriority (table.proc p).priority) p) ∧
      result.view = Function.update table.view p
        { table.view p with
          priority := PTable.loweredPriority (table.proc p).priority
          ticksRunning := 0
          state := .runnable } := by
  have waiting : (table.proc p).state ≠ .runnable := by
    rw [isRunning]
    decide
  let lower : Proc → Proc := fun entry =>
    { entry with
      priority := PTable.loweredPriority entry.priority
      ticksRunning := 0 }
  have lowered : Ready (table.update p lower) levels :=
    ready.update_waiting (fun _ => rfl) waiting waiting
      (loweredPriority_lt (ready.bounded p))
  have entry : (table.update p lower).proc p = lower (table.proc p) := by
    simp [PTable.update]
  have stillWaiting : ((table.update p lower).proc p).state ≠ .runnable := by
    rw [entry]
    exact waiting
  obtain ⟨result, success, still, views⟩ := lowered.enqueue stillWaiting
  refine ⟨result, success, ?_, ?_⟩
  · rw [entry] at still
    exact still
  · have loweredView : (table.update p lower).view =
        Function.update table.view p (lower (table.view p)) :=
      PTable.view_update _ _ (fun _ => rfl)
    rw [views, loweredView]
    simp [lower]

theorem sleep (ready : Ready table levels) (chan : Chan)
    (waiting : (table.proc p).state ≠ .runnable) :
    Ready (table.sleep p chan) levels :=
  ready.update_waiting (fun _ => rfl) waiting (by simp) (ready.bounded p)

end Ready

theorem PTable.view_sleep (table : PTable) (p : ProcId) (chan : Chan) :
    (table.sleep p chan).view = Function.update table.view p
      { table.view p with chan := some chan, state := .sleeping } :=
  table.view_update p fun _ => rfl

theorem freeSlot_unused {table : PTable} {p : ProcId}
    (found : table.freeSlot = some p) : (table.proc p).state = .unused := by
  simpa using List.find?_some found

/-- The critical section of `allocproc`: all slots are taken, or it takes the
first unused one. -/
theorem allocproc_eq {table : PTable} {nextpid : Int}
    {found : Option (ProcId × PTable × Int)}
    (success : table.allocproc nextpid = .ok found) :
    (found = none ∧ table.freeSlot = none) ∨
      ∃ p, table.freeSlot = some p ∧ nextpid < intMax ∧
        found = some (p,
          table.update p fun entry =>
            { entry with state := .embryo, pid := nextpid, priority := 0 },
          nextpid + 1) := by
  unfold PTable.allocproc at success
  cases slot : table.freeSlot with
  | none =>
      simp only [slot] at success
      cases success
      exact .inl ⟨rfl, rfl⟩
  | some p =>
      simp only [slot] at success
      obtain ⟨next, incremented, stored⟩ := ok_of_bind success
      cases stored
      unfold PTable.increment at incremented
      split at incremented
      · rename_i small
        cases incremented
        exact .inr ⟨p, rfl, small, rfl⟩
      · cases incremented

namespace Ready

variable {table : PTable} {levels : Levels ProcId} {p : ProcId}

theorem allocproc (ready : Ready table levels)
    (slot : table.freeSlot = some p) (nextpid : Int) :
    Ready (table.update p fun entry =>
      { entry with state := .embryo, pid := nextpid, priority := 0 })
      levels := by
  have waiting : (table.proc p).state ≠ .runnable := by
    rw [freeSlot_unused slot]
    decide
  exact ready.update_waiting (fun _ => rfl) waiting (by simp) nprio_pos

end Ready

/-! ## `wait` -/

/-- How a scan of `wait` ends: it reaps the first exited child and returns its
`pid`; or there is none, and it returns -1 because the caller has no child or
is killed; or it puts the caller to sleep. -/
inductive WaitEnds (table : PTable) (curproc : ProcId) :
    PTable.WaitResult → PTable → Prop where
  | reaped (child : ProcId)
      (found : table.zombieChild curproc = some child) :
      WaitEnds table curproc (.returned (table.proc child).pid)
        (table.reap child)
  | failed
      (nothing : table.zombieChild curproc = none)
      (reason : (∀ q, (table.proc q).parent ≠ some curproc) ∨
        (table.proc curproc).killed = true) :
      WaitEnds table curproc (.returned (-1)) table
  | sleeps
      (nothing : table.zombieChild curproc = none) :
      WaitEnds table curproc .sleeping
        (table.sleep curproc (.proc curproc))

theorem zombieChild_some {table : PTable} {curproc child : ProcId}
    (found : table.zombieChild curproc = some child) :
    (table.proc child).parent = some curproc ∧
      (table.proc child).state = .zombie := by
  simpa using List.find?_some found

theorem zombieChild_none {table : PTable} {curproc : ProcId}
    (nothing : table.zombieChild curproc = none) (q : ProcId)
    (isChild : (table.proc q).parent = some curproc) :
    (table.proc q).state ≠ .zombie := by
  intro exited
  simp only [PTable.zombieChild, List.find?_eq_none,
    decide_eq_true_eq] at nothing
  exact nothing q (List.mem_finRange q) ⟨isChild, exited⟩

/-- A scan stops at the first exited child. -/
private theorem waitScan_some {table : PTable} {curproc child : ProcId} :
    ∀ {slots : List ProcId} {havekids : Bool},
      (slots.find? fun q => (table.proc q).parent = some curproc ∧
        (table.proc q).state = .zombie) = some child →
      table.waitScan curproc slots havekids =
        (.returned (table.proc child).pid, table.reap child) := by
  intro slots
  induction slots with
  | nil =>
      intro havekids found
      cases found
  | cons p slots induction =>
      intro havekids found
      unfold PTable.waitScan
      by_cases isChild : (table.proc p).parent = some curproc
      · rw [if_neg (not_not.mpr isChild)]
        by_cases exited : (table.proc p).state = .zombie
        · have same : p = child := by
            simpa [isChild, exited] using found
          rw [if_pos exited, same]
        · rw [if_neg exited]
          exact induction (by simpa [isChild, exited] using found)
      · rw [if_pos isChild]
        exact induction (by simpa [isChild] using found)

/-- A scan without an exited child goes over all slots and knows whether it
has seen a child. -/
private theorem waitScan_none {table : PTable} {curproc : ProcId} :
    ∀ {slots : List ProcId} {havekids : Bool},
      (slots.find? fun q => (table.proc q).parent = some curproc ∧
        (table.proc q).state = .zombie) = none →
      table.waitScan curproc slots havekids =
        table.waitScan curproc [] (havekids ||
          slots.any fun q => (table.proc q).parent = some curproc) := by
  intro slots
  induction slots with
  | nil =>
      intro havekids _
      simp
  | cons p slots induction =>
      intro havekids nothing
      conv_lhs => unfold PTable.waitScan
      by_cases isChild : (table.proc p).parent = some curproc
      · have alive : (table.proc p).state ≠ .zombie := by
          intro exited
          simp [isChild, exited] at nothing
        rw [if_neg (not_not.mpr isChild), if_neg alive,
          induction (by simpa [isChild, alive] using nothing)]
        simp [isChild]
      · rw [if_pos isChild,
          induction (by simpa [isChild] using nothing)]
        simp [isChild]

theorem wait_ends (table : PTable) (curproc : ProcId) :
    WaitEnds table curproc (table.wait curproc).1 (table.wait curproc).2 := by
  unfold PTable.wait
  cases found : table.zombieChild curproc with
  | some child =>
      rw [waitScan_some found]
      exact .reaped child found
  | none =>
      rw [waitScan_none found, PTable.waitScan]
      split
      · rename_i done
        refine .failed found ?_
        rcases done with childless | killed
        · left
          intro q isChild
          have none_seen : ∀ q, (table.proc q).parent ≠ some curproc := by
            simpa using childless
          exact none_seen q isChild
        · exact .inr killed
      · exact .sleeps found

theorem PTable.view_reap (table : PTable) (p : ProcId) :
    (table.reap p).view = Function.update table.view p
      { table.view p with
        pid := 0
        parent := none
        killed := false
        state := .unused } :=
  table.view_update p fun _ => rfl

namespace Ready

variable {table : PTable} {levels : Levels ProcId} {p : ProcId}

theorem reap (ready : Ready table levels)
    (exited : (table.proc p).state = .zombie) :
    Ready (table.reap p) levels :=
  ready.update_waiting (fun _ => rfl) (by simp [exited]) (by simp)
    (ready.bounded p)

end Ready

/-! ## `kill` -/

/-- The slot in which `kill` finds a `pid`. -/
def killTarget (table : PTable) (pid : Int) : Option ProcId :=
  (List.finRange nproc).find? fun p => (table.proc p).pid = pid

/-- What `kill` does to the process it finds. -/
def Proc.markKilled (process : Proc) : Proc :=
  if process.state = .sleeping then
    { process with killed := true, state := .runnable }
  else { process with killed := true }

section MarkKilled

variable (process : Proc)

@[simp] theorem Proc.markKilled_pid :
    process.markKilled.pid = process.pid := by
  unfold Proc.markKilled
  split <;> rfl

@[simp] theorem Proc.markKilled_parent :
    process.markKilled.parent = process.parent := by
  unfold Proc.markKilled
  split <;> rfl

@[simp] theorem Proc.markKilled_chan :
    process.markKilled.chan = process.chan := by
  unfold Proc.markKilled
  split <;> rfl

@[simp] theorem Proc.markKilled_priority :
    process.markKilled.priority = process.priority := by
  unfold Proc.markKilled
  split <;> rfl

@[simp] theorem Proc.markKilled_ticksRunning :
    process.markKilled.ticksRunning = process.ticksRunning := by
  unfold Proc.markKilled
  split <;> rfl

end MarkKilled

private theorem killScan_none {table : PTable} {pid : Int} :
    ∀ {slots : List ProcId},
      (slots.find? fun p => (table.proc p).pid = pid) = none →
      table.killScan pid slots = .ok (-1, table) := by
  intro slots
  induction slots with
  | nil =>
      intro _
      rfl
  | cons p slots induction =>
      intro nothing
      by_cases here : (table.proc p).pid = pid
      · simp [here] at nothing
      · unfold PTable.killScan
        rw [if_neg here]
        exact induction (by simpa [here] using nothing)

private theorem killScan_some {table : PTable} {pid : Int} {target : ProcId} :
    ∀ {slots : List ProcId},
      (slots.find? fun p => (table.proc p).pid = pid) = some target →
      table.killScan pid slots = table.killScan pid [target] := by
  intro slots
  induction slots with
  | nil => simp
  | cons p slots induction =>
      intro found
      by_cases here : (table.proc p).pid = pid
      · have same : p = target := by simpa [here] using found
        subst target
        unfold PTable.killScan
        rw [if_pos here, if_pos here]
      · rw [PTable.killScan, if_neg here]
        exact induction (by simpa [here] using found)

namespace Ready

variable {table : PTable} {levels : Levels ProcId} {pid : Int}

/-- `kill` marks the first slot with the `pid` and returns 0, or returns -1
when there is none. -/
theorem kill (ready : Ready table levels) (pid : Int) :
    ∃ value result grown, table.kill pid = .ok (value, result) ∧
      Ready result grown ∧ Levels.Grows levels grown ∧
      match killTarget table pid with
      | none => value = -1 ∧ result = table
      | some p => value = 0 ∧ (table.proc p).pid = pid ∧
          result.view = Function.update table.view p
            (table.view p).markKilled := by
  cases target : killTarget table pid with
  | none =>
      exact ⟨-1, table, levels, killScan_none target, ready,
        Levels.Grows.refl _, rfl, rfl⟩
  | some p =>
      have found : (table.proc p).pid = pid := by
        simpa using List.find?_some target
      let mark : Proc → Proc := fun entry => { entry with killed := true }
      have marked : Ready (table.update p mark) levels :=
        ready.update_same (fun _ => rfl) (fun _ => rfl) (fun _ => rfl)
      have entry : (table.update p mark).proc p = mark (table.proc p) := by
        simp [PTable.update]
      have markedView : (table.update p mark).view =
          Function.update table.view p (mark (table.view p)) :=
        PTable.view_update _ _ (fun _ => rfl)
      have unfolded : table.kill pid =
          if ((table.update p mark).proc p).state = .sleeping then
            ((table.update p mark).enqueue p).bind
              fun result => .ok (0, result)
          else .ok (0, table.update p mark) := by
        unfold PTable.kill
        rw [killScan_some target, PTable.killScan, if_pos found]
        rfl
      have state : ((table.update p mark).proc p).state =
          (table.proc p).state := by
        rw [entry]
      by_cases asleep : (table.proc p).state = .sleeping
      · have waiting : ((table.update p mark).proc p).state ≠ .runnable := by
          rw [state, asleep]
          decide
        obtain ⟨result, success, still, views⟩ := marked.enqueue waiting
        refine ⟨0, result, _, ?_, still, Levels.grows_push _ _ _, rfl,
          found, ?_⟩
        · rw [unfolded, state, if_pos asleep, success]
          rfl
        · rw [views, markedView]
          simp [mark, Proc.markKilled, asleep]
      · refine ⟨0, table.update p mark, levels, ?_, marked,
          Levels.Grows.refl _, rfl, found, ?_⟩
        · rw [unfolded, state, if_neg asleep]
        · rw [markedView]
          simp [mark, Proc.markKilled, asleep]

end Ready

end Xv6
