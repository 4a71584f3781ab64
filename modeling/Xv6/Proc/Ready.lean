import Xv6.Proc.Queues

/-!
# Tables whose queues hold the runnable processes

`Ready` strengthens `Queues`: a process is queued exactly when it is
`RUNNABLE`.  Every operation has one specification.  From a ready table it
does not fault, it leaves a ready table, it says how the lists change, and it
says what becomes of the view of every process.
-/

namespace Xv6

open Lib

/-- The queues hold exactly the `RUNNABLE` processes. -/
structure Ready (table : PTable) (levels : Levels ProcId) : Prop extends
    Queues table levels where
  runnable : ∀ p, (table.proc p).state = .runnable ↔
    p ∈ levels (table.proc p).priority

namespace Ready

variable {table result : PTable} {levels : Levels ProcId} {p : ProcId}

theorem zero : Ready .zero fun _ => [] :=
  { queues_zero with
    runnable := by
      intro p
      simp [PTable.zero] }

theorem absent (ready : Ready table levels)
    (waiting : (table.proc p).state ≠ .runnable) :
    p ∉ levels (table.proc p).priority :=
  fun member => waiting ((ready.runnable p).mpr member)

theorem mem_order (ready : Ready table levels) :
    p ∈ Levels.order nprio levels ↔ (table.proc p).state = .runnable := by
  rw [ready.toQueues.mem_order, ready.runnable]

/-- Assignments to a process that is not queued and stays so. -/
theorem update_waiting (ready : Ready table levels) {assign : Proc → Proc}
    (links : ∀ entry, (assign entry).nextProc = entry.nextProc)
    (waiting : (table.proc p).state ≠ .runnable)
    (stays : (assign (table.proc p)).state ≠ .runnable)
    (priority : (assign (table.proc p)).priority < nprio) :
    Ready (table.update p assign) levels := by
  refine { ready.toQueues.update_absent (ready.absent waiting) links
    priority with runnable := ?_ }
  intro q
  by_cases same : q = p
  · subst q
    have notQueued : p ∉ levels (assign (table.proc p)).priority :=
      fun member =>
        ready.absent waiting (ready.toQueues.mem_iff.mp member).2
    simp [PTable.update, stays, notQueued]
  · simpa [PTable.update, same] using ready.runnable q

/-- Assignments that concern neither the queues nor the state. -/
theorem update_same (ready : Ready table levels) {assign : Proc → Proc}
    (links : ∀ entry, (assign entry).nextProc = entry.nextProc)
    (states : ∀ entry, (assign entry).state = entry.state)
    (priorities : ∀ entry, (assign entry).priority = entry.priority) :
    Ready (table.update p assign) levels := by
  refine { ready.toQueues.update links priorities with runnable := ?_ }
  intro q
  by_cases same : q = p
  · subst q
    simpa [PTable.update, states, priorities] using ready.runnable p
  · simpa [PTable.update, same] using ready.runnable q

/-! ## Queue operations -/

theorem enqueue (ready : Ready table levels)
    (waiting : (table.proc p).state ≠ .runnable) :
    ∃ result, table.enqueue p = .ok result ∧
      Ready result (levels.push (table.proc p).priority p) ∧
      result.view = Function.update table.view p
        { table.view p with state := .runnable } := by
  obtain ⟨result, success, queues, views⟩ :=
    enqueue_refines ready.toQueues (ready.absent waiting)
  refine ⟨result, success, { queues with runnable := ?_ }, views⟩
  intro q
  have view := congrFun views q
  by_cases same : q = p
  · subst q
    rw [Function.update_self] at view
    have state : (result.proc p).state = .runnable := by
      simpa using congrArg Proc.state view
    have priority : (result.proc p).priority = (table.proc p).priority := by
      simpa using congrArg Proc.priority view
    simp [state, priority, Levels.push]
  · rw [Function.update_of_ne same] at view
    have state : (result.proc q).state = (table.proc q).state := by
      simpa using congrArg Proc.state view
    have priority : (result.proc q).priority = (table.proc q).priority := by
      simpa using congrArg Proc.priority view
    rw [state, priority, ready.runnable q]
    by_cases level : (table.proc q).priority = (table.proc p).priority
    · simp [Levels.push, level, same]
    · simp [Levels.push, level]

theorem priorityBoost (ready : Ready table levels) :
    ∃ result, table.priorityBoost = .ok result ∧
      Ready result (levels.collapse nprio) ∧
      result.view = fun q => { table.view q with priority := 0 } := by
  obtain ⟨result, success, queues, views⟩ :=
    priorityBoost_refines ready.toQueues
  refine ⟨result, success, { queues with runnable := ?_ }, views⟩
  intro q
  have view := congrFun views q
  have state : (result.proc q).state = (table.proc q).state := by
    simpa using congrArg Proc.state view
  have priority : (result.proc q).priority = 0 := by
    simpa using congrArg Proc.priority view
  rw [state, priority]
  simp only [Levels.collapse, if_pos]
  exact ready.mem_order.symm

/-- The loop over the levels finds the head of the first non-empty list. -/
private theorem nextToRun_eq (ready : Ready table levels) :
    ∀ {remaining level : Nat}, level + remaining = nprio →
      (table.nextToRun remaining level = none ∧
        ∀ index, level ≤ index → index < nprio → levels index = []) ∨
      ∃ p index rest, table.nextToRun remaining level = some p ∧
        level ≤ index ∧ index < nprio ∧ levels index = p :: rest ∧
        ∀ smaller, level ≤ smaller → smaller < index →
          levels smaller = [] := by
  intro remaining
  induction remaining with
  | zero =>
      intro level total
      exact .inl ⟨rfl, fun index lower upper => by omega⟩
  | succ remaining induction =>
      intro level total
      have queue := ready.queue level (by omega)
      unfold PTable.nextToRun
      cases nodes : levels level with
      | nil =>
          rw [queue.first_eq_none_iff.mpr nodes]
          rcases @induction (level + 1) (by omega) with
            ⟨nothing, empty⟩ | ⟨p, index, rest, found, lower, upper, head,
              empty⟩
          · refine .inl ⟨nothing, ?_⟩
            intro index lower upper
            by_cases same : index = level
            · rw [same, nodes]
            · exact empty index (by omega) upper
          · refine .inr ⟨p, index, rest, found, by omega, upper, head, ?_⟩
            intro smaller smallerLower smallerUpper
            by_cases same : smaller = level
            · rw [same, nodes]
            · exact empty smaller (by omega) smallerUpper
      | cons p rest =>
          have first : table.queueFirst level = some p := by
            rw [queue.first_eq, nodes]
            rfl
          rw [first]
          refine .inr ⟨p, level, rest, rfl, Nat.le_refl _, by omega, nodes, ?_⟩
          intro smaller smallerLower smallerUpper
          omega

/-- With nothing to choose from, no process is runnable. -/
theorem chosen_none (ready : Ready table levels)
    (nothing : table.chosen = none) (p : ProcId) :
    (table.proc p).state ≠ .runnable := by
  intro isRunnable
  have member := (ready.runnable p).mp isRunnable
  rcases nextToRun_eq ready (Nat.zero_add nprio) with
    ⟨_, empty⟩ | ⟨q, _, _, found, _⟩
  · rw [empty _ (Nat.zero_le _) (ready.bounded p)] at member
    simp at member
  · have impossible : some q = none := found.symm.trans nothing
    simp at impossible

/-- The scheduler chooses the head of the first non-empty list. -/
theorem chosen_some (ready : Ready table levels)
    (found : table.chosen = some p) :
    ∃ rest, levels (table.proc p).priority = p :: rest ∧
      ∀ smaller < (table.proc p).priority, levels smaller = [] := by
  rcases nextToRun_eq ready (Nat.zero_add nprio) with
    ⟨nothing, _⟩ | ⟨q, level, rest, found', _, upper, head, empty⟩
  · have impossible : some p = none := found.symm.trans nothing
    simp at impossible
  · have same : q = p := Option.some.inj (found'.symm.trans found)
    subst q
    have level_eq : (table.proc p).priority = level :=
      ready.priority level upper p (by simp [head])
    rw [level_eq]
    exact ⟨rest, head, fun smaller below =>
      empty smaller (Nat.zero_le _) below⟩

theorem chosen_runnable (ready : Ready table levels)
    (found : table.chosen = some p) :
    (table.proc p).state = .runnable := by
  obtain ⟨rest, head, _⟩ := ready.chosen_some found
  rw [ready.runnable, head]
  simp

/-- Dispatching the chosen process takes it from the head of its list. -/
theorem dispatch (ready : Ready table levels)
    (found : table.chosen = some p) :
    ∃ result rest, table.dispatch p = .ok result ∧
      levels (table.proc p).priority = p :: rest ∧
      Ready result
        (Function.update levels (table.proc p).priority rest) ∧
      result.view = Function.update table.view p
        { table.view p with state := .running } := by
  obtain ⟨rest, head, _⟩ := ready.chosen_some found
  have member : p ∈ levels (table.proc p).priority := by simp [head]
  obtain ⟨removed, success, queues, views⟩ :=
    dequeue_refines ready.toQueues member
  have nodup := (ready.queue _ (ready.bounded p)).nodup
  rw [head] at nodup
  have restEq : levels.remove (table.proc p).priority p =
      Function.update levels (table.proc p).priority rest := by
    unfold Levels.remove
    rw [head]
    simp
  rw [restEq] at queues
  refine ⟨removed.update p fun entry => { entry with state := .running },
    rest, ?_, head, ?_, ?_⟩
  · unfold PTable.dispatch
    rw [success]
    rfl
  · have updated : Queues
        (removed.update p fun entry => { entry with state := .running })
        (Function.update levels (table.proc p).priority rest) :=
      queues.update (fun _ => rfl) (fun _ => rfl)
    refine { updated with runnable := ?_ }
    intro q
    have view := congrFun views q
    have state : (removed.proc q).state = (table.proc q).state := by
      simpa using congrArg Proc.state view
    have priority : (removed.proc q).priority = (table.proc q).priority := by
      simpa using congrArg Proc.priority view
    by_cases same : q = p
    · subst q
      simp [PTable.update, priority, (List.nodup_cons.mp nodup).1]
    · simp only [PTable.update, ne_eq, same, not_false_eq_true,
        Function.update_of_ne]
      rw [state, priority, ready.runnable q]
      by_cases level : (table.proc q).priority = (table.proc p).priority
      · rw [level, head]
        simp [same]
      · simp [level]
  · rw [PTable.view_update, views]
    intro entry
    rfl

end Ready

/-! ## Waking sleepers -/

/-- What `wakeup1` does to one process. -/
def Proc.wake (process : Proc) (chan : Option Chan) : Proc :=
  if process.state = .sleeping ∧ process.chan = chan then
    { process with state := .runnable }
  else process

section Wake

variable (process : Proc) (chan : Option Chan)

theorem Proc.wake_eq_self (other : process.state ≠ .sleeping) :
    process.wake chan = process := by
  simp [Proc.wake, other]

@[simp] theorem Proc.wake_wake :
    (process.wake chan).wake chan = process.wake chan := by
  unfold Proc.wake
  split <;> simp_all

@[simp] theorem Proc.wake_parent :
    (process.wake chan).parent = process.parent := by
  unfold Proc.wake
  split <;> rfl

@[simp] theorem Proc.wake_pid : (process.wake chan).pid = process.pid := by
  unfold Proc.wake
  split <;> rfl

@[simp] theorem Proc.wake_chan : (process.wake chan).chan = process.chan := by
  unfold Proc.wake
  split <;> rfl

@[simp] theorem Proc.wake_killed :
    (process.wake chan).killed = process.killed := by
  unfold Proc.wake
  split <;> rfl

@[simp] theorem Proc.wake_priority :
    (process.wake chan).priority = process.priority := by
  unfold Proc.wake
  split <;> rfl

@[simp] theorem Proc.wake_ticksRunning :
    (process.wake chan).ticksRunning = process.ticksRunning := by
  unfold Proc.wake
  split <;> rfl

@[simp] theorem Proc.wake_context :
    (process.wake chan).context = process.context := by
  unfold Proc.wake
  split <;> rfl

/-- Waking turns some sleeping processes into runnable ones. -/
theorem Proc.wake_state :
    (process.wake chan).state = process.state ∨
      process.state = .sleeping ∧ (process.wake chan).state = .runnable := by
  unfold Proc.wake
  split
  · rename_i sleeps
    exact .inr ⟨sleeps.1, rfl⟩
  · exact .inl rfl

@[simp] theorem Proc.wake_state_zombie :
    (process.wake chan).state = .zombie ↔ process.state = .zombie := by
  unfold Proc.wake
  split <;> simp_all

end Wake

namespace Ready

variable {table : PTable} {levels : Levels ProcId} {p : ProcId}

private theorem wakeupSlot (ready : Ready table levels)
    (chan : Option Chan) (p : ProcId) :
    ∃ result grown, PTable.wakeupSlot chan table p = .ok result ∧
      Ready result grown ∧ Levels.Grows levels grown ∧
      result.view = Function.update table.view p
        ((table.view p).wake chan) := by
  unfold PTable.wakeupSlot Proc.wake
  by_cases sleeps :
      (table.proc p).state = .sleeping ∧ (table.proc p).chan = chan
  · have waiting : (table.proc p).state ≠ .runnable := by
      rw [sleeps.1]
      decide
    obtain ⟨result, success, still, views⟩ := ready.enqueue waiting
    refine ⟨result, _, ?_, still, Levels.grows_push _ _ _, ?_⟩
    · rw [if_pos sleeps]
      exact success
    · rw [views]
      simp [sleeps]
  · refine ⟨table, levels, ?_, ready, Levels.Grows.refl _, ?_⟩
    · rw [if_neg sleeps]
    · simp [sleeps]

private theorem wakeup_fold (chan : Option Chan) :
    ∀ (slots : List ProcId) {table : PTable} {levels : Levels ProcId},
      Ready table levels →
      ∃ result grown,
        slots.foldlM (PTable.wakeupSlot chan) table = .ok result ∧
        Ready result grown ∧ Levels.Grows levels grown ∧
        ∀ q, result.view q =
          if q ∈ slots then (table.view q).wake chan else table.view q := by
  intro slots
  induction slots with
  | nil =>
      intro table levels ready
      exact ⟨table, levels, rfl, ready, Levels.Grows.refl _, by simp⟩
  | cons p slots induction =>
      intro table levels ready
      obtain ⟨middle, grown, first, middleReady, grows, views⟩ :=
        ready.wakeupSlot chan p
      obtain ⟨result, final, rest, resultReady, growsFurther, restViews⟩ :=
        induction middleReady
      refine ⟨result, final, ?_, resultReady, grows.trans growsFurther, ?_⟩
      · rw [List.foldlM_cons, first]
        exact rest
      · intro q
        rw [restViews q, views]
        by_cases same : q = p
        · subst q
          by_cases again : p ∈ slots <;> simp [again]
        · simp [same]

/-- `wakeup1` wakes exactly the sleepers of the channel. -/
theorem wakeup1 (ready : Ready table levels) (chan : Option Chan) :
    ∃ result grown, table.wakeup1 chan = .ok result ∧
      Ready result grown ∧ Levels.Grows levels grown ∧
      result.view = fun q => (table.view q).wake chan := by
  obtain ⟨result, grown, success, still, grows, views⟩ :=
    wakeup_fold chan (List.finRange nproc) ready
  refine ⟨result, grown, success, still, grows, ?_⟩
  funext q
  simpa using views q

end Ready

end Xv6
