import Xv6.Pipe.Machine

/-!
# What a step on a pipe can do

`Effect` lists the steps with their guards.  Of the processes only the one
that takes the step and those that it wakes up change.
-/

namespace Xv6.Pipe

open Lib

variable {Process : Type} [DecidableEq Process]

namespace Control

/-- The code behind `acquire`. -/
inductive Enters : Control → Control → Prop where
  | write (todo : List UInt8) : Enters (.acquireWrite todo) (.write todo 0)
  | read (n : Nat) : Enters (.acquireRead n) (.read n)
  | close (writable : Bool) : Enters (.acquireClose writable) (.close writable)

/-- The last step into sleep. -/
inductive FallsAsleep : Control → Control → Prop where
  | write (todo : List UInt8) :
      FallsAsleep (.schedWrite todo) (.asleepWrite todo)
  | read (n : Nat) : FallsAsleep (.schedRead n) (.asleepRead n)

@[simp]
theorem woken_locked (control : Control) :
    control.woken.locked = control.locked := by
  cases control <;> rfl

@[simp]
theorem woken_scheds (control : Control) :
    control.woken.scheds = control.scheds := by
  cases control <;> rfl

@[simp]
theorem woken_copied (control : Control) :
    control.woken.copied = control.copied := by
  cases control <;> rfl

theorem woken_of_locked {control : Control}
    (locked : control.locked = true) : control.woken = control := by
  cases control <;> first | rfl | cases locked

end Control

/-- The first piece of a call. -/
inductive Action.Starts (p : Process) :
    Action Process → Control → Prop where
  | pipewrite (addr : List UInt8) :
      Starts p (.pipewrite p addr) (.acquireWrite addr)
  | piperead (n : Nat) : Starts p (.piperead p n) (.acquireRead n)
  | pipeclose (writable : Bool) :
      Starts p (.pipeclose p writable) (.acquireClose writable)

namespace Machine

variable (m : Machine Process) (p q : Process) (chan : Channel)

omit [DecidableEq Process] in
/-- A process that `wakeup` looks at goes on where it is or behind `sched`. -/
theorem wakeup_control :
    (m.wakeup chan).control q = m.control q ∧
        (m.control q).chan ≠ some chan ∨
      (m.wakeup chan).control q = (m.control q).woken ∧
        (m.control q).chan = some chan := by
  by_cases sleeps : (m.control q).chan = some chan
  · right
    exact ⟨if_pos sleeps, sleeps⟩
  · left
    exact ⟨if_neg sleeps, sleeps⟩

@[simp]
theorem setControl_self (control : Control) :
    (m.setControl p control).control p = control := by
  simp [setControl]

@[simp]
theorem setControl_pipe (control : Control) :
    (m.setControl p control).pipe = m.pipe := rfl

@[simp]
theorem setControl_lock (control : Control) :
    (m.setControl p control).lock = m.lock := rfl

@[simp]
theorem setControl_ptable (control : Control) :
    (m.setControl p control).ptable = m.ptable := rfl

variable {p q} in
theorem setControl_of_ne (other : q ≠ p) (control : Control) :
    (m.setControl p control).control q = m.control q := by
  simp [setControl, other]

end Machine

/-- What a step makes of the machine. -/
inductive Effect (m : Machine Process) :
    Action Process → Machine Process → Prop where
  | call {p : Process} {action : Action Process} {control : Control}
      (idle : m.control p = .idle)
      (starts : action.Starts p control) :
      Effect m action (m.setControl p control)
  | kill {p : Process}
      (free : m.ptable = none) :
      Effect m (.kill p) (m.kill p)
  | acquire {p : Process} {control entered : Control}
      (place : m.control p = control)
      (enters : control.Enters entered)
      (free : m.lock = none) :
      Effect m (.run p) { m.setControl p entered with lock := some p }
  | fallAsleep {p : Process} {control asleep : Control}
      (place : m.control p = control)
      (falls : control.FallsAsleep asleep) :
      Effect m (.run p) (m.sched p asleep)
  | store {p : Process} {byte : UInt8} {rest : List UInt8} {fresh : Nat}
      (place : m.control p = .write (byte :: rest) fresh)
      (room : ¬ m.pipe.Full) :
      Effect m (.run p)
        { m.setControl p (.write rest (fresh + 1)) with
          pipe := m.pipe.store byte }
  | giveUpWrite {p : Process} {byte : UInt8} {rest : List UInt8} {fresh : Nat}
      (place : m.control p = .write (byte :: rest) fresh)
      (full : m.pipe.Full)
      (stop : m.pipe.readopen = false ∨ m.killed p = true) :
      Effect m (.run p) (m.release p)
  | waitWrite {p : Process} {byte : UInt8} {rest : List UInt8} {fresh : Nat}
      (place : m.control p = .write (byte :: rest) fresh)
      (full : m.pipe.Full)
      (readable : m.pipe.readopen = true) :
      Effect m (.run p) (m.setControl p (.sleepWrite (byte :: rest)))
  | written {p : Process} {fresh : Nat}
      (place : m.control p = .write [] fresh)
      (free : m.ptable = none) :
      Effect m (.run p) ((m.wakeup .nread).release p)
  | sleepWrite {p : Process} {todo : List UInt8}
      (place : m.control p = .sleepWrite todo)
      (free : m.ptable = none) :
      Effect m (.run p) ((m.wakeup .nread).sleep p (.schedWrite todo))
  | giveUpRead {p : Process} {n : Nat}
      (place : m.control p = .read n) :
      Effect m (.run p) (m.release p)
  | waitRead {p : Process} {n : Nat}
      (place : m.control p = .read n)
      (empty : m.pipe.Empty)
      (writable : m.pipe.writeopen = true) :
      Effect m (.run p) (m.setControl p (.sleepRead n))
  | startCopy {p : Process} {n : Nat}
      (place : m.control p = .read n) :
      Effect m (.run p) (m.setControl p (.copy n []))
  | sleepRead {p : Process} {n : Nat}
      (place : m.control p = .sleepRead n)
      (free : m.ptable = none) :
      Effect m (.run p) (m.sleep p (.schedRead n))
  | copy {p : Process} {n : Nat} {got : List UInt8}
      (place : m.control p = .copy n got)
      (more : ¬ (n = 0 ∨ m.pipe.Empty)) :
      Effect m (.run p)
        { m.setControl p (.copy (n - 1) (got ++ [m.pipe.front])) with
          pipe := m.pipe.advance }
  | copied {p : Process} {n : Nat} {got : List UInt8}
      (place : m.control p = .copy n got)
      (done : n = 0 ∨ m.pipe.Empty)
      (free : m.ptable = none) :
      Effect m (.run p) ((m.wakeup .nwrite).release p)
  | close {p : Process} {writable : Bool}
      (place : m.control p = .close writable)
      (free : m.ptable = none) :
      Effect m (.run p) (m.pipeclose p writable)

section Inversion

variable {m after : Machine Process} {p : Process}

private theorem acquire_effect {control entered : Control}
    (taken : m.acquire p entered = some after)
    (place : m.control p = control) (enters : control.Enters entered) :
    Effect m (.run p) after := by
  obtain ⟨free, rfl⟩ := some_of_guard taken
  exact .acquire place enters free

private theorem pipewrite_effect {todo : List UInt8} {fresh : Nat}
    (taken : m.pipewrite p todo fresh = some after)
    (place : m.control p = .write todo fresh) :
    Effect m (.run p) after := by
  cases todo with
  | nil =>
      obtain ⟨free, rfl⟩ := some_of_guard taken
      exact .written place free
  | cons byte rest =>
      simp only [Machine.pipewrite] at taken
      split at taken
      · rename_i full
        split at taken
        · rename_i stop
          cases taken
          exact .giveUpWrite place full stop
        · rename_i go
          cases taken
          apply Effect.waitWrite place full
          by_contra shut
          exact go (.inl (by simpa using shut))
      · rename_i room
        cases taken
        exact .store place room

private theorem piperead_effect {n : Nat}
    (taken : m.piperead p n = some after)
    (place : m.control p = .read n) : Effect m (.run p) after := by
  unfold Machine.piperead at taken
  split at taken
  · rename_i waits
    split at taken
    · cases taken
      exact .giveUpRead place
    · cases taken
      exact .waitRead place waits.1 waits.2
  · cases taken
    exact .startCopy place

private theorem copy_effect {n : Nat} {got : List UInt8}
    (taken : m.copy p n got = some after)
    (place : m.control p = .copy n got) : Effect m (.run p) after := by
  unfold Machine.copy at taken
  split at taken
  · rename_i done
    obtain ⟨free, rfl⟩ := some_of_guard taken
    exact .copied place done free
  · rename_i more
    cases taken
    exact .copy place more

private theorem run_effect (taken : m.run p = some after) :
    Effect m (.run p) after := by
  cases place : m.control p <;> simp only [Machine.run, place] at taken
  case acquireWrite todo => exact acquire_effect taken place (.write todo)
  case write => exact pipewrite_effect taken place
  case sleepWrite =>
    obtain ⟨free, rfl⟩ := some_of_guard taken
    exact .sleepWrite place free
  case schedWrite todo =>
    cases taken
    exact .fallAsleep place (.write todo)
  case acquireRead n => exact acquire_effect taken place (.read n)
  case read => exact piperead_effect taken place
  case copy => exact copy_effect taken place
  case sleepRead =>
    obtain ⟨free, rfl⟩ := some_of_guard taken
    exact .sleepRead place free
  case schedRead n =>
    cases taken
    exact .fallAsleep place (.read n)
  case acquireClose writable =>
    exact acquire_effect taken place (.close writable)
  case close =>
    obtain ⟨free, rfl⟩ := some_of_guard taken
    exact .close place free
  all_goals cases taken

private theorem call_effect {action : Action Process} {control : Control}
    (taken : (if m.control p = .idle then some (m.setControl p control)
      else none) = some after)
    (starts : action.Starts p control) :
    Effect m action after := by
  obtain ⟨idle, rfl⟩ := some_of_guard taken
  exact .call idle starts

/-- Every step is one of the effects. -/
theorem step_effect {action : Action Process}
    (taken : (system Process).step m action after) :
    Effect m action after := by
  change m.next action = some after at taken
  unfold Machine.next at taken
  split at taken
  · cases taken
  · cases action with
    | pipewrite p addr => exact call_effect taken (.pipewrite addr)
    | piperead p n => exact call_effect taken (.piperead n)
    | pipeclose p writable => exact call_effect taken (.pipeclose writable)
    | kill p =>
        obtain ⟨free, rfl⟩ := some_of_guard taken
        exact .kill free
    | run p => exact run_effect taken

end Inversion

/-! ## The processes that do not take the step -/

/-- Every process but `p` stays where it is, unless it is woken up. -/
def Alone (p : Process) (m after : Machine Process) : Prop :=
  ∀ q, q ≠ p → after.control q = m.control q ∨
    after.control q = (m.control q).woken

namespace Alone

variable {m after : Machine Process} {p q : Process}

theorem setControl {control : Control}
    (moved : after.control = (m.setControl p control).control) :
    Alone p m after := by
  intro q other
  left
  rw [moved, m.setControl_of_ne other]

theorem wakeup {chan : Channel} {control : Control}
    (moved : after.control = ((m.wakeup chan).setControl p control).control) :
    Alone p m after := by
  intro q other
  rw [moved, (m.wakeup chan).setControl_of_ne other]
  rcases m.wakeup_control q chan with ⟨same, _⟩ | ⟨woken, _⟩
  · exact .inl same
  · exact .inr woken

omit [DecidableEq Process]

theorem locked (alone : Alone p m after) (other : q ≠ p) :
    (after.control q).locked = (m.control q).locked := by
  rcases alone q other with same | woken
  · rw [same]
  · rw [woken, Control.woken_locked]

theorem scheds (alone : Alone p m after) (other : q ≠ p) :
    (after.control q).scheds = (m.control q).scheds := by
  rcases alone q other with same | woken
  · rw [same]
  · rw [woken, Control.woken_scheds]

theorem copied (alone : Alone p m after) (other : q ≠ p) :
    (after.control q).copied = (m.control q).copied := by
  rcases alone q other with same | woken
  · rw [same]
  · rw [woken, Control.woken_copied]

end Alone

/-! ## The locks -/

/-- Who holds a lock is at a place that holds it, and nobody else is. -/
structure Exclusive (m : Machine Process) : Prop where
  lock : ∀ p, (m.control p).locked = true ↔ m.lock = some p
  ptable : ∀ p, (m.control p).scheds = true ↔ m.ptable = some p

section Exclusive

variable {m after : Machine Process} {p q : Process}

omit [DecidableEq Process] in
theorem Exclusive.not_locked (exclusive : Exclusive m)
    (holder : m.lock = some p) (other : q ≠ p) :
    (m.control q).locked = false := by
  apply Bool.eq_false_iff.mpr
  intro locked
  have same := (exclusive.lock q).mp locked
  rw [holder, Option.some.injEq] at same
  exact other same.symm

omit [DecidableEq Process] in
theorem Exclusive.not_scheds (exclusive : Exclusive m)
    (free : m.ptable = none) (q : Process) :
    (m.control q).scheds = false := by
  apply Bool.eq_false_iff.mpr
  intro scheds
  have holder := (exclusive.ptable q).mp scheds
  simp [free] at holder

omit [DecidableEq Process] in
/-- Only the process that takes a step comes to a lock or leaves it. -/
theorem Exclusive.move (exclusive : Exclusive m) (alone : Alone p m after)
    (own : (after.control p).locked = true ↔ after.lock = some p)
    (others : ∀ q, q ≠ p → (m.lock = some q ↔ after.lock = some q))
    (ownSched : (after.control p).scheds = true ↔ after.ptable = some p)
    (otherScheds : ∀ q, q ≠ p →
      (m.ptable = some q ↔ after.ptable = some q)) :
    Exclusive after := by
  constructor
  · intro q
    by_cases same : q = p
    · rw [same]
      exact own
    · rw [alone.locked same, exclusive.lock q]
      exact others q same
  · intro q
    by_cases same : q = p
    · rw [same]
      exact ownSched
    · rw [alone.scheds same, exclusive.ptable q]
      exact otherScheds q same

omit [DecidableEq Process] in
/-- A step that neither takes nor gives up a lock. -/
theorem Exclusive.stay (exclusive : Exclusive m) (alone : Alone p m after)
    (locked : (after.control p).locked = (m.control p).locked)
    (scheds : (after.control p).scheds = (m.control p).scheds)
    (lock : after.lock = m.lock) (ptable : after.ptable = m.ptable) :
    Exclusive after := by
  apply exclusive.move alone
  · rw [locked, lock]
    exact exclusive.lock p
  · intro q _
    rw [lock]
  · rw [scheds, ptable]
    exact exclusive.ptable p
  · intro q _
    rw [ptable]

omit [DecidableEq Process] in
/-- A step that gives up the lock of the pipe. -/
theorem Exclusive.unlock (exclusive : Exclusive m) (alone : Alone p m after)
    (before : (m.control p).locked = true)
    (locked : (after.control p).locked = false)
    (scheds : (after.control p).scheds = true ↔ after.ptable = some p)
    (lock : after.lock = none)
    (ptable : ∀ q, q ≠ p → (m.ptable = some q ↔ after.ptable = some q)) :
    Exclusive after := by
  have holder := (exclusive.lock p).mp before
  refine exclusive.move alone ?_ ?_ scheds ptable
  · simp [locked, lock]
  · intro q other
    simp [holder, lock, other.symm]

omit [DecidableEq Process] in
theorem Exclusive.finish (exclusive : Exclusive m) (alone : Alone p m after)
    (before : (m.control p).locked = true)
    (idle : after.control p = .idle)
    (lock : after.lock = none) (ptable : after.ptable = m.ptable) :
    Exclusive after := by
  apply exclusive.unlock alone before
  · rw [idle]
    rfl
  · have unscheduled : m.ptable ≠ some p := by
      intro holder
      have scheds := (exclusive.ptable p).mpr holder
      cases place : m.control p <;> simp_all [Control.scheds, Control.locked]
    rw [idle, ptable]
    simp [Control.scheds, unscheduled]
  · exact lock
  · intro q _
    rw [ptable]

/-- Every step keeps the locks. -/
theorem Effect.exclusive {action : Action Process}
    (effect : Effect m action after) (exclusive : Exclusive m) :
    Exclusive after := by
  cases effect with
  | @call p _ control idle starts =>
      refine exclusive.stay (Alone.setControl rfl) ?_ ?_ rfl rfl
      · cases starts <;> simp [idle, Control.locked]
      · cases starts <;> simp [idle, Control.scheds]
  | @kill p free =>
      refine exclusive.stay (Alone.setControl rfl) ?_ ?_ rfl rfl
      · simp [Machine.kill]
      · simp [Machine.kill]
  | @acquire p control entered place enters free =>
      refine exclusive.move (Alone.setControl rfl) ?_ ?_ ?_ ?_
      · cases enters <;> simp [Control.locked]
      · intro q other
        simp [free, other.symm]
      · have same := exclusive.ptable p
        rw [place] at same
        cases enters <;> simpa [Control.scheds] using same
      · intro q _
        rfl
  | @fallAsleep p control asleep place falls =>
      have holder : m.ptable = some p := by
        apply (exclusive.ptable p).mp
        rw [place]
        cases falls <;> rfl
      refine exclusive.move (Alone.setControl rfl) ?_ ?_ ?_ ?_
      · have same := exclusive.lock p
        rw [place] at same
        cases falls <;> simpa [Control.locked, Machine.sched] using same
      · intro q _
        rfl
      · cases falls <;> simp [Control.scheds, Machine.sched]
      · intro q other
        simp [holder, other.symm, Machine.sched]
  | store place | waitWrite place | waitRead place | startCopy place
  | copy place =>
      refine exclusive.stay (Alone.setControl rfl) ?_ ?_ rfl rfl
      · simp [place, Control.locked]
      · simp [place, Control.scheds]
  | giveUpWrite place | giveUpRead place =>
      refine exclusive.finish (Alone.setControl rfl) ?_ ?_ rfl rfl
      · rw [place]
        rfl
      · simp [Machine.release]
  | written place | copied place | close place =>
      refine exclusive.finish (Alone.wakeup rfl) ?_ ?_ rfl rfl
      · rw [place]
        rfl
      · simp [Machine.pipeclose, Machine.release]
  | sleepWrite place free =>
      refine exclusive.unlock (Alone.wakeup rfl) ?_ ?_ ?_ rfl ?_
      · rw [place]
        rfl
      · simp [Machine.sleep, Control.locked]
      · simp [Machine.sleep, Control.scheds]
      · intro q other
        simp [Machine.sleep, free, other.symm]
  | sleepRead place free =>
      refine exclusive.unlock (Alone.setControl rfl) ?_ ?_ ?_ rfl ?_
      · rw [place]
        rfl
      · simp [Machine.sleep, Control.locked]
      · simp [Machine.sleep, Control.scheds]
      · intro q other
        simp [Machine.sleep, free, other.symm]

end Exclusive

end Xv6.Pipe
