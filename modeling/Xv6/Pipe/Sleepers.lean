import Xv6.Pipe.Steps
import Mathlib.Data.Fintype.Basic

/-!
# Who sleeps on a pipe

A reader sleeps because the pipe is empty, a writer because it is full.  While
the holder of the lock changes that, it owes the sleepers a `wakeup`.  There
is one way out of `pipewrite` that does not pay: a writer that fills the
buffer, finds that it was killed and returns at once leaves the readers asleep
that waited for its bytes.
-/

namespace Xv6.Pipe

open Lib

variable {Process : Type}

/-- What a sleeper on a channel waits for has not happened: the pipe is empty
and can be written, or it is full and can be read. -/
def Calm (pipe : Pipe) : Channel → Prop
  | .nread => pipe.Empty ∧ pipe.writeopen = true
  | .nwrite => pipe.Full ∧ pipe.readopen = true

/-- When the lock is free, nobody sleeps without a reason. -/
def NobodyStuck (m : Machine Process) : Prop :=
  m.lock = none → ∀ p chan, (m.control p).chan = some chan →
    Calm m.pipe chan

namespace Control

/-- The channel of a process that has given up the lock in order to sleep. -/
def waits : Control → Option Channel
  | .schedWrite _ | .asleepWrite _ => some .nwrite
  | .schedRead _ | .asleepRead _ => some .nread
  | _ => none

/-- The channel of a process that is about to call `sleep`. -/
def sleepsOn : Control → Option Channel
  | .sleepWrite _ => some .nwrite
  | .sleepRead _ => some .nread
  | _ => none

/-- The holder of the lock has changed the pipe since it last woke up the
sleepers on a channel, or will wake them up in any case. -/
def Owes : Control → Channel → Prop
  | .write _ fresh, .nread => 0 < fresh
  | .sleepWrite _, .nread => True
  | .copy _ got, .nwrite => got ≠ []
  | _, _ => False

/-- A writer that has bytes left. -/
def unfinished : Control → Bool
  | .write (_ :: _) _ => true
  | _ => false

/-- The bytes that a writer has stored since it took the lock. -/
def fresh : Control → Nat
  | .write _ fresh => fresh
  | _ => 0

theorem waits_of_chan {control : Control} {chan : Channel}
    (asleep : control.chan = some chan) : control.waits = some chan := by
  cases control <;> first | exact asleep | cases asleep

theorem waits_woken {control : Control} {chan : Channel}
    (waits : control.woken.waits = some chan) :
    control.waits = some chan ∧ control.chan = none := by
  cases control <;> first | exact ⟨waits, rfl⟩ | cases waits

theorem sleepsOn_woken (control : Control) :
    control.woken.sleepsOn = control.sleepsOn := by
  cases control <;> rfl

theorem locked_of_sleepsOn {control : Control} {chan : Channel}
    (sleeps : control.sleepsOn = some chan) : control.locked = true := by
  cases control <;> first | rfl | cases sleeps

/-- Who waits is asleep or on the last step there. -/
theorem asleep_of_waits {control : Control} {chan : Channel}
    (waits : control.waits = some chan) (passed : control.scheds = false) :
    control.chan = some chan := by
  cases control <;> first | exact waits | cases passed

end Control

/-- The next piece of the process leaves `pipewrite` before its last byte. -/
def GivesUp (m : Machine Process) (p : Process) : Prop :=
  (m.control p).unfinished = true ∧ m.pipe.Full ∧
    (m.pipe.readopen = false ∨ m.killed p = true)

/-- A writer that gives up has stored nothing since it took the lock, or
nobody waits for bytes. -/
def Announces (m : Machine Process) : Action Process → Prop
  | .run p =>
      GivesUp m p →
        (m.control p).fresh = 0 ∨ ∀ q, (m.control q).waits ≠ some .nread
  | _ => True

instance (m : Machine Process) (p : Process) : Decidable (GivesUp m p) :=
  inferInstanceAs (Decidable (_ ∧ _))

instance [Fintype Process] (m : Machine Process) :
    (action : Action Process) → Decidable (Announces m action)
  | .run _ => inferInstanceAs (Decidable (_ → _))
  | .pipewrite _ _ | .piperead _ _ | .pipeclose _ _ | .kill _ =>
      inferInstanceAs (Decidable True)

/-- Who waits has a reason to, or is going to be woken up by the holder of
the lock; who goes to sleep has a reason to. -/
structure Attentive (m : Machine Process) : Prop where
  exclusive : Exclusive m
  waits : ∀ p chan, (m.control p).waits = some chan →
    Calm m.pipe chan ∨ ∃ q, m.lock = some q ∧ (m.control q).Owes chan
  sleeps : ∀ p chan, (m.control p).sleepsOn = some chan → Calm m.pipe chan

namespace Attentive

variable {m after : Machine Process} {p q : Process} {chan : Channel}

theorem nobodyStuck (attentive : Attentive m) : NobodyStuck m := by
  intro free p chan asleep
  rcases attentive.waits p chan (Control.waits_of_chan asleep) with
    calm | ⟨q, holder, _⟩
  · exact calm
  · simp [free] at holder

theorem holder (attentive : Attentive m)
    (locked : (m.control p).locked = true) : m.lock = some p :=
  (attentive.exclusive.lock p).mp locked

/-- With the lock held by `p`, only `p` can owe. -/
theorem waits_holder (attentive : Attentive m) (holder : m.lock = some p)
    (waits : (m.control q).waits = some chan) :
    Calm m.pipe chan ∨ (m.control p).Owes chan := by
  rcases attentive.waits q chan waits with calm | ⟨r, other, owes⟩
  · exact .inl calm
  · rw [holder, Option.some.injEq] at other
    rw [← other] at owes
    exact .inr owes

theorem sleeps_holder (attentive : Attentive m) (holder : m.lock = some p)
    (other : q ≠ p) : (m.control q).sleepsOn = none := by
  cases sleeps : (m.control q).sleepsOn with
  | none => rfl
  | some chan =>
      have locked := Control.locked_of_sleepsOn sleeps
      rw [attentive.exclusive.not_locked holder other] at locked
      cases locked

end Attentive

theorem Alone.waits {m after : Machine Process} {p q : Process}
    {chan : Channel} (alone : Alone p m after) (other : q ≠ p)
    (waits : (after.control q).waits = some chan) :
    (m.control q).waits = some chan := by
  rcases alone q other with same | woken
  · rw [← same]
    exact waits
  · rw [woken] at waits
    exact (Control.waits_woken waits).1

theorem Alone.sleepsOn {m after : Machine Process} {p q : Process}
    (alone : Alone p m after) (other : q ≠ p) :
    (after.control q).sleepsOn = (m.control q).sleepsOn := by
  rcases alone q other with same | woken
  · rw [same]
  · rw [woken, Control.sleepsOn_woken]

namespace Attentive

variable [DecidableEq Process] {m after : Machine Process} {p q : Process}
  {chan : Channel}

omit [DecidableEq Process] in
/-- A step without a lock, or of a process that keeps its place. -/
theorem quiet (attentive : Attentive m) (alone : Alone p m after)
    (exclusive : Exclusive after) (pipe : after.pipe = m.pipe)
    (lock : after.lock = m.lock)
    (own : (m.control p).locked = true → after.control p = m.control p)
    (waits : ∀ chan, (after.control p).waits = some chan →
      (m.control p).waits = some chan)
    (awake : (m.control p).locked = false →
      (after.control p).sleepsOn = none) :
    Attentive after := by
  refine ⟨exclusive, ?_, ?_⟩
  · intro q chan waiting
    have before : (m.control q).waits = some chan := by
      by_cases same : q = p
      · rw [same] at waiting ⊢
        exact waits chan waiting
      · exact alone.waits same waiting
    rw [pipe, lock]
    rcases attentive.waits q chan before with calm | ⟨r, holder, owes⟩
    · exact .inl calm
    · refine .inr ⟨r, holder, ?_⟩
      have locked := (attentive.exclusive.lock r).mpr holder
      by_cases same : r = p
      · rw [same] at locked owes ⊢
        rw [own locked]
        exact owes
      · rcases alone r same with stays | woken
        · rw [stays]
          exact owes
        · rw [woken, Control.woken_of_locked locked]
          exact owes
  · intro q chan sleeps
    rw [pipe]
    by_cases same : q = p
    · rw [same] at sleeps
      cases locked : (m.control p).locked with
      | true =>
          rw [own locked] at sleeps
          exact attentive.sleeps p chan sleeps
      | false =>
          rw [awake locked] at sleeps
          cases sleeps
    · rw [alone.sleepsOn same] at sleeps
      exact attentive.sleeps q chan sleeps

omit [DecidableEq Process] in
/-- A step of the holder of the lock.  Everybody who still waits afterwards
has a reason to, or the holder owes a `wakeup`. -/
theorem hold (attentive : Attentive m) (alone : Alone p m after)
    (exclusive : Exclusive after) (locked : (m.control p).locked = true)
    (others : ∀ q chan, q ≠ p → (after.control q).waits = some chan →
      Calm m.pipe chan ∨ (m.control p).Owes chan →
      Calm after.pipe chan ∨
        ∃ r, after.lock = some r ∧ (after.control r).Owes chan)
    (own : ∀ chan, (after.control p).waits = some chan →
      Calm after.pipe chan)
    (sleeps : ∀ chan, (after.control p).sleepsOn = some chan →
      Calm after.pipe chan) :
    Attentive after := by
  have holder := attentive.holder locked
  refine ⟨exclusive, ?_, ?_⟩
  · intro q chan waiting
    by_cases same : q = p
    · rw [same] at waiting
      exact .inl (own chan waiting)
    · have before := alone.waits same waiting
      exact others q chan same waiting
        (attentive.waits_holder holder before)
  · intro q chan sleeping
    by_cases same : q = p
    · rw [same] at sleeping
      exact sleeps chan sleeping
    · rw [alone.sleepsOn same, attentive.sleeps_holder holder same]
        at sleeping
      cases sleeping

omit [DecidableEq Process] in
/-- A step of the holder of the lock that does not bring it to sleep. -/
theorem goOn (attentive : Attentive m) (alone : Alone p m after)
    (exclusive : Exclusive after) (locked : (m.control p).locked = true)
    (others : ∀ q chan, q ≠ p → (after.control q).waits = some chan →
      Calm m.pipe chan ∨ (m.control p).Owes chan →
      Calm after.pipe chan ∨
        ∃ r, after.lock = some r ∧ (after.control r).Owes chan)
    (awake : (after.control p).waits = none ∧
      (after.control p).sleepsOn = none) :
    Attentive after := by
  refine attentive.hold alone exclusive locked others ?_ ?_
  · intro chan waits
    rw [awake.1] at waits
    cases waits
  · intro chan sleeps
    rw [awake.2] at sleeps
    cases sleeps

omit [DecidableEq Process] in
/-- Who waits while the holder owes nothing keeps its reason. -/
theorem still (nothing : ∀ chan, ¬ (m.control p).Owes chan) (q : Process)
    (chan : Channel) (_ : q ≠ p) (_ : (after.control q).waits = some chan)
    (reason : Calm m.pipe chan ∨ (m.control p).Owes chan) :
    Calm m.pipe chan ∨
      ∃ r, after.lock = some r ∧ (after.control r).Owes chan :=
  .inl (reason.resolve_right (nothing chan))

/-- Nobody waits on a channel behind `wakeup`. -/
theorem waits_wakeup (attentive : Attentive m) (free : m.ptable = none)
    (other : q ≠ p) {control : Control} :
    (((m.wakeup chan).setControl p control).control q).waits ≠ some chan := by
  rw [Machine.setControl_of_ne _ other]
  intro waits
  rcases m.wakeup_control q chan with ⟨same, awake⟩ | ⟨woken, asleep⟩
  · rw [same] at waits
    exact awake (Control.asleep_of_waits waits
      (attentive.exclusive.not_scheds free q))
  · rw [woken] at waits
    rw [(Control.waits_woken waits).2] at asleep
    cases asleep

/-- Who still waits behind the `wakeup` that the holder owed keeps its
reason. -/
theorem paid {control : Control} (attentive : Attentive m)
    (free : m.ptable = none)
    (debts : ∀ other, (m.control p).Owes other → other = chan)
    (moved : after.control = ((m.wakeup chan).setControl p control).control)
    (q : Process) (waited : Channel) (other : q ≠ p)
    (waits : (after.control q).waits = some waited)
    (reason : Calm m.pipe waited ∨ (m.control p).Owes waited) :
    Calm m.pipe waited ∨
      ∃ r, after.lock = some r ∧ (after.control r).Owes waited := by
  refine .inl (reason.resolve_right fun owes => ?_)
  rw [moved, debts waited owes] at waits
  exact attentive.waits_wakeup free other waits

end Attentive

section Step

variable [DecidableEq Process] {m after : Machine Process} {p q : Process}
  {chan : Channel}

/-- Every step of a process that announces its bytes keeps the sleepers
attentive. -/
theorem Effect.attentive {action : Action Process}
    (effect : Effect m action after) (announces : Announces m action)
    (attentive : Attentive m) : Attentive after := by
  have exclusive := effect.exclusive attentive.exclusive
  cases effect with
  | call idle starts =>
      refine attentive.quiet (Alone.setControl rfl) exclusive rfl rfl ?_ ?_ ?_
      · intro locked
        simp [idle, Control.locked] at locked
      · intro chan waits
        cases starts <;> simp [Control.waits] at waits
      · intro _
        cases starts <;> simp [Control.sleepsOn]
  | @kill p free =>
      refine attentive.quiet (Alone.setControl rfl) exclusive rfl rfl
        (p := p) ?_ ?_ ?_
      · intro locked
        simp [Machine.kill, Control.woken_of_locked locked]
      · intro chan waits
        simp only [Machine.kill, Machine.setControl_self] at waits
        exact (Control.waits_woken waits).1
      · intro free
        simp only [Machine.kill, Machine.setControl_self,
          Control.sleepsOn_woken]
        cases sleeps : (m.control p).sleepsOn with
        | none => rfl
        | some chan =>
            rw [Control.locked_of_sleepsOn sleeps] at free
            cases free
  | @acquire p control entered place enters free =>
      have calm : ∀ q chan, (m.control q).waits = some chan →
          Calm m.pipe chan := by
        intro q chan waits
        rcases attentive.waits q chan waits with calm | ⟨r, holder, _⟩
        · exact calm
        · simp [free] at holder
      refine ⟨exclusive, ?_, ?_⟩
      · intro q chan waits
        by_cases same : q = p
        · rw [same] at waits
          cases enters <;> simp [Control.waits] at waits
        · have before := (Alone.setControl rfl).waits same waits
          exact .inl (calm q chan before)
      · intro q chan sleeps
        by_cases same : q = p
        · rw [same] at sleeps
          cases enters <;> simp [Control.sleepsOn] at sleeps
        · rw [(Alone.setControl rfl).sleepsOn same] at sleeps
          exact attentive.sleeps q chan sleeps
  | fallAsleep place falls =>
      refine attentive.quiet (Alone.setControl rfl) exclusive rfl rfl ?_ ?_ ?_
      · intro locked
        rw [place] at locked
        cases falls <;> cases locked
      · intro chan waits
        rw [place]
        cases falls <;>
          simpa [Machine.sched, Control.waits] using waits
      · intro _
        cases falls <;> simp [Machine.sched, Control.sleepsOn]
  | @store p byte rest fresh place room =>
      have holder : m.lock = some p := attentive.holder (by rw [place]; rfl)
      refine attentive.goOn (Alone.setControl rfl) exclusive
        (by rw [place]; rfl) ?_ ?_
      · intro q chan _ _ reason
        cases chan with
        | nread =>
            refine .inr ⟨p, holder, ?_⟩
            simp [Control.Owes]
        | nwrite =>
            rcases reason with calm | owes
            · exact absurd calm.1 room
            · rw [place] at owes
              exact owes.elim
      · simp [Control.waits, Control.sleepsOn]
  | @giveUpWrite p byte rest fresh place full stop =>
      refine attentive.goOn (Alone.setControl rfl) exclusive
        (by rw [place]; rfl) ?_ ?_
      · intro q chan other waits reason
        refine .inl (reason.resolve_right ?_)
        intro owes
        rw [place] at owes
        cases chan with
        | nread =>
            have givesUp : GivesUp m p := by
              refine ⟨?_, full, stop⟩
              rw [place]
              rfl
            rcases announces givesUp with none | nobody
            · rw [place] at none
              exact absurd none (Nat.ne_of_gt owes)
            · exact nobody q ((Alone.setControl rfl).waits other waits)
        | nwrite => exact owes
      · simp [Machine.release, Control.waits, Control.sleepsOn]
  | @waitWrite p byte rest fresh place full readable =>
      have holder : m.lock = some p := attentive.holder (by rw [place]; rfl)
      refine attentive.hold (Alone.setControl rfl) exclusive
        (by rw [place]; rfl) ?_ ?_ ?_
      · intro q chan _ _ reason
        cases chan with
        | nread =>
            refine .inr ⟨p, holder, ?_⟩
            simp [Control.Owes]
        | nwrite =>
            refine .inl (reason.resolve_right ?_)
            rw [place]
            exact id
      · simp [Control.waits]
      · simp [Control.sleepsOn, Calm, full, readable]
  | written place free =>
      refine attentive.goOn (Alone.wakeup rfl) exclusive
        (by rw [place]; rfl) (attentive.paid free ?_ rfl) ?_
      · rw [place]
        rintro ⟨⟩ <;> simp [Control.Owes]
      · simp [Machine.release, Control.waits, Control.sleepsOn]
  | sleepWrite place free =>
      have calm := attentive.sleeps _ .nwrite (by rw [place]; rfl)
      refine attentive.hold (Alone.wakeup rfl) exclusive
        (by rw [place]; rfl) (attentive.paid free ?_ rfl) ?_ ?_
      · rw [place]
        rintro ⟨⟩ <;> simp [Control.Owes]
      · simpa [Machine.sleep, Machine.wakeup, Control.waits] using calm
      · simp [Machine.sleep, Control.sleepsOn]
  | giveUpRead place | startCopy place =>
      refine attentive.goOn (Alone.setControl rfl) exclusive
        (by rw [place]; rfl) (Attentive.still ?_) ?_
      · rw [place]
        rintro ⟨⟩ <;> exact id
      · simp [Machine.release, Control.waits, Control.sleepsOn]
  | waitRead place empty writable =>
      refine attentive.hold (Alone.setControl rfl) exclusive
        (by rw [place]; rfl) (Attentive.still ?_) ?_ ?_
      · rw [place]
        rintro ⟨⟩ <;> exact id
      · simp [Control.waits]
      · simp [Control.sleepsOn, Calm, empty, writable]
  | sleepRead place free =>
      have calm := attentive.sleeps _ .nread (by rw [place]; rfl)
      refine attentive.hold (Alone.setControl rfl) exclusive
        (by rw [place]; rfl) (Attentive.still ?_) ?_ ?_
      · rw [place]
        rintro ⟨⟩ <;> exact id
      · simpa [Machine.sleep, Control.waits] using calm
      · simp [Machine.sleep, Control.sleepsOn]
  | @copy p n got place more =>
      have holder : m.lock = some p := attentive.holder (by rw [place]; rfl)
      refine attentive.goOn (Alone.setControl rfl) exclusive
        (by rw [place]; rfl) ?_ ?_
      · intro q chan _ _ reason
        cases chan with
        | nread =>
            rcases reason with calm | owes
            · exact absurd (.inr calm.1) more
            · rw [place] at owes
              exact owes.elim
        | nwrite =>
            refine .inr ⟨p, holder, ?_⟩
            simp [Control.Owes]
      · simp [Control.waits, Control.sleepsOn]
  | copied place done free =>
      refine attentive.goOn (Alone.wakeup rfl) exclusive
        (by rw [place]; rfl) (attentive.paid free ?_ rfl) ?_
      · rw [place]
        rintro ⟨⟩ <;> simp [Control.Owes]
      · simp [Machine.release, Control.waits, Control.sleepsOn]
  | @close p writable place free =>
      refine attentive.goOn (Alone.wakeup rfl) exclusive
        (by rw [place]; rfl) ?_ ?_
      · intro q chan other waits reason
        have calm : Calm m.pipe chan := by
          apply reason.resolve_right
          rw [place]
          cases chan <;> exact id
        have awake : chan ≠ if writable then .nread else .nwrite := by
          intro same
          rw [same] at waits
          exact attentive.waits_wakeup free other waits
        left
        cases writable with
        | true =>
            cases chan with
            | nread => exact absurd rfl awake
            | nwrite => exact calm
        | false =>
            cases chan with
            | nread => exact calm
            | nwrite => exact absurd rfl awake
      · simp [Machine.pipeclose, Machine.release, Control.waits,
          Control.sleepsOn]

end Step

variable [DecidableEq Process] {start finish : Machine Process}
  {history : History (Machine Process) (Action Process)}

omit [DecidableEq Process] in
theorem Machine.Allocated.attentive (allocated : start.Allocated) :
    Attentive start := by
  refine ⟨⟨?_, ?_⟩, ?_, ?_⟩
  · intro p
    simp [allocated.idle p, allocated.unlocked, Control.locked]
  · intro p
    simp [allocated.idle p, allocated.unscheduled, Control.scheds]
  · intro p chan waits
    simp [allocated.idle p, Control.waits] at waits
  · intro p chan sleeps
    simp [allocated.idle p, Control.sleepsOn] at sleeps

/-- If no writer gives up with bytes that a reader waits for, nobody is ever
stuck. -/
theorem nobody_stuck (allocated : start.Allocated)
    (run : Run (system Process) start history finish)
    (announced : ∀ entry ∈ history, Announces entry.1 entry.2) :
    NobodyStuck finish := by
  have attentive : Attentive finish := by
    apply run.invariant_of_met announced allocated.attentive
    intro before action after taken announces attentive
    exact (step_effect taken).attentive announces attentive
  exact attentive.nobodyStuck

/-- A reader goes to sleep, and a writer stores a byte and wakes it up. -/
theorem nobody_stuck_one_byte :
    ∃ history finish, Run (system Bool) (.zeroed Bool) history finish ∧
      finish.control false = .acquireRead 1 ∧ NobodyStuck finish := by
  have passed : (replay Machine.next [] (.zeroed Bool)
      [.piperead false 1, .run false, .run false, .run false, .run false,
        .pipewrite true [7], .run true, .run true, .run true]).any
      (fun result => decide (
        result.2.control false = .acquireRead 1 ∧
        ∀ entry ∈ result.1, Announces entry.1 entry.2)) = true := by
    decide +kernel
  obtain ⟨history, finish, run, facts⟩ :=
    Run.of_replay Machine.step_of_next passed
  obtain ⟨woken, announced⟩ := of_decide_eq_true facts
  exact ⟨history, finish, run, woken,
    nobody_stuck Machine.zeroed_allocated run announced⟩

/-- A reader sleeps on an empty pipe.  A writer fills the pipe, is killed, and
returns without waking up the reader. -/
theorem killed_writer_strands_reader :
    ∃ history finish, Run (system Bool) (.zeroed Bool) history finish ∧
      finish.lock = none ∧ (finish.control false).chan = some .nread ∧
      finish.pipe.Full ∧ ¬ NobodyStuck finish := by
  have passed : (replay Machine.next [] (.zeroed Bool)
      ([.piperead false 1, .run false, .run false, .run false, .run false,
        .pipewrite true (List.replicate (pipeSize + 1) 0), .run true] ++
        List.replicate pipeSize (.run true) ++ [.kill true, .run true])).any
      (fun result => decide (
        result.2.lock = none ∧
        (result.2.control false).chan = some .nread ∧
        result.2.pipe.Full ∧ ¬ result.2.pipe.Empty)) = true := by
    decide +kernel
  obtain ⟨history, finish, run, facts⟩ :=
    Run.of_replay Machine.step_of_next passed
  obtain ⟨free, asleep, full, some⟩ := of_decide_eq_true facts
  refine ⟨history, finish, run, free, asleep, full, ?_⟩
  intro nobody
  exact some (nobody free false .nread asleep).1

end Xv6.Pipe
