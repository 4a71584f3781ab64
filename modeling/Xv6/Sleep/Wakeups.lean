import Xv6.Sleep.Machine

/-!
# No wakeup is lost

A process that has tested its condition keeps `lk` until it has `ptable.lock`,
and `ptable.lock` until it is `SLEEPING`.  A change needs the first lock and a
`wakeup` the second one, so a `wakeup` that follows the change finds every
process that tested too early.
-/

namespace Xv6.Sleep

open Lib

variable {Process Local Data Call : Type}

namespace Control

/-- The process holds `lk`. -/
def HoldsLk : Control Process Call → Prop
  | .test _ | .sleep _ | .handover _ | .wakeup _ true | .wakeup1 _ true
  | .release _ => True
  | _ => False

/-- The process holds `ptable.lock`, because of `lk` or not. -/
def HoldsPtable : Control Process Call → Prop
  | .handover _ | .sched _ | .resume _ | .wakeup1 _ _ | .kill _ => True
  | _ => False

/-- The process is on the way into `sleep`, with `lk`. -/
def Enters : Control Process Call → Prop
  | .sleep _ | .handover _ => True
  | _ => False

/-- The process sleeps, or will before it gives `ptable.lock` away. -/
def Sleeps : Control Process Call → Prop
  | .sched _ | .asleep _ => True
  | _ => False

/-- The change for which the process still has to call `wakeup`. -/
def change : Control Process Call → Option Nat
  | .wakeup change _ | .wakeup1 change _ | .release (some change) =>
      some change
  | _ => none

/-- The process will call `wakeup` before it gives `lk` away. -/
def Notifies : Control Process Call → Prop
  | .wakeup _ true | .wakeup1 _ true => True
  | _ => False

/-- The call that the process has not got through yet. -/
def pending : Control Process Call → Option Call
  | .acquire call | .test call | .sleep call | .handover call | .sched call
  | .asleep call | .runnable call | .resume call => some call
  | _ => none

section Woken

variable (control : Control Process Call)

@[simp]
theorem holdsLk_woken : control.woken.HoldsLk ↔ control.HoldsLk := by
  cases control <;> exact Iff.rfl

@[simp]
theorem holdsPtable_woken :
    control.woken.HoldsPtable ↔ control.HoldsPtable := by
  cases control <;> exact Iff.rfl

@[simp]
theorem enters_woken : control.woken.Enters ↔ control.Enters := by
  cases control <;> exact Iff.rfl

@[simp]
theorem change_woken : control.woken.change = control.change := by
  cases control <;> rfl

@[simp]
theorem notifies_woken : control.woken.Notifies ↔ control.Notifies := by
  cases control <;> exact Iff.rfl

@[simp]
theorem pending_woken : control.woken.pending = control.pending := by
  cases control <;> rfl

variable {control}

/-- After a `wakeup` nobody sleeps but those who hold `ptable.lock`. -/
theorem of_sleeps_woken (sleeps : control.woken.Sleeps) :
    control.HoldsPtable ∧ control.Sleeps := by
  cases control with
  | sched => exact ⟨trivial, trivial⟩
  | _ => exact sleeps.elim

theorem HoldsLk.of_enters (enters : control.Enters) : control.HoldsLk := by
  cases control with
  | sleep | handover => trivial
  | _ => exact enters.elim

theorem HoldsLk.of_notifies (notifies : control.Notifies) :
    control.HoldsLk := by
  cases control with
  | wakeup _ inside | wakeup1 _ inside =>
      cases inside with
      | true => trivial
      | false => exact notifies.elim
  | _ => exact notifies.elim

end Woken

/-- What the process owes, and that it is on the way into sleep, goes back to
where it was before. -/
structure Continues (control before : Control Process Call) : Prop where
  change : ∀ change, control.change = some change →
    before.change = some change
  enters : control.Enters → before.Enters
  sleeps : control.Sleeps → before.Sleeps ∨ before.Enters

theorem Continues.anew {control before : Control Process Call}
    (change : control.change = none) (enters : ¬ control.Enters)
    (sleeps : ¬ control.Sleeps) : control.Continues before where
  change _ owed := nomatch change.symm.trans owed
  enters entered := absurd entered enters
  sleeps asleep := absurd asleep sleeps

end Control

/-- `p` is `SLEEPING` on the channel. -/
def Machine.Sleeping (m : Machine Process Local Data Call) (p : Process) :
    Prop :=
  ∃ call, m.control p = .asleep call

/-- No process sleeps that made its test before a change whose `wakeup` is
over. -/
def Machine.NoneLost (m : Machine Process Local Data Call) : Prop :=
  ∀ change ∈ m.announced, ∀ p, m.Sleeping p → change ≤ m.tested p

/-- What holds of a process between any two lock operations. -/
structure Timely (client : Client Process Local Data Call)
    (m : Machine Process Local Data Call) (p : Process) : Prop where
  lk : (m.control p).HoldsLk → client.holder m = some p
  ptable : (m.control p).HoldsPtable → m.ptable = some p
  change : ∀ change, (m.control p).change = some change →
    change ≤ m.changes
  enters : (m.control p).Enters → m.tested p = m.changes
  sleeps : (m.control p).Sleeps →
    ∀ change ∈ m.announced, change ≤ m.tested p

/-- A step of `p` takes no lock away from another process. -/
structure Locks (client : Client Process Local Data Call)
    (m after : Machine Process Local Data Call) (p : Process) : Prop where
  holder : ∀ q, q ≠ p → client.holder m = some q →
    client.holder after = some q
  ptable : ∀ q, q ≠ p → m.ptable = some q → after.ptable = some q

/-- What a step of `p` leaves of the others. -/
structure Beside (client : Client Process Local Data Call)
    (m after : Machine Process Local Data Call) (p : Process) : Prop where
  locks : Locks client m after p
  control : ∀ q, q ≠ p → after.control q = m.control q ∨
    after.control q = (m.control q).woken
  tested : ∀ q, q ≠ p → after.tested q = m.tested q
  changes : after.changes = m.changes ∨
    client.holder m = some p ∧ after.changes = m.changes + 1
  announced : after.announced = m.announced ∨
    m.ptable = some p ∧
      (∀ q, q ≠ p → after.control q = (m.control q).woken) ∧
      ∃ change, change ≤ m.changes ∧
        after.announced = change :: m.announced

variable {client : Client Process Local Data Call}
  {m after : Machine Process Local Data Call} {p q : Process}

/-- What a `wakeup` leaves as it is stays for the others. -/
theorem Beside.stays {P : Control Process Call → Prop}
    (woken : ∀ control, P control.woken → P control)
    (beside : Beside client m after p) (other : q ≠ p)
    (holds : P (after.control q)) : P (m.control q) := by
  rcases beside.control q other with moved | moved <;> rw [moved] at holds
  · exact holds
  · exact woken _ holds

/-- A lock has one holder. -/
theorem ne_holder {lock : Option Process} (held : lock = some p)
    (other : q ≠ p) : lock ≠ some q := by
  rw [held, ne_eq, Option.some.injEq]
  exact other.symm

/-- Who holds `lk` while `ptable.lock` is free holds another lock. -/
theorem holder_of_free (held : client.holder m = some q)
    (free : m.ptable = none) (lock : after.lock = m.lock) :
    client.holder after = some q := by
  unfold Client.holder at held ⊢
  split at held
  · rw [free] at held
    cases held
  · rename_i distinct
    rw [if_neg distinct, lock, held]

/-- `lk` is one of the locks, and nothing else depends on it. -/
theorem Client.setHolder_eq (client : Client Process Local Data Call)
    (m : Machine Process Local Data Call) (holder : Option Process) :
    ∃ lock ptable, client.setHolder m holder =
      { m with lock := lock, ptable := ptable } := by
  unfold Client.setHolder
  split
  · exact ⟨m.lock, holder, rfl⟩
  · exact ⟨holder, m.ptable, rfl⟩

namespace Locks

theorem same (lock : after.lock = m.lock) (ptable : after.ptable = m.ptable) :
    Locks client m after p := by
  constructor
  · intro q _ holds
    rw [← holds]
    unfold Client.holder
    rw [lock, ptable]
  · intro q _ holds
    rw [ptable, holds]

theorem acquire (free : client.holder m = none)
    (ptable : after.ptable = m.ptable) :
    Locks client m (client.setHolder after (some p)) p := by
  constructor
  · intro q _ holds
    rw [free] at holds
    cases holds
  · intro q _ holds
    unfold Client.setHolder
    unfold Client.holder at free
    split
    · rename_i isPtable
      rw [if_pos isPtable, holds] at free
      cases free
    · exact ptable.trans holds

theorem release (holds : client.holder m = some p)
    (ptable : after.ptable = m.ptable) :
    Locks client m (client.setHolder after none) p := by
  constructor
  · intro q other held
    exact absurd held (ne_holder holds other)
  · intro q other held
    unfold Client.setHolder
    unfold Client.holder at holds
    split
    · rename_i isPtable
      rw [if_pos isPtable] at holds
      exact absurd held (ne_holder holds other)
    · exact ptable.trans held

theorem acquirePtable (free : m.ptable = none) (lock : after.lock = m.lock) :
    Locks client m after p := by
  constructor
  · intro q _ holds
    exact holder_of_free holds free lock
  · intro q _ holds
    rw [free] at holds
    cases holds

theorem releasePtable (held : m.ptable = some p) (lock : after.lock = m.lock) :
    Locks client m after p := by
  constructor
  · intro q other holds
    unfold Client.holder at holds ⊢
    split at holds
    · exact absurd holds (ne_holder held other)
    · rename_i distinct
      rw [if_neg distinct, lock, holds]
  · intro q other holds
    exact absurd holds (ne_holder held other)

theorem handover (held : client.holder m = some p)
    (ptable : after.ptable = m.ptable) : Locks client m after p := by
  constructor
  · intro q other holds
    exact absurd holds (ne_holder held other)
  · intro q _ holds
    rw [ptable, holds]

end Locks

variable [DecidableEq Process]

/-- A step of `p` that changes nothing of the processes but what `p` does
next. -/
structure Moves (m after : Machine Process Local Data Call) (p : Process)
    (control : Control Process Call) : Prop where
  control : after.control = Function.update m.control p control
  tested : after.tested = m.tested
  changes : after.changes = m.changes
  announced : after.announced = m.announced

theorem Moves.setHolder {holder : Option Process}
    (control : Control Process Call) (moved : Moves m after p control) :
    Moves m (client.setHolder after holder) p control := by
  obtain ⟨lock, ptable, same⟩ := client.setHolder_eq after holder
  rw [same]
  exact ⟨moved.control, moved.tested, moved.changes, moved.announced⟩

theorem Moves.beside {control : Control Process Call}
    (moved : Moves m after p control) (locks : Locks client m after p) :
    Beside client m after p where
  locks := locks
  control q other := by
    left
    rw [moved.control, Function.update_of_ne other]
  tested q _ := by rw [moved.tested]
  changes := .inl moved.changes
  announced := .inl moved.announced

/-- `kill` wakes up the process or does nothing. -/
theorem Machine.kill_eq (m : Machine Process Local Data Call)
    (target : Option Process) :
    ∃ control, m.kill target = { m with control := control } ∧
      ∀ q, control q = m.control q ∨ control q = (m.control q).woken := by
  cases target with
  | none => exact ⟨m.control, rfl, fun _ => .inl rfl⟩
  | some target =>
      refine ⟨_, rfl, fun q => ?_⟩
      by_cases same : q = target
      · right
        rw [same]
        exact Function.update_self target _ _
      · exact .inl (Function.update_of_ne same _ _)

namespace Timely

omit [DecidableEq Process] in
theorem eq_holder (timely : Timely client m q)
    (holds : (m.control q).HoldsLk) (held : client.holder m = some p) :
    q = p := by
  have own := timely.lk holds
  rw [held, Option.some.injEq] at own
  exact own.symm

omit [DecidableEq Process] in
/-- The others keep what holds of them. -/
theorem beside (timely : Timely client m q)
    (beside : Beside client m after p) (other : q ≠ p) :
    Timely client after q := by
  have tested := beside.tested q other
  constructor
  · intro holds
    apply beside.locks.holder q other
    apply timely.lk
    exact beside.stays (fun _ => (Control.holdsLk_woken _).mp) other holds
  · intro holds
    apply beside.locks.ptable q other
    apply timely.ptable
    exact beside.stays (fun _ => (Control.holdsPtable_woken _).mp) other holds
  · intro change owed
    have early : change ≤ m.changes := by
      apply timely.change
      exact beside.stays (P := (·.change = some change))
        (fun _ => by rw [Control.change_woken]; exact id) other owed
    rcases beside.changes with same | ⟨_, more⟩ <;> omega
  · intro enters
    have entered : (m.control q).Enters :=
      beside.stays (fun _ => (Control.enters_woken _).mp) other enters
    rcases beside.changes with same | ⟨held, _⟩
    · rw [tested, same, timely.enters entered]
    · exact absurd (timely.eq_holder (.of_enters entered) held) other
  · intro sleeps
    rcases beside.announced with same | ⟨held, woken, _⟩
    · rw [same, tested]
      apply timely.sleeps
      exact beside.stays (fun _ => (Control.of_sleeps_woken · |>.2)) other
        sleeps
    · rw [woken q other] at sleeps
      have own := timely.ptable (Control.of_sleeps_woken sleeps).1
      exact absurd own (ne_holder held other)

end Timely

/-- The numbers of the changes are not used before their time. -/
structure Sound (client : Client Process Local Data Call)
    (m : Machine Process Local Data Call) : Prop where
  timely : ∀ p, Timely client m p
  announced : ∀ change ∈ m.announced, change ≤ m.changes

theorem Sound.beside (sound : Sound client m)
    (beside : Beside client m after p) (own : Timely client after p) :
    Sound client after where
  timely q := by
    by_cases same : q = p
    · rw [same]
      exact own
    · exact (sound.timely q).beside beside same
  announced := by
    intro change announced
    have changes : m.changes ≤ after.changes := by
      rcases beside.changes with same | ⟨_, more⟩ <;> omega
    rcases beside.announced with same | ⟨_, _, last, early, more⟩
    · rw [same] at announced
      exact Nat.le_trans (sound.announced change announced) changes
    · rw [more, List.mem_cons] at announced
      rcases announced with rfl | announced
      · exact Nat.le_trans early changes
      · exact Nat.le_trans (sound.announced change announced) changes

namespace Client

omit [DecidableEq Process]

theorem leave_holdsPtable {call : Call} {number : Nat}
    (holds : (client.leave call number).HoldsPtable) :
    client.holder m = m.ptable := by
  unfold Client.leave at holds
  split at holds
  · exact holds.elim
  · split at holds
    · rename_i isPtable
      exact if_pos isPtable
    · exact holds.elim
  · exact holds.elim

theorem leave_change {call : Call} {number change : Nat}
    (owed : (client.leave call number).change = some change) :
    change = number ∧ client.notice call ≠ .never := by
  unfold Client.leave at owed
  split at owed
  · cases owed
  · rename_i notice
    rw [notice]
    split at owed <;> exact ⟨(Option.some.inj owed).symm, by decide⟩
  · rename_i notice
    rw [notice]
    exact ⟨(Option.some.inj owed).symm, by decide⟩

variable (client) in
theorem leave_awake (call : Call) (number : Nat) :
    ¬ (client.leave call number).Enters ∧
      ¬ (client.leave call number).Sleeps := by
  unfold Client.leave
  split
  · exact ⟨id, id⟩
  · split <;> exact ⟨id, id⟩
  · exact ⟨id, id⟩

variable (client) (m) (holder : Option Process)

@[simp]
theorem holder_setHolder :
    client.holder (client.setHolder m holder) = holder := by
  unfold Client.setHolder
  split <;> rename_i isPtable <;> simp [Client.holder, isPtable]

end Client

omit [DecidableEq Process] in
/-- The process that takes the step, when it does not sleep afterwards. -/
theorem Timely.moved {control : Control Process Call}
    (place : after.control p = control)
    (lk : control.HoldsLk → client.holder after = some p)
    (ptable : control.HoldsPtable → after.ptable = some p)
    (change : ∀ change, control.change = some change →
      change ≤ after.changes)
    (awake : ¬ control.Enters ∧ ¬ control.Sleeps) :
    Timely client after p := by
  constructor
  · rw [place]
    exact lk
  · rw [place]
    exact ptable
  · rw [place]
    exact change
  · rw [place]
    intro enters
    exact absurd enters awake.1
  · rw [place]
    intro sleeps
    exact absurd sleeps awake.2

namespace Sound

/-- One step of a process that neither changes the condition nor has just
finished a `wakeup`. -/
theorem move {control : Control Process Call} (sound : Sound client m)
    (locks : Locks client m after p)
    (moved : Moves m after p control)
    (lk : control.HoldsLk → client.holder after = some p)
    (ptable : control.HoldsPtable → after.ptable = some p)
    (continues : control.Continues (m.control p)) :
    Sound client after := by
  have place : after.control p = control := by
    rw [moved.control, Function.update_self]
  have timely := sound.timely p
  apply sound.beside (moved.beside locks)
  constructor
  · rw [place]
    exact lk
  · rw [place]
    exact ptable
  · intro number owed
    rw [place] at owed
    rw [moved.changes]
    exact timely.change number (continues.change number owed)
  · intro entered
    rw [place] at entered
    rw [moved.tested, moved.changes]
    exact timely.enters (continues.enters entered)
  · intro asleep number old
    rw [place] at asleep
    rw [moved.announced] at old
    rw [moved.tested]
    rcases continues.sleeps asleep with asleep | entered
    · exact timely.sleeps asleep number old
    · rw [timely.enters entered]
      exact sound.announced number old

theorem wait {call : Call} (sound : Sound client m)
    (place : m.control p = .test call) :
    Sound client (client.wait m p call) := by
  have held := (sound.timely p).lk (by rw [place]; trivial)
  have beside : Beside client m (client.wait m p call) p := by
    refine ⟨.same rfl rfl, ?_, ?_, .inl rfl, .inl rfl⟩
    · intro q other
      exact .inl (Function.update_of_ne other _ _)
    · intro q other
      exact Function.update_of_ne other _ _
  have tested : (client.wait m p call).tested p = m.changes :=
    Function.update_self p _ _
  have moved : (client.wait m p call).control p =
      if client.lkIsPtable then .sched call else .sleep call :=
    Function.update_self p _ _
  apply sound.beside beside
  cases isPtable : client.lkIsPtable with
  | false =>
      rw [isPtable] at moved
      constructor
      · intro _
        exact held
      · rw [moved]
        exact False.elim
      · rw [moved]
        exact fun _ owed => nomatch owed
      · intro _
        exact tested
      · rw [moved]
        exact False.elim
  | true =>
      rw [isPtable] at moved
      constructor
      · rw [moved]
        exact False.elim
      · intro _
        unfold Client.holder at held
        rw [isPtable] at held
        exact held
      · rw [moved]
        exact fun _ owed => nomatch owed
      · rw [moved]
        exact False.elim
      · intro _ number old
        rw [tested]
        exact sound.announced number old

theorem change {call : Call} {own : Local} {data : Data}
    (sound : Sound client m) (place : m.control p = .test call) :
    Sound client (client.change m p call own data) := by
  have held := (sound.timely p).lk (by rw [place]; trivial)
  apply sound.beside (p := p)
  · refine ⟨.same rfl rfl, ?_, fun _ _ => rfl, ?_, .inl rfl⟩
    · intro q other
      exact .inl (Function.update_of_ne other _ _)
    · by_cases never : client.notice call = .never
      · exact .inl (if_pos never)
      · exact .inr ⟨held, if_neg never⟩
  · apply Timely.moved (Function.update_self p _ _)
    · exact fun _ => held
    · intro holds
      exact (client.leave_holdsPtable holds).symm.trans held
    · intro number owed
      obtain ⟨last, notice⟩ := client.leave_change owed
      exact Nat.le_of_eq (last.trans (if_neg notice).symm)
    · exact client.leave_awake call _

theorem wakeup1 {number : Nat} {inside : Bool} (sound : Sound client m)
    (place : m.control p = .wakeup1 number inside)
    (taken : client.run m p = some after) : Sound client after := by
  have timely := sound.timely p
  have scheduling := timely.ptable (by rw [place]; trivial)
  have owed := timely.change number (by rw [place]; rfl)
  simp only [Client.run, place] at taken
  cases taken
  apply sound.beside (p := p)
  · refine ⟨?_, ?_, fun _ _ => rfl, .inl rfl, .inr ⟨scheduling, ?_, ?_⟩⟩
    · exact .releasePtable scheduling rfl
    · intro q other
      exact .inr (Function.update_of_ne other _ _)
    · intro q other
      exact Function.update_of_ne other _ _
    · exact ⟨number, owed, rfl⟩
  · apply Timely.moved (Function.update_self p _ _)
    · intro holds
      cases inside with
      | false => exact holds.elim
      | true =>
          have held := timely.lk (by rw [place]; trivial)
          unfold Client.holder at held ⊢
          cases isPtable : client.lkIsPtable with
          | false =>
              rw [isPtable] at held
              exact held
          | true => exact scheduling
    · cases inside <;> exact False.elim
    · cases inside <;> exact fun _ owed => nomatch owed
    · cases inside <;> exact ⟨id, id⟩

theorem run (sound : Sound client m) (taken : client.run m p = some after) :
    Sound client after := by
  have timely := sound.timely p
  have step := taken
  cases place : m.control p <;> simp only [Client.run, place] at taken
  case idle | asleep => cases taken
  case acquire call =>
    obtain ⟨free, rfl⟩ := some_of_guard taken
    exact sound.move (.acquire free rfl)
      (.setHolder (.test call) ⟨rfl, rfl, rfl, rfl⟩)
      (fun _ => client.holder_setHolder _ _) False.elim (.anew rfl id id)
  case test call =>
    split at taken <;> cases taken
    · exact sound.wait place
    · exact sound.change place
  case sleep call =>
    have held := timely.lk (by rw [place]; trivial)
    obtain ⟨free, rfl⟩ := some_of_guard taken
    refine sound.move (.acquirePtable free rfl) ⟨rfl, rfl, rfl, rfl⟩
      (fun _ => holder_of_free held free rfl) (fun _ => rfl) ?_
    rw [place]
    exact ⟨fun _ owed => owed, id, False.elim⟩
  case handover call =>
    have held := timely.lk (by rw [place]; trivial)
    have scheduling := timely.ptable (by rw [place]; trivial)
    cases taken
    refine sound.move (.handover held rfl) ⟨rfl, rfl, rfl, rfl⟩
      False.elim (fun _ => scheduling) ?_
    rw [place]
    exact ⟨fun _ owed => owed, False.elim, fun _ => .inr trivial⟩
  case sched call =>
    have scheduling := timely.ptable (by rw [place]; trivial)
    cases taken
    refine sound.move (.releasePtable scheduling rfl) ⟨rfl, rfl, rfl, rfl⟩
      False.elim False.elim ?_
    rw [place]
    exact ⟨fun _ owed => owed, False.elim, fun _ => .inl trivial⟩
  case runnable call =>
    obtain ⟨free, rfl⟩ := some_of_guard taken
    exact sound.move (.acquirePtable free rfl) ⟨rfl, rfl, rfl, rfl⟩
      False.elim (fun _ => rfl) (.anew rfl id id)
  case resume call =>
    have scheduling := timely.ptable (by rw [place]; trivial)
    split at taken <;> cases taken
    · rename_i isPtable
      exact sound.move (.same rfl rfl) ⟨rfl, rfl, rfl, rfl⟩
        (fun _ => (if_pos isPtable).trans scheduling) False.elim
        (.anew rfl id id)
    · exact sound.move (.releasePtable scheduling rfl) ⟨rfl, rfl, rfl, rfl⟩
        False.elim False.elim (.anew rfl id id)
  case wakeup number inside =>
    obtain ⟨free, rfl⟩ := some_of_guard taken
    refine sound.move (.acquirePtable free rfl) ⟨rfl, rfl, rfl, rfl⟩
      ?_ (fun _ => rfl) ?_
    · intro holds
      refine holder_of_free (timely.lk ?_) free rfl
      rw [place]
      cases inside with
      | true => trivial
      | false => exact holds
    · rw [place]
      exact ⟨fun _ owed => owed, False.elim, False.elim⟩
  case wakeup1 number inside =>
    exact sound.wakeup1 place step
  case release number =>
    have held := timely.lk (by rw [place]; trivial)
    cases number <;> cases taken
    · exact sound.move (.release held rfl)
        (.setHolder .idle ⟨rfl, rfl, rfl, rfl⟩) False.elim False.elim
        (.anew rfl id id)
    · refine sound.move (.release held rfl)
        (.setHolder (.wakeup _ false) ⟨rfl, rfl, rfl, rfl⟩) False.elim
        False.elim ?_
      rw [place]
      exact ⟨fun _ owed => owed, False.elim, False.elim⟩
  case kill target =>
    have scheduling := timely.ptable (by rw [place]; trivial)
    obtain ⟨control, killed, woken⟩ := m.kill_eq target
    rw [killed] at taken
    cases taken
    apply sound.beside (p := p)
    · refine ⟨.releasePtable scheduling rfl, fun q other => ?_,
        fun _ _ => rfl, .inl rfl, .inl rfl⟩
      have same := Function.update_of_ne other .idle control
      exact (woken q).imp same.trans same.trans
    · exact Timely.moved (Function.update_self p _ _) False.elim False.elim
        (fun _ owed => nomatch owed) ⟨id, id⟩

theorem next {action : Action Process Call} (sound : Sound client m)
    (taken : client.next m action = some after) : Sound client after := by
  cases action with
  | call p call =>
      obtain ⟨_, rfl⟩ := some_of_guard taken
      exact sound.move (.same rfl rfl) ⟨rfl, rfl, rfl, rfl⟩ False.elim
        False.elim (.anew rfl id id)
  | kill p target =>
      obtain ⟨guard, rfl⟩ := some_of_guard taken
      exact sound.move (.acquirePtable guard.2 rfl) ⟨rfl, rfl, rfl, rfl⟩
        False.elim (fun _ => rfl) (.anew rfl id id)
  | run p => exact sound.run taken

omit [DecidableEq Process] in
theorem start (started : m.Started) : Sound client m where
  timely p := by
    apply Timely.moved (started.idle p)
    · exact False.elim
    · exact False.elim
    · exact fun _ owed => nomatch owed
    · exact ⟨id, id⟩
  announced change old := by
    rw [started.announced] at old
    cases old

omit [DecidableEq Process] in
theorem noneLost (sound : Sound client m) : m.NoneLost := by
  intro change old p sleeping
  obtain ⟨call, asleep⟩ := sleeping
  apply (sound.timely p).sleeps _ change old
  rw [asleep]
  trivial

end Sound

/-- What `Sound` says holds in every state that is reached. -/
theorem sound_of_run {start : Machine Process Local Data Call}
    {history : History (Machine Process Local Data Call) (Action Process Call)}
    (started : start.Started) (run : Run client.system start history m) :
    Sound client m :=
  run.invariant (.start started) fun taken sound => sound.next taken

end Xv6.Sleep
