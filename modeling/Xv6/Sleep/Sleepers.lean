import Xv6.Sleep.Wakeups

/-!
# Who sleeps has a reason to

When every change that can let a waiting call through is followed by a
`wakeup` before `lk` is released, a process that sleeps while `lk` is free
would find its test failing again.  The data under `lk` are what the critical
sections make of them.
-/

namespace Xv6.Sleep

open Lib

variable {Process Local Data Call : Type}

namespace Control

/-- The call whose test has failed, until the process is woken up. -/
def waitsFor : Control Process Call → Option Call
  | .sleep call | .handover call | .sched call | .asleep call => some call
  | _ => none

theorem waitsFor_of_woken {control : Control Process Call} {call : Call}
    (waits : control.woken.waitsFor = some call) :
    control.waitsFor = some call ∧
      (control.HoldsLk ∨ control.HoldsPtable) := by
  cases control with
  | sleep => exact ⟨waits, .inl trivial⟩
  | handover => exact ⟨waits, .inl trivial⟩
  | sched => exact ⟨waits, .inr trivial⟩
  | _ => cases waits

theorem pending_of_waitsFor {control : Control Process Call} {call : Call}
    (waits : control.waitsFor = some call) : control.pending = some call := by
  cases control with
  | sleep | handover | sched | asleep => exact waits
  | _ => cases waits

/-- A step that is neither a critical section nor the end of a `wakeup`. -/
structure Quiet (before after : Control Process Call) : Prop where
  waitsFor : ∀ call, after.waitsFor = some call → before.waitsFor = some call
  pending : ∀ call, after.pending = some call → before.pending = some call
  notifies : before.Notifies → after.Notifies

theorem Quiet.refl (control : Control Process Call) : control.Quiet control :=
  ⟨fun _ => id, fun _ => id, id⟩

theorem Quiet.awake {before after : Control Process Call}
    (awake : after.waitsFor = none)
    (pending : after.pending = none ∨ after.pending = before.pending)
    (notifies : before.Notifies → after.Notifies) : before.Quiet after where
  waitsFor _ waits := nomatch awake.symm.trans waits
  pending call called := by
    rcases pending with none | same
    · exact nomatch none.symm.trans called
    · rw [← same, called]
  notifies := notifies

theorem eq_idle {control : Control Process Call} (idle : control.isIdle) :
    control = .idle := by
  cases control with
  | idle => rfl
  | _ => cases idle

theorem Quiet.woken (control : Control Process Call) :
    control.Quiet control.woken where
  waitsFor _ waits := (waitsFor_of_woken waits).1
  pending call pending := by rw [← pending_woken, pending]
  notifies := (notifies_woken control).mpr

end Control

variable [DecidableEq Process]

/-- What a step does to the data, to the calls and to those who wait. -/
inductive Outcome (client : Client Process Local Data Call)
    (m : Machine Process Local Data Call) :
    Machine Process Local Data Call → Prop where
  | call {p : Process} {call : Call} {after}
      (idle : (m.control p).isIdle)
      (permitted : client.permitted (m.locals p) call)
      (control : after.control =
        Function.update m.control p (.acquire call))
      (data : after.data = m.data) (locals : after.locals = m.locals) :
      Outcome client m after
  | quiet {after}
      (control : ∀ q, (m.control q).Quiet (after.control q))
      (data : after.data = m.data) (locals : after.locals = m.locals) :
      Outcome client m after
  | wait {p : Process} {call : Call}
      (place : m.control p = .test call)
      (blocked : client.enter p call (m.locals p) m.data = none) :
      Outcome client m (client.wait m p call)
  | change {p : Process} {call : Call} {own : Local} {data : Data}
      (place : m.control p = .test call)
      (enters : client.enter p call (m.locals p) m.data = some (own, data)) :
      Outcome client m (client.change m p call own data)
  | wakeup1 {p : Process} {number : Nat} {inside : Bool} {control} {after}
      (place : m.control p = .wakeup1 number inside)
      (controls : after.control =
        Function.update (fun q => (m.control q).woken) p control)
      (idle : control.pending = none)
      (data : after.data = m.data) (locals : after.locals = m.locals) :
      Outcome client m after

namespace Outcome

variable {client : Client Process Local Data Call}
  {m after : Machine Process Local Data Call} {p q : Process}

theorem update {others : Process → Control Process Call}
    {before control : Control Process Call} (place : m.control p = before)
    (moved : after.control = Function.update others p control)
    (quiet : before.Quiet control)
    (beside : ∀ q, (m.control q).Quiet (others q))
    (data : after.data = m.data) (locals : after.locals = m.locals) :
    Outcome client m after := by
  apply Outcome.quiet _ data locals
  intro q
  rw [moved]
  by_cases same : q = p
  · rw [same, Function.update_self, place]
    exact quiet
  · rw [Function.update_of_ne same]
    exact beside q

theorem move {before control : Control Process Call}
    (place : m.control p = before)
    (moved : after.control = Function.update m.control p control)
    (quiet : before.Quiet control)
    (data : after.data = m.data) (locals : after.locals = m.locals) :
    Outcome client m after :=
  .update place moved quiet (fun _ => .refl _) data locals

theorem setHolder {before control : Control Process Call}
    {holder : Option Process} (place : m.control p = before)
    (quiet : before.Quiet control) :
    Outcome client m (client.setHolder (m.setControl p control) holder) := by
  obtain ⟨_, _, same⟩ := client.setHolder_eq (m.setControl p control) holder
  rw [same]
  exact .move place rfl quiet rfl rfl

theorem of_run (taken : client.run m p = some after) :
    Outcome client m after := by
  cases place : m.control p <;> simp only [Client.run, place] at taken
  case idle | asleep => cases taken
  case acquire call =>
    obtain ⟨_, rfl⟩ := some_of_guard taken
    exact .setHolder place (.awake rfl (.inr rfl) id)
  case test call =>
    split at taken <;> cases taken
    · exact .wait place (by assumption)
    · exact .change place (by assumption)
  case sleep call =>
    obtain ⟨_, rfl⟩ := some_of_guard taken
    exact .move place rfl ⟨fun _ => id, fun _ => id, id⟩ rfl rfl
  case handover call | sched call =>
    cases taken
    exact .move place rfl ⟨fun _ => id, fun _ => id, id⟩ rfl rfl
  case runnable call =>
    obtain ⟨_, rfl⟩ := some_of_guard taken
    exact .move place rfl (.awake rfl (.inr rfl) id) rfl rfl
  case resume call =>
    split at taken <;> cases taken <;>
      exact .move place rfl (.awake rfl (.inr rfl) id) rfl rfl
  case wakeup number inside =>
    obtain ⟨_, rfl⟩ := some_of_guard taken
    refine .move place rfl ⟨fun _ => id, fun _ => id, ?_⟩ rfl rfl
    cases inside <;> exact id
  case wakeup1 number inside =>
    cases taken
    refine .wakeup1 place rfl ?_ rfl rfl
    cases inside <;> rfl
  case release number =>
    cases number <;> cases taken <;>
      exact .setHolder place (.awake rfl (.inl rfl) id)
  case kill target =>
    obtain ⟨control, killed, woken⟩ := m.kill_eq target
    rw [killed] at taken
    cases taken
    refine .update place rfl (.awake rfl (.inl rfl) id) (fun q => ?_) rfl rfl
    change (m.control q).Quiet (control q)
    rcases woken q with same | same <;> rw [same]
    · exact .refl _
    · exact .woken _

theorem of_next {action : Action Process Call}
    (taken : client.next m action = some after) :
    Outcome client m after := by
  cases action with
  | call p call =>
      obtain ⟨guard, rfl⟩ := some_of_guard taken
      exact .call guard.1 guard.2 rfl rfl rfl
  | kill p target =>
      obtain ⟨guard, rfl⟩ := some_of_guard taken
      exact .move (Control.eq_idle guard.1) rfl (.awake rfl (.inl rfl) id)
        rfl rfl
  | run p => exact .of_run taken

end Outcome

/-- Every change that can let a call through that has to wait is announced
before `release(lk)`. -/
structure Client.Prompt (client : Client Process Local Data Call) : Prop where
  inside : ∀ call, client.notice call ≠ .outside
  silent : ∀ {p call own data q other own' after},
    client.enter p call own data = none →
    client.enter q other own' data = some after →
    client.notice other = .never →
    client.enter p call own after.2 = none

/-- Who waits has a reason to, or is going to be woken up by the holder of
`lk`. -/
def Attentive (client : Client Process Local Data Call)
    (m : Machine Process Local Data Call) : Prop :=
  ∀ q call, (m.control q).waitsFor = some call →
    client.enter q call (m.locals q) m.data = none ∨
      ∃ r, (m.control r).Notifies

namespace Attentive

variable {client : Client Process Local Data Call}
  {m after : Machine Process Local Data Call} {p q : Process}

/-- What a step of a process that owes nothing leaves of the notices. -/
private theorem notifies_update {control : Control Process Call}
    (silent : ¬ (m.control p).Notifies) (notifies : (m.control q).Notifies) :
    (Function.update m.control p control q).Notifies := by
  have other : q ≠ p := fun same => silent (same ▸ notifies)
  rw [Function.update_of_ne other]
  exact notifies

/-- A step of a process that owes nothing, on the same data. -/
theorem step {control : Control Process Call}
    (attentive : Attentive client m) (silent : ¬ (m.control p).Notifies)
    (moved : after.control = Function.update m.control p control)
    (own : ∀ call, control.waitsFor = some call →
      client.enter p call (m.locals p) m.data = none)
    (data : after.data = m.data) (locals : after.locals = m.locals) :
    Attentive client after := by
  intro q call waits
  rw [data, locals]
  rw [moved] at waits ⊢
  by_cases same : q = p
  · rw [same, Function.update_self] at waits
    rw [same]
    exact .inl (own call waits)
  · rw [Function.update_of_ne same] at waits
    rcases attentive q call waits with blocked | ⟨r, notifies⟩
    · exact .inl blocked
    · exact .inr ⟨r, notifies_update silent notifies⟩

theorem change {call : Call} {own : Local} {data : Data}
    (attentive : Attentive client m) (prompt : client.Prompt)
    (sound : Sound client m) (place : m.control p = .test call)
    (enters : client.enter p call (m.locals p) m.data = some (own, data)) :
    Attentive client (client.change m p call own data) := by
  have held := (sound.timely p).lk (by rw [place]; trivial)
  have leaves : (client.change m p call own data).control =
      Function.update m.control p (client.leave call (m.changes + 1)) := rfl
  intro q waiting waits
  rw [leaves] at waits ⊢
  cases notice : client.notice call with
  | outside => exact absurd notice (prompt.inside call)
  | inside =>
      right
      refine ⟨p, ?_⟩
      rw [Function.update_self, Client.leave, notice]
      cases client.lkIsPtable <;> trivial
  | never =>
      left
      have other : q ≠ p := by
        rintro rfl
        rw [Function.update_self, Client.leave, notice] at waits
        cases waits
      rw [Function.update_of_ne other] at waits
      rw [show (client.change m p call own data).locals q = m.locals q from
        Function.update_of_ne other _ _]
      rcases attentive q waiting waits with blocked | ⟨r, notifies⟩
      · exact prompt.silent blocked enters notice
      · have same := (sound.timely r).eq_holder (.of_notifies notifies) held
        rw [same, place] at notifies
        exact notifies.elim

theorem wakeup1 {number : Nat} {inside : Bool}
    {control : Control Process Call}
    (attentive : Attentive client m) (sound : Sound client m)
    (place : m.control p = .wakeup1 number inside)
    (controls : after.control =
      Function.update (fun q => (m.control q).woken) p control)
    (idle : control.pending = none) (data : after.data = m.data)
    (locals : after.locals = m.locals) : Attentive client after := by
  intro q call waits
  have other : q ≠ p := by
    rintro rfl
    rw [controls, Function.update_self] at waits
    rw [Control.pending_of_waitsFor waits] at idle
    cases idle
  rw [controls, Function.update_of_ne other] at waits
  obtain ⟨waited, holds⟩ := Control.waitsFor_of_woken waits
  rw [data, locals, controls]
  rcases attentive q call waited with blocked | ⟨r, notifies⟩
  · exact .inl blocked
  · have apart : r ≠ p := by
      rintro rfl
      have held := (sound.timely r).lk (.of_notifies notifies)
      have scheduling := (sound.timely r).ptable (by rw [place]; trivial)
      rcases holds with holds | holds
      · exact other ((sound.timely q).eq_holder holds held)
      · exact ne_holder scheduling other ((sound.timely q).ptable holds)
    right
    refine ⟨r, ?_⟩
    rw [Function.update_of_ne apart]
    exact (Control.notifies_woken _).mpr notifies

theorem next {action : Action Process Call} (attentive : Attentive client m)
    (prompt : client.Prompt) (sound : Sound client m)
    (taken : client.next m action = some after) : Attentive client after := by
  cases Outcome.of_next taken with
  | call idle _ control data locals =>
      rename_i p _
      apply attentive.step _ control _ data locals
      · rw [Control.eq_idle idle]
        exact id
      · exact fun _ waits => nomatch waits
  | quiet control data locals =>
      intro q call waits
      rw [data, locals]
      rcases attentive q call ((control q).waitsFor call waits) with
        blocked | ⟨r, notifies⟩
      · exact .inl blocked
      · exact .inr ⟨r, (control r).notifies notifies⟩
  | wait place blocked =>
      rename_i p waiting
      refine attentive.step (p := p) ?_ rfl ?_ rfl rfl
      · rw [place]
        exact id
      · intro call waits
        have same : waiting = call := by
          split at waits <;> exact Option.some.inj waits
        rw [← same]
        exact blocked
  | change place enters => exact attentive.change prompt sound place enters
  | wakeup1 place controls idle data locals =>
      exact attentive.wakeup1 sound place controls idle data locals

end Attentive

variable {client : Client Process Local Data Call}
  {start m after : Machine Process Local Data Call} {p : Process}
  {history : History (Machine Process Local Data Call) (Action Process Call)}

/-- With `lk` free, the test of every sleeping process fails. -/
theorem blocked_of_run {call : Call} (prompt : client.Prompt)
    (started : start.Started) (run : Run client.system start history m)
    (free : client.holder m = none) (asleep : m.control p = .asleep call) :
    client.enter p call (m.locals p) m.data = none := by
  have initial : Attentive client start := by
    intro q waiting waits
    rw [started.idle q] at waits
    cases waits
  let both := fun m => Sound client m ∧ Attentive client m
  obtain ⟨sound, attentive⟩ : both m :=
    run.invariant ⟨.start started, initial⟩ fun taken both =>
      ⟨both.1.next taken, both.2.next prompt both.1 taken⟩
  rcases attentive p call (by rw [asleep]; rfl) with blocked | ⟨r, notifies⟩
  · exact blocked
  · have held := (sound.timely r).lk (.of_notifies notifies)
    rw [free] at held
    cases held

omit [DecidableEq Process] in
variable (client) in
theorem Client.leave_pending (call : Call) (number : Nat) :
    (client.leave call number).pending = none := by
  unfold Client.leave
  split
  · rfl
  · split <;> rfl
  · rfl

/-- A property of the data, while every call that is under way was
permitted. -/
structure Lawful (client : Client Process Local Data Call)
    (property : (Process → Local) → Data → Prop)
    (m : Machine Process Local Data Call) : Prop where
  holds : property m.locals m.data
  permitted : ∀ q call, (m.control q).pending = some call →
    client.permitted (m.locals q) call

namespace Lawful

variable {property : (Process → Local) → Data → Prop}

theorem step {others : Process → Control Process Call}
    {control : Control Process Call} (lawful : Lawful client property m)
    (holds : property after.locals after.data)
    (controls : after.control = Function.update others p control)
    (beside : ∀ q, (others q).pending = (m.control q).pending)
    (locals : ∀ q, q ≠ p → after.locals q = m.locals q)
    (own : ∀ call, control.pending = some call →
      client.permitted (after.locals p) call) :
    Lawful client property after := by
  refine ⟨holds, ?_⟩
  intro q call pending
  rw [controls] at pending
  by_cases same : q = p
  · rw [same, Function.update_self] at pending
    rw [same]
    exact own call pending
  · rw [Function.update_of_ne same, beside] at pending
    rw [locals q same]
    exact lawful.permitted q call pending

theorem next {action : Action Process Call}
    (lawful : Lawful client property m)
    (kept : ∀ {locals data p call own data'}, property locals data →
      client.permitted (locals p) call →
      client.enter p call (locals p) data = some (own, data') →
      property (Function.update locals p own) data')
    (taken : client.next m action = some after) :
    Lawful client property after := by
  cases Outcome.of_next taken with
  | call _ permitted control data locals =>
      refine lawful.step (by rw [data, locals]; exact lawful.holds) control
        (fun _ => rfl) (fun q _ => by rw [locals]) ?_
      intro call pending
      rw [locals, ← Option.some.inj pending]
      exact permitted
  | quiet control data locals =>
      refine ⟨by rw [data, locals]; exact lawful.holds, ?_⟩
      intro q call pending
      rw [locals]
      exact lawful.permitted q call ((control q).pending call pending)
  | wait place _ =>
      refine lawful.step lawful.holds rfl (fun _ => rfl) (fun _ _ => rfl) ?_
      intro call pending
      apply lawful.permitted _ call
      rw [place, ← pending]
      cases client.lkIsPtable <;> rfl
  | change place enters =>
      have permitted := lawful.permitted _ _ (by rw [place]; rfl)
      refine lawful.step (kept lawful.holds permitted enters) rfl
        (fun _ => rfl) (fun q other => Function.update_of_ne other _ _) ?_
      intro call pending
      rw [client.leave_pending] at pending
      cases pending
  | wakeup1 place controls idle data locals =>
      refine lawful.step (by rw [data, locals]; exact lawful.holds) controls
        (fun q => (m.control q).pending_woken) (fun q _ => by rw [locals]) ?_
      intro call pending
      rw [idle] at pending
      cases pending

end Lawful

/-- The rule for the data under `lk`: what the critical section of every call
keeps that was permitted when it started. -/
theorem data_of_run {property : (Process → Local) → Data → Prop}
    (kept : ∀ {locals data p call own data'}, property locals data →
      client.permitted (locals p) call →
      client.enter p call (locals p) data = some (own, data') →
      property (Function.update locals p own) data')
    (started : start.Started) (initial : property start.locals start.data)
    (run : Run client.system start history m) :
    property m.locals m.data := by
  have lawful : Lawful client property start := by
    refine ⟨initial, ?_⟩
    intro q call pending
    rw [started.idle q] at pending
    cases pending
  exact (run.invariant lawful fun taken lawful =>
    lawful.next kept taken).holds

end Xv6.Sleep
