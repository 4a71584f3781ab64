import Xv6.Lib.Run
import Mathlib.Logic.Function.Basic

/-!
# Sleeping on a channel

`sleep`, `wakeup1`, `wakeup` and `kill` of `proc.c`, cut at the operations on
locks.  What the processes do with the condition that they wait for is left
open: a client says what each of its calls does to the data under `lk`, when
it has to wait, and when it wakes up the others.

Three fields of the machine are there for the statements only: how often the
condition was changed, how often it had been changed when a process made its
last test, and for which changes the `wakeup` is over.
-/

namespace Xv6.Sleep

open Lib

/-- Where a call that changes the condition has its `wakeup(chan)`: nowhere,
before `release(lk)` or after it. -/
inductive Notice where
  | never
  | inside
  | outside
  deriving DecidableEq, Repr

/-- Code that waits on one channel.  `enter` is the critical section of a
call: nothing, when the test fails and the process has to sleep. -/
structure Client (Process Local Data Call : Type) where
  lkIsPtable : Bool
  permitted : Local → Call → Bool
  enter : Process → Call → Local → Data → Option (Local × Data)
  notice : Call → Notice

/-- What a process does next.

* `acquire`: `acquire(lk)`; `test`: the critical section, with `lk`.
* `sleep`, `handover`, `sched`: in `sleep`, before `acquire(&ptable.lock)`,
  before `release(lk)` and before the process goes to sleep.
* `asleep`: `SLEEPING` on the channel; `runnable`: woken up, until the
  scheduler has run it; `resume`: in `sleep` after `sched()`.
* `wakeup`, `wakeup1`: in `wakeup`, for the change with that number, with `lk`
  or without it.
* `release`: `release(lk)`, and `wakeup` afterwards if there is a change.
* `kill`: with `ptable.lock` for something else, possibly to kill. -/
inductive Control (Process Call : Type) where
  | idle
  | acquire (call : Call)
  | test (call : Call)
  | sleep (call : Call)
  | handover (call : Call)
  | sched (call : Call)
  | asleep (call : Call)
  | runnable (call : Call)
  | resume (call : Call)
  | wakeup (change : Nat) (inside : Bool)
  | wakeup1 (change : Nat) (inside : Bool)
  | release (change : Option Nat)
  | kill (target : Option Process)
  deriving DecidableEq, Repr

namespace Control

variable {Process Call : Type}

def isIdle : Control Process Call → Bool
  | .idle => true
  | _ => false

/-- A sleeping process becomes runnable. -/
def woken : Control Process Call → Control Process Call
  | .asleep call => .runnable call
  | control => control

end Control

structure Machine (Process Local Data Call : Type) where
  lock : Option Process
  ptable : Option Process
  data : Data
  locals : Process → Local
  control : Process → Control Process Call
  changes : Nat
  tested : Process → Nat
  announced : List Nat

/-- A process calls a function of the client, takes `ptable.lock`, possibly to
kill a process, or takes its next piece. -/
inductive Action (Process Call : Type) where
  | call (p : Process) (call : Call)
  | kill (p : Process) (target : Option Process)
  | run (p : Process)
  deriving DecidableEq, Repr

variable {Process Local Data Call : Type} [DecidableEq Process]

namespace Machine

variable (m : Machine Process Local Data Call)

def setControl (p : Process) (control : Control Process Call) :
    Machine Process Local Data Call :=
  { m with control := Function.update m.control p control }

/-- `wakeup1(chan)`. -/
def wakeup1 : Machine Process Local Data Call :=
  { m with control := fun q => (m.control q).woken }

/-- The loop of `kill`. -/
def kill : Option Process → Machine Process Local Data Call
  | some target => m.setControl target (m.control target).woken
  | none => m

end Machine

namespace Client

variable (client : Client Process Local Data Call)
  (m : Machine Process Local Data Call)

/-- The process that holds `lk`. -/
def holder : Option Process :=
  if client.lkIsPtable then m.ptable else m.lock

def setHolder (holder : Option Process) : Machine Process Local Data Call :=
  if client.lkIsPtable then { m with ptable := holder }
  else { m with lock := holder }

/-- What comes after the critical section of a call whose test succeeds. -/
def leave (call : Call) (change : Nat) : Control Process Call :=
  match client.notice call with
  | .never => .release none
  | .inside =>
      if client.lkIsPtable then .wakeup1 change true else .wakeup change true
  | .outside => .release (some change)

/-- The critical section of a call whose test succeeds. -/
def change (p : Process) (call : Call) (own : Local) (data : Data) :
    Machine Process Local Data Call :=
  { m.setControl p (client.leave call (m.changes + 1)) with
    data := data
    locals := Function.update m.locals p own
    changes :=
      if client.notice call = .never then m.changes else m.changes + 1 }

/-- The critical section of a call whose test fails, up to the first lock
operation of `sleep`. -/
def wait (p : Process) (call : Call) : Machine Process Local Data Call :=
  { m.setControl p
      (if client.lkIsPtable then .sched call else .sleep call) with
    tested := Function.update m.tested p m.changes }

/-- The next piece of a process, unless it has to wait. -/
def run (p : Process) : Option (Machine Process Local Data Call) :=
  match m.control p with
  | .idle => none
  | .acquire call =>
      if client.holder m = none then
        some (client.setHolder (m.setControl p (.test call)) (some p))
      else none
  | .test call =>
      match client.enter p call (m.locals p) m.data with
      | none => some (client.wait m p call)
      | some (own, data) => some (client.change m p call own data)
  | .sleep call =>
      if m.ptable = none then
        some { m.setControl p (.handover call) with ptable := some p }
      else none
  | .handover call => some { m.setControl p (.sched call) with lock := none }
  | .sched call => some { m.setControl p (.asleep call) with ptable := none }
  | .asleep _ => none
  | .runnable call =>
      if m.ptable = none then
        some { m.setControl p (.resume call) with ptable := some p }
      else none
  | .resume call =>
      if client.lkIsPtable then some (m.setControl p (.test call))
      else some { m.setControl p (.acquire call) with ptable := none }
  | .wakeup change inside =>
      if m.ptable = none then
        some { m.setControl p (.wakeup1 change inside) with ptable := some p }
      else none
  | .wakeup1 change inside =>
      some
        { m.wakeup1.setControl p (if inside then .release none else .idle) with
          ptable := if inside && client.lkIsPtable then m.ptable else none
          announced := change :: m.announced }
  | .release none => some (client.setHolder (m.setControl p .idle) none)
  | .release (some change) =>
      some (client.setHolder (m.setControl p (.wakeup change false)) none)
  | .kill target =>
      some { (m.kill target).setControl p .idle with ptable := none }

/-- A call starts when the process does nothing else. -/
def next : Action Process Call → Option (Machine Process Local Data Call)
  | .call p call =>
      if (m.control p).isIdle ∧ client.permitted (m.locals p) call then
        some (m.setControl p (.acquire call))
      else none
  | .kill p target =>
      if (m.control p).isIdle ∧ m.ptable = none then
        some { m.setControl p (.kill target) with ptable := some p }
      else none
  | .run p => client.run m p

/-- The client's processes as a transition system. -/
def system :
    System (Machine Process Local Data Call) (Action Process Call) where
  step before action after := client.next before action = some after

variable {client} in
theorem step_of_next {before after : Machine Process Local Data Call}
    {action : Action Process Call}
    (success : client.next before action = some after) :
    client.system.step before action after :=
  success

end Client

/-- Nobody has called anything yet. -/
structure Machine.Started (m : Machine Process Local Data Call) : Prop where
  lock : m.lock = none
  ptable : m.ptable = none
  idle : ∀ p, m.control p = .idle
  announced : m.announced = []

end Xv6.Sleep
