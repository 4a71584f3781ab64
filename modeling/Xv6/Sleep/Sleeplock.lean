import Xv6.Sleep.Sleepers
import Mathlib.Data.Fintype.Basic

/-!
# Sleep-locks

`sleeplock.c` as a client of `sleep` and `wakeup`: the lock itself is the
channel and its spinlock `lk->lk` guards the two fields.  A process holds the
lock from the end of its `acquiresleep` to the start of `releasesleep`, which
only a holder calls.
-/

namespace Xv6.Sleep

open Lib

/-- The fields of `struct sleeplock` under `lk->lk`; no process is pid 0. -/
structure Sleeplock (Process : Type) where
  locked : Bool
  pid : Option Process
  deriving DecidableEq, Repr

/-- `initsleeplock`. -/
def initsleeplock (Process : Type) : Sleeplock Process where
  locked := false
  pid := none

inductive Sleeplock.Call where
  | acquiresleep
  | releasesleep
  deriving DecidableEq, Repr

namespace Sleeplock

variable {Process : Type}

/-- `acquiresleep` with `lk->lk`, from the test of its loop. -/
def acquiresleep (lk : Sleeplock Process) (p : Process) :
    Option (Sleeplock Process) :=
  if lk.locked then none else some { locked := true, pid := some p }

/-- `releasesleep` with `lk->lk`, up to `wakeup(lk)`. -/
def releasesleep (_ : Sleeplock Process) : Sleeplock Process where
  locked := false
  pid := none

/-- `holdingsleep`. -/
def holdingsleep [DecidableEq Process] (lk : Sleeplock Process)
    (p : Process) : Bool :=
  lk.locked && lk.pid = some p

/-- The functions of `sleeplock.c`.  A process knows whether it holds the
lock. -/
def client (Process : Type) : Client Process Bool (Sleeplock Process) Call where
  lkIsPtable := false
  permitted holding
    | .acquiresleep => true
    | .releasesleep => holding
  enter p call _ lk :=
    match call with
    | .acquiresleep => (lk.acquiresleep p).map fun after => (true, after)
    | .releasesleep => some (false, lk.releasesleep)
  notice
    | .acquiresleep => .never
    | .releasesleep => .inside

theorem enter_eq_none {lk : Sleeplock Process} {p : Process} {call : Call}
    {holding : Bool}
    (blocked : (client Process).enter p call holding lk = none) :
    lk.locked = true := by
  cases call with
  | releasesleep => cases blocked
  | acquiresleep =>
      by_contra unlocked
      simp [client, acquiresleep, unlocked] at blocked

theorem enter_acquiresleep {lk after : Sleeplock Process} {p : Process}
    {holding own : Bool}
    (enters : (client Process).enter p .acquiresleep holding lk =
      some (own, after)) :
    lk.locked = false ∧ own = true ∧
      after = { locked := true, pid := some p } := by
  cases locked : lk.locked with
  | true => simp [client, acquiresleep, locked] at enters
  | false =>
      simp only [client, acquiresleep, locked, Bool.false_eq_true, if_false,
        Option.map_some, Option.some.injEq, Prod.mk.injEq] at enters
      exact ⟨rfl, enters.1.symm, enters.2.symm⟩

/-- Only `releasesleep` lets a process through, and it wakes up the others
before it releases `lk->lk`. -/
theorem prompt : (client Process).Prompt where
  inside
    | .acquiresleep => nofun
    | .releasesleep => nofun
  silent := by
    intro p call own lk q other own' after blocked enters never
    have locked := enter_eq_none blocked
    cases other with
    | releasesleep => cases never
    | acquiresleep =>
        have unlocked := (enter_acquiresleep enters).1
        rw [locked] at unlocked
        cases unlocked

variable [DecidableEq Process]

/-- The processes that hold the lock are those that `holdingsleep` knows. -/
def Owned (holding : Process → Bool) (lk : Sleeplock Process) : Prop :=
  ∀ p, holding p = lk.holdingsleep p

theorem Owned.unique {holding : Process → Bool} {lk : Sleeplock Process}
    (owned : Owned holding lk) {p q : Process} (first : holding p = true)
    (second : holding q = true) : p = q := by
  have pid : ∀ r, holding r = true → lk.pid = some r := by
    intro r holds
    rw [owned r, holdingsleep, Bool.and_eq_true] at holds
    exact of_decide_eq_true holds.2
  have same := (pid p first).symm.trans (pid q second)
  exact Option.some.inj same

theorem Owned.enter {holding : Process → Bool} {lk after : Sleeplock Process}
    {p : Process} {call : Call} {own : Bool} (owned : Owned holding lk)
    (permitted : (client Process).permitted (holding p) call)
    (enters : (client Process).enter p call (holding p) lk =
      some (own, after)) :
    Owned (Function.update holding p own) after := by
  intro q
  cases call with
  | acquiresleep =>
      obtain ⟨unlocked, rfl, rfl⟩ := enter_acquiresleep enters
      by_cases same : q = p
      · simp [same, holdingsleep]
      · have free := owned q
        rw [holdingsleep, unlocked] at free
        rw [Function.update_of_ne same, free]
        simp [holdingsleep, Ne.symm same]
  | releasesleep =>
      cases enters
      by_cases same : q = p
      · simp [same, holdingsleep, releasesleep]
      · rw [Function.update_of_ne same]
        have alone : holding q ≠ true := fun holds =>
          same (owned.unique holds permitted)
        simp [holdingsleep, releasesleep, alone]

/-- Nobody has used the lock since `initsleeplock`. -/
structure Initialised
    (m : Machine Process Bool (Sleeplock Process) Call) : Prop where
  started : m.Started
  data : m.data = initsleeplock Process
  free : ∀ p, m.locals p = false

/-- With `lk->lk` free, nobody sleeps on a lock that is free. -/
def NobodyStuck (m : Machine Process Bool (Sleeplock Process) Call) : Prop :=
  m.lock = none → ∀ p, m.Sleeping p → m.data.locked = true

/-- At most one process holds the lock. -/
def Exclusive (m : Machine Process Bool (Sleeplock Process) Call) : Prop :=
  ∀ p q, m.locals p = true → m.locals q = true → p = q

variable {start m : Machine Process Bool (Sleeplock Process) Call}
  {history : History (Machine Process Bool (Sleeplock Process) Call)
    (Action Process Call)}

theorem nobodyStuck_of_run (initialised : Initialised start)
    (run : Run (client Process).system start history m) : NobodyStuck m := by
  rintro free p ⟨call, asleep⟩
  apply enter_eq_none
  exact blocked_of_run prompt initialised.started run free asleep

theorem exclusive_of_run (initialised : Initialised start)
    (run : Run (client Process).system start history m) : Exclusive m := by
  have initial : Owned start.locals start.data := by
    intro p
    rw [initialised.free p, initialised.data]
    rfl
  have owned : Owned m.locals m.data :=
    data_of_run (fun owned => owned.enter) initialised.started initial run
  intro p q first second
  exact owned.unique first second

end Sleeplock

/-- Whatever the processes wait for, a `wakeup` that is over leaves nobody
asleep who tested before the change.  With sleep-locks nobody sleeps in vain,
and one process at a time holds the lock. -/
theorem wakeups_of_run {Process Local Data Call : Type} [DecidableEq Process]
    {client : Client Process Local Data Call}
    {start m : Machine Process Local Data Call}
    {history : History (Machine Process Local Data Call)
      (Action Process Call)}
    (started : start.Started) (run : Run client.system start history m)
    {lk lk' : Machine Process Bool (Sleeplock Process) Sleeplock.Call}
    {steps : History (Machine Process Bool (Sleeplock Process) Sleeplock.Call)
      (Action Process Sleeplock.Call)}
    (initialised : Sleeplock.Initialised lk)
    (locking : Run (Sleeplock.client Process).system lk steps lk') :
    m.NoneLost ∧ Sleeplock.NobodyStuck lk' ∧ Sleeplock.Exclusive lk' :=
  ⟨(sound_of_run started run).noneLost,
    Sleeplock.nobodyStuck_of_run initialised locking,
    Sleeplock.exclusive_of_run initialised locking⟩

/-- A sleep-lock of three processes that nobody has used. -/
def Sleeplock.three :
    Machine (Fin 3) Bool (Sleeplock (Fin 3)) Sleeplock.Call where
  lock := none
  ptable := none
  data := initsleeplock (Fin 3)
  locals _ := false
  control _ := .idle
  changes := 0
  tested _ := 0
  announced := []

/-- Process 1 sleeps until process 0 releases the lock, finds that process 2
was faster and sleeps again. -/
theorem wakeups_three :
    ∃ history m,
      Run (Sleeplock.client (Fin 3)).system Sleeplock.three history m ∧
        m.announced = [1] ∧ m.control 1 = .asleep .acquiresleep ∧
        m.lock = none ∧ 1 ≤ m.tested 1 ∧ m.data.locked = true ∧
        m.locals 2 = true ∧ m.locals 0 ≠ true := by
  have passed : (replay (Sleeplock.client (Fin 3)).next [] Sleeplock.three
      ([.call 0 .acquiresleep] ++ List.replicate 3 (.run 0) ++
        [.call 1 .acquiresleep] ++ List.replicate 5 (.run 1) ++
        [.call 0 .releasesleep] ++ List.replicate 5 (.run 0) ++
        [.call 2 .acquiresleep] ++ List.replicate 3 (.run 2) ++
        List.replicate 7 (.run 1))).any
      (fun result => decide (
        result.2.announced = [1] ∧
        result.2.control 1 = .asleep .acquiresleep ∧
        result.2.lock = none ∧ result.2.locals 2 = true)) = true := by
    decide +kernel
  have initialised : Sleeplock.Initialised Sleeplock.three :=
    ⟨⟨rfl, rfl, fun _ => rfl, rfl⟩, rfl, fun _ => rfl⟩
  obtain ⟨history, m, run, facts⟩ := Run.of_replay Client.step_of_next passed
  obtain ⟨announced, asleep, free, holds⟩ := of_decide_eq_true facts
  obtain ⟨noneLost, nobodyStuck, exclusive⟩ :=
    wakeups_of_run initialised.started run initialised run
  refine ⟨history, m, run, announced, asleep, free, ?_, ?_, holds, ?_⟩
  · exact noneLost 1 (by rw [announced]; exact List.mem_singleton.mpr rfl) 1
      ⟨_, asleep⟩
  · exact nobodyStuck free 1 ⟨_, asleep⟩
  · intro other
    exact absurd (exclusive 2 0 holds other) (by decide)

end Xv6.Sleep
