import Xv6.Lib.Run
import Xv6.Proc.Table

/-!
# CPUs, processes and the critical sections of `ptable.lock`

The kernel is a labelled transition system.  A label is a piece of code that
runs without giving way: a critical section of `ptable.lock`, the part of one
on either side of a context switch, or an access that the source makes
without the lock.  Any CPU may take its next piece at any time, so that the
runs of the system are all the interleavings of any number of CPUs.

The lock stays held across `swtch`.  A CPU that has just switched to a
process is `resumed`, and the process releases the lock.  A CPU that has just
switched back is `switched`, and the scheduler clears `proc` and releases the
lock.
-/

namespace Xv6

/-- Kernel code of a process between two of its critical sections.  `fork`
holds a slot from `allocproc` until it enqueues the child. -/
inductive Activity where
  | other
  | allocproc (np : ProcId)
  | fork (np : ProcId)
  | forkCopied (np : ProcId)
  deriving DecidableEq, Repr

/-- The code a CPU is executing. -/
inductive Control where
  | main
  | allocproc (p : ProcId)
  | userinit (p : ProcId)
  | scheduler
  | resumed
  | process
  | switched
  deriving DecidableEq, Repr

/-- The shared state of the kernel.  `lock` is the CPU that holds
`ptable.lock`, and `cpuProc` is the field `proc` of `cpus`. -/
structure Kernel (ncpu : Nat) where
  ptable : PTable
  lock : Option (Fin ncpu)
  cpuProc : Fin ncpu → Option ProcId
  control : Fin ncpu → Control
  activity : ProcId → Activity
  nextpid : Int
  initproc : Option ProcId
  ticks : Nat

/-- The pieces of code of one CPU.  The arguments are what the piece gets from
outside the model: a channel, a `pid` from user space, and whether `kalloc` or
`copyuvm` found memory. -/
inductive Action (ncpu : Nat) where
  | userinitAlloc (c : Fin ncpu)
  | userinitKalloc (c : Fin ncpu)
  | userinitEnqueue (c : Fin ncpu)
  | schedule (c : Fin ncpu)
  | resume (c : Fin ncpu)
  | switchBack (c : Fin ncpu)
  | yield (c : Fin ncpu)
  | sleep (c : Fin ncpu) (address : Nat)
  | exit (c : Fin ncpu)
  | wait (c : Fin ncpu)
  | forkAlloc (c : Fin ncpu)
  | forkKalloc (c : Fin ncpu) (success : Bool)
  | forkCopy (c : Fin ncpu) (success : Bool)
  | forkEnqueue (c : Fin ncpu)
  | kill (c : Fin ncpu) (pid : Int)
  | wakeup (c : Fin ncpu) (chan : Chan)
  | boost (c : Fin ncpu)
  | clock (c : Fin ncpu)
  | charge (c : Fin ncpu)
  | userTrap (c : Fin ncpu)
  deriving DecidableEq

namespace Kernel

variable {ncpu : Nat}

/-- The state in which `main` calls `userinit` on CPU 0.  The other CPUs are
already in `scheduler`. -/
def boot (ncpu : Nat) : Kernel ncpu :=
  { ptable := .zero
    lock := none
    cpuProc := fun _ => none
    control := fun c => if c.val = 0 then .main else .scheduler
    activity := fun _ => .other
    nextpid := 1
    initproc := none
    ticks := 0 }

/-- `myproc`. -/
def myproc (k : Kernel ncpu) (c : Fin ncpu) : Except Fault ProcId :=
  match k.cpuProc c with
  | none => .error .nullDereference
  | some p => .ok p

/-- The kernel code the process on a CPU is in the middle of. -/
def running (k : Kernel ncpu) (c : Fin ncpu) : Activity :=
  match k.cpuProc c with
  | none => .other
  | some p => k.activity p

/-- `sched`, with the lock held and `table` in memory: save the context and
switch to the scheduler of the CPU. -/
def sched (k : Kernel ncpu) (c : Fin ncpu) (p : ProcId) (context : Context)
    (table : PTable) : Except Fault (Kernel ncpu) :=
  if (table.proc p).state = .running then .error (.panic "sched running")
  else .ok
    { k with
      ptable := table.update p fun entry => { entry with context := context }
      lock := some c
      control := Function.update k.control c .switched }

/-- Release `ptable.lock` in a process that goes on running. -/
def releaseLock (k : Kernel ncpu) (c : Fin ncpu) (table : PTable) :
    Kernel ncpu :=
  { k with
    ptable := table
    lock := none
    control := Function.update k.control c .process }

/-- One iteration of `wait` with the lock held. -/
def waitLoop (k : Kernel ncpu) (c : Fin ncpu) (p : ProcId) (table : PTable) :
    Except Fault (Kernel ncpu) :=
  match table.wait p with
  | (.returned _, table) => .ok (k.releaseLock c table)
  | (.sleeping, table) => k.sched c p .wait table

/-- The end of `sleep`: `p->chan = 0`. -/
def awake (k : Kernel ncpu) (p : ProcId) : PTable :=
  k.ptable.update p fun entry => { entry with chan := none }

/-- What a process does when it is switched in: `forkret` and `yield` release
the lock, `sleep` tidies up first, and a `sleep` in `wait` continues with the
next iteration of its loop. -/
def resume (k : Kernel ncpu) (c : Fin ncpu) (p : ProcId) :
    Except Fault (Kernel ncpu) :=
  match (k.ptable.proc p).context with
  | .forkret => .ok (k.releaseLock c k.ptable)
  | .yield => .ok (k.releaseLock c k.ptable)
  | .sleep => .ok (k.releaseLock c (k.awake p))
  | .wait => k.waitLoop c p (k.awake p)

/-- One iteration of `scheduler` up to `swtch`. -/
def schedule (k : Kernel ncpu) (c : Fin ncpu) : Except Fault (Kernel ncpu) :=
  match k.ptable.chosen with
  | none => .ok k
  | some p => do
      let table ← k.ptable.dispatch p
      .ok
        { k with
          ptable := table
          lock := some c
          cpuProc := Function.update k.cpuProc c (some p)
          control := Function.update k.control c .resumed }

/-- `exit` from its test for `initproc` to `sched`.  The context it saves is
never used again. -/
def exit (k : Kernel ncpu) (c : Fin ncpu) (p : ProcId) :
    Except Fault (Kernel ncpu) :=
  if k.initproc = some p then .error (.panic "init exiting")
  else do
    let table ← k.ptable.exit p k.initproc
    k.sched c p (k.ptable.proc p).context table

/-- `userinit`: the critical section of `allocproc`. -/
def userinitAlloc (k : Kernel ncpu) (c : Fin ncpu) :
    Except Fault (Kernel ncpu) := do
  let found ← k.ptable.allocproc k.nextpid
  match found with
  | none => .error .nullDereference
  | some (p, table, nextpid) =>
      .ok
        { k with
          ptable := table
          nextpid := nextpid
          control := Function.update k.control c (.allocproc p) }

/-- `fork`: the critical section of `allocproc`. -/
def forkAlloc (k : Kernel ncpu) (p : ProcId) :
    Except Fault (Kernel ncpu) := do
  let found ← k.ptable.allocproc k.nextpid
  match found with
  | none => .ok k
  | some (np, table, nextpid) =>
      .ok
        { k with
          ptable := table
          nextpid := nextpid
          activity := Function.update k.activity p (.allocproc np) }

/-- The failure paths of `allocproc` and `fork` give the slot back without
taking the lock. -/
def forkFail (k : Kernel ncpu) (p np : ProcId) : Kernel ncpu :=
  { k with
    ptable := k.ptable.update np fun entry => { entry with state := .unused }
    activity := Function.update k.activity p .other }

/-- `fork`: the rest of `allocproc`, given the outcome of `kalloc`. -/
def forkKalloc (k : Kernel ncpu) (p : ProcId) (success : Bool) :
    Kernel ncpu :=
  match k.activity p with
  | .allocproc np =>
      if success then
        { k with
          ptable := k.ptable.update np fun entry =>
            { entry with context := .forkret }
          activity := Function.update k.activity p (.fork np) }
      else k.forkFail p np
  | _ => k

/-- `fork`: given the outcome of `copyuvm`, set the parent of the child. -/
def forkCopy (k : Kernel ncpu) (p : ProcId) (success : Bool) : Kernel ncpu :=
  match k.activity p with
  | .fork np =>
      if success then
        { k with
          ptable := k.ptable.update np fun entry =>
            { entry with parent := some p }
          activity := Function.update k.activity p (.forkCopied np) }
      else k.forkFail p np
  | _ => k

/-- `fork`: the critical section that enqueues the child. -/
def forkEnqueue (k : Kernel ncpu) (p : ProcId) :
    Except Fault (Kernel ncpu) :=
  match k.activity p with
  | .forkCopied np => do
      let table ← k.ptable.enqueue np
      .ok
        { k with
          ptable := table
          activity := Function.update k.activity p .other }
  | _ => .ok k

/-- When a CPU can take an action.  A critical section starts when the lock
is free.  Interrupt handlers also run on a CPU that is in `scheduler`. -/
def enabled (k : Kernel ncpu) : Action ncpu → Bool
  | .userinitAlloc c => k.lock = none ∧ k.control c = .main
  | .userinitKalloc c => ∃ p, k.control c = .allocproc p
  | .userinitEnqueue c => k.lock = none ∧ ∃ p, k.control c = .userinit p
  | .schedule c => k.lock = none ∧ k.control c = .scheduler
  | .resume c => k.control c = .resumed
  | .switchBack c => k.control c = .switched
  | .yield c => k.lock = none ∧ k.control c = .process
  | .sleep c _ => k.lock = none ∧ k.control c = .process
  | .exit c =>
      k.lock = none ∧ k.control c = .process ∧ k.running c = .other
  | .wait c =>
      k.lock = none ∧ k.control c = .process ∧ k.running c = .other
  | .forkAlloc c =>
      k.lock = none ∧ k.control c = .process ∧ k.running c = .other
  | .forkKalloc c _ =>
      k.control c = .process ∧ ∃ np, k.running c = .allocproc np
  | .forkCopy c _ => k.control c = .process ∧ ∃ np, k.running c = .fork np
  | .forkEnqueue c =>
      k.lock = none ∧ k.control c = .process ∧
        ∃ np, k.running c = .forkCopied np
  | .kill c _ => k.lock = none ∧ k.control c = .process
  | .wakeup c _ =>
      k.lock = none ∧ (k.control c = .process ∨ k.control c = .scheduler)
  | .boost c =>
      k.lock = none ∧ (k.control c = .process ∨ k.control c = .scheduler)
  | .clock c =>
      c.val = 0 ∧ (k.control c = .process ∨ k.control c = .scheduler)
  | .charge c => k.control c = .process
  | .userTrap c => k.control c = .process ∧ k.running c = .other

/-- The effect of an action. -/
def exec (k : Kernel ncpu) : Action ncpu → Except Fault (Kernel ncpu)
  | .userinitAlloc c => k.userinitAlloc c
  | .userinitKalloc c =>
      match k.control c with
      | .allocproc p => .ok
          { k with
            ptable := k.ptable.update p fun entry =>
              { entry with context := .forkret }
            initproc := some p
            control := Function.update k.control c (.userinit p) }
      | _ => .ok k
  | .userinitEnqueue c =>
      match k.control c with
      | .userinit p => do
          let table ← k.ptable.enqueue p
          .ok
            { k with
              ptable := table
              control := Function.update k.control c .scheduler }
      | _ => .ok k
  | .schedule c => k.schedule c
  | .resume c => do
      let p ← k.myproc c
      k.resume c p
  | .switchBack c => .ok
      { k with
        lock := none
        cpuProc := Function.update k.cpuProc c none
        control := Function.update k.control c .scheduler }
  | .yield c => do
      let p ← k.myproc c
      let table ← k.ptable.yield p
      k.sched c p .yield table
  | .sleep c address => do
      let p ← k.myproc c
      k.sched c p .sleep (k.ptable.sleep p (.addr address))
  | .exit c => do
      let p ← k.myproc c
      k.exit c p
  | .wait c => do
      let p ← k.myproc c
      k.waitLoop c p k.ptable
  | .forkAlloc c => do
      let p ← k.myproc c
      k.forkAlloc p
  | .forkKalloc c success => do
      let p ← k.myproc c
      .ok (k.forkKalloc p success)
  | .forkCopy c success => do
      let p ← k.myproc c
      .ok (k.forkCopy p success)
  | .forkEnqueue c => do
      let p ← k.myproc c
      k.forkEnqueue p
  | .kill _ pid => do
      let (_, table) ← k.ptable.kill pid
      .ok { k with ptable := table }
  | .wakeup _ chan => do
      let table ← k.ptable.wakeup1 (some chan)
      .ok { k with ptable := table }
  | .boost _ => do
      let table ← k.ptable.priorityBoost
      .ok { k with ptable := table }
  | .clock _ => .ok { k with ticks := uintAdd k.ticks 1 }
  | .charge c => do
      let p ← k.myproc c
      .ok
        { k with
          ptable := k.ptable.update p fun entry =>
            { entry with ticksRunning := uintAdd entry.ticksRunning 1 } }
  | .userTrap c => do
      let p ← k.myproc c
      .ok
        { k with
          ptable := k.ptable.update p fun entry =>
            { entry with killed := true } }

/-- The slot that an action allocates. -/
def allocates (k : Kernel ncpu) : Action ncpu → Option ProcId
  | .userinitAlloc _ => k.ptable.freeSlot
  | .forkAlloc _ => k.ptable.freeSlot
  | _ => none

/-- The process that an action lets scan the table in `wait`, and how the scan
ends. -/
def waitResult (k : Kernel ncpu) :
    Action ncpu → Option (ProcId × PTable.WaitResult)
  | .wait c => (k.cpuProc c).map fun p => (p, (k.ptable.wait p).1)
  | .resume c => (k.cpuProc c).bind fun p =>
      if (k.ptable.proc p).context = .wait then
        some (p, ((k.awake p).wait p).1)
      else none
  | _ => none

/-- The slot of the exited child that an action frees. -/
def reaps (k : Kernel ncpu) (action : Action ncpu) : Option ProcId :=
  (k.waitResult action).bind fun scan => k.ptable.zombieChild scan.1

end Kernel

/-- The kernel as a transition system. -/
def kernel (ncpu : Nat) : Lib.System (Kernel ncpu) (Action ncpu) where
  step before action after :=
    before.enabled action = true ∧ before.exec action = .ok after

namespace Kernel

variable {ncpu : Nat}

/-- The state after an action, if the action is enabled and does not fault. -/
def next (k : Kernel ncpu) (action : Action ncpu) : Option (Kernel ncpu) :=
  if k.enabled action then (k.exec action).toOption else none

theorem step_of_next {before after : Kernel ncpu} {action : Action ncpu}
    (success : before.next action = some after) :
    (kernel ncpu).step before action after := by
  unfold next at success
  split at success
  · rename_i guard
    refine ⟨guard, ?_⟩
    cases result : before.exec action with
    | error fault => simp [result, Except.toOption] at success
    | ok state =>
        simp only [result, Except.toOption, Option.some.injEq] at success
        rw [success]
  · simp at success

/-- The actions with which CPU 0 makes the first process and dispatches
it. -/
def bootActions (c : Fin ncpu) : List (Action ncpu) :=
  [.userinitAlloc c, .userinitKalloc c, .userinitEnqueue c, .schedule c,
    .resume c]

/-- The actions of a successful `fork`. -/
def forkActions (c : Fin ncpu) : List (Action ncpu) :=
  [.forkAlloc c, .forkKalloc c true, .forkCopy c true, .forkEnqueue c]

end Kernel

end Xv6
