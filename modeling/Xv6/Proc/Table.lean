import Xv6.Param
import Mathlib.Data.Fintype.Basic
import Mathlib.Logic.Function.Basic

/-!
# The process table of `kernel/proc.c`

The table is modelled with the pointers of the source: a process is the index
of its slot, the three-level ready queue is threaded through `nextProc`, and
`queueFirst` and `queueLast` are the end pointers of each level.  Reading
through a null pointer, indexing a queue array past its end, overflow of a
signed integer, which C leaves undefined, and a search that never ends are
explicit faults.

A function of this file is the body of one critical section of
`ptable.lock`, or a part of one.  Saved registers, kernel stacks, page tables,
open files and names play no role in it and are left out.
-/

namespace Xv6

/-- `struct proc *`, when it is not null. -/
abbrev ProcId := Fin nproc

/-- `enum procstate`. -/
inductive ProcState where
  | unused | embryo | sleeping | runnable | running | zombie
  deriving DecidableEq, Repr

/-- A sleep channel.  Channels are addresses; those of process slots are used
by `wait` only, every other caller sleeps on an object of its own. -/
inductive Chan where
  | proc (process : ProcId)
  | addr (address : Nat)
  deriving DecidableEq, Repr

/-- Where a kernel thread continues when `swtch` gives it the CPU: at
`forkret`, or behind the call of `sched` in `yield` or in `sleep`.  A `sleep`
called by `wait` goes on scanning the table with the lock held. -/
inductive Context where
  | forkret | yield | sleep | wait
  deriving DecidableEq, Repr

/-- The fields of `struct proc` that scheduling and process control use. -/
structure Proc where
  state : ProcState
  pid : Int
  parent : Option ProcId
  context : Context
  chan : Option Chan
  killed : Bool
  priority : Nat
  ticksRunning : Nat
  nextProc : Option ProcId
  deriving DecidableEq, Repr

/-- `ptable` without its lock. -/
structure PTable where
  proc : ProcId → Proc
  queueFirst : Nat → Option ProcId
  queueLast : Nat → Option ProcId

namespace PTable

/-- Assignments to fields of one slot. -/
def update (table : PTable) (p : ProcId) (assign : Proc → Proc) : PTable :=
  { table with proc := Function.update table.proc p (assign (table.proc p)) }

/-- The table as the loader leaves it: all memory is zero. -/
def zero : PTable :=
  { proc := fun _ =>
      { state := .unused
        pid := 0
        parent := none
        context := .forkret
        chan := none
        killed := false
        priority := 0
        ticksRunning := 0
        nextProc := none }
    queueFirst := fun _ => none
    queueLast := fun _ => none }

/-- `enqueue`: append the process to the queue of its priority and make it
`RUNNABLE`. -/
def enqueue (table : PTable) (p : ProcId) : Except Fault PTable :=
  let level := (table.proc p).priority
  if nprio ≤ level then .error .outOfBounds
  else
    let table :=
      match table.queueLast level with
      | some last =>
          table.update last fun entry => { entry with nextProc := some p }
      | none =>
          { table with
            queueFirst := Function.update table.queueFirst level (some p) }
    let table := table.update p fun entry => { entry with nextProc := none }
    let table :=
      { table with
        queueLast := Function.update table.queueLast level (some p) }
    .ok (table.update p fun entry => { entry with state := .runnable })

/-- The search loop of `dequeue`.  A search of more than `nproc` iterations
has visited a slot twice and goes on forever. -/
def searchPrevious (table : PTable) (p : ProcId) :
    Nat → Option ProcId → Except Fault ProcId
  | 0, _ => .error .hang
  | _ + 1, none => .error .nullDereference
  | fuel + 1, some previous =>
      if (table.proc previous).nextProc = some p then .ok previous
      else searchPrevious table p fuel (table.proc previous).nextProc

/-- `dequeue`: unlink the process from the queue of its priority. -/
def dequeue (table : PTable) (p : ProcId) : Except Fault PTable :=
  let level := (table.proc p).priority
  if nprio ≤ level then .error .outOfBounds
  else do
    let (table, previous) ←
      if table.queueFirst level = some p then
        Except.ok
          ({ table with
              queueFirst := Function.update table.queueFirst level
                (table.proc p).nextProc },
            (none : Option ProcId))
      else do
        let previous ←
          table.searchPrevious p nproc (table.queueFirst level)
        Except.ok
          (table.update previous fun entry =>
            { entry with nextProc := (table.proc p).nextProc },
            some previous)
    if table.queueLast level = some p then
      .ok { table with
        queueLast := Function.update table.queueLast level previous }
    else .ok table

/-- The first loop over the levels in `priority_boost`: the index of the
first non-empty queue, or `nprio`. -/
def firstNonEmptyQueue (table : PTable) : Nat → Nat → Nat
  | 0, level => level
  | remaining + 1, level =>
      if table.queueFirst level = none then
        table.firstNonEmptyQueue remaining (level + 1)
      else level

/-- The second loop over the levels in `priority_boost`: hang every further
non-empty queue behind `last`. -/
def spliceQueues : Nat → Nat → Option ProcId → PTable →
    Except Fault (PTable × Option ProcId)
  | 0, _, last, table => .ok (table, last)
  | remaining + 1, level, last, table =>
      if table.queueFirst level = none then
        spliceQueues remaining (level + 1) last table
      else
        match last with
        | none => .error .nullDereference
        | some process =>
            spliceQueues remaining (level + 1) (table.queueLast level)
              (table.update process fun entry =>
                { entry with nextProc := table.queueFirst level })

/-- The last loop of `priority_boost`: only level 0 keeps its pointers. -/
def clearQueues (table : PTable) : PTable :=
  { table with
    queueFirst := fun level =>
      if 1 ≤ level ∧ level < nprio then none else table.queueFirst level
    queueLast := fun level =>
      if 1 ≤ level ∧ level < nprio then none else table.queueLast level }

/-- `priority_boost`: give every process priority 0 and concatenate the
queues. -/
def priorityBoost (table : PTable) : Except Fault PTable := do
  let table :=
    { table with proc := fun p => { table.proc p with priority := 0 } }
  let first := table.firstNonEmptyQueue nprio 0
  if first < nprio then do
    let last := table.queueLast first
    let table :=
      { table with
        queueFirst :=
          Function.update table.queueFirst 0 (table.queueFirst first) }
    let (table, last) ←
      spliceQueues (nprio - (first + 1)) (first + 1) last table
    .ok (clearQueues
      { table with queueLast := Function.update table.queueLast 0 last })
  else .ok (clearQueues table)

/-- The body of the loop of `wakeup1`. -/
def wakeupSlot (chan : Option Chan) (table : PTable) (p : ProcId) :
    Except Fault PTable :=
  if (table.proc p).state = .sleeping ∧ (table.proc p).chan = chan then
    table.enqueue p
  else .ok table

/-- `wakeup1`: enqueue every process that sleeps on the channel. -/
def wakeup1 (table : PTable) (chan : Option Chan) : Except Fault PTable :=
  (List.finRange nproc).foldlM (wakeupSlot chan) table

/-- The loop of `allocproc`: the first `UNUSED` slot. -/
def freeSlot (table : PTable) : Option ProcId :=
  (List.finRange nproc).find? fun p => (table.proc p).state = .unused

/-- `nextpid++` for a signed `nextpid`. -/
def increment (nextpid : Int) : Except Fault Int :=
  if nextpid < intMax then .ok (nextpid + 1) else .error .signedOverflow

/-- The critical section of `allocproc`.  The priority is set, the flag
`killed` and the tick count keep what the last owner of the slot left. -/
def allocproc (table : PTable) (nextpid : Int) :
    Except Fault (Option (ProcId × PTable × Int)) :=
  match table.freeSlot with
  | none => .ok none
  | some p => do
      let next ← increment nextpid
      .ok (some (p,
        table.update p fun entry =>
          { entry with state := .embryo, pid := nextpid, priority := 0 },
        next))

/-- The priority `yield` gives to a process. -/
def loweredPriority (priority : Nat) : Nat :=
  uintAdd priority (if priority = nprio - 1 then 0 else 1)

/-- The critical section of `yield`, up to the call of `sched`. -/
def yield (table : PTable) (p : ProcId) : Except Fault PTable :=
  let table := table.update p fun entry =>
    { entry with
      priority := loweredPriority entry.priority
      ticksRunning := 0 }
  table.enqueue p

/-- The assignments of `sleep` before it calls `sched`. -/
def sleep (table : PTable) (p : ProcId) (chan : Chan) : PTable :=
  table.update p fun entry =>
    { entry with chan := some chan, state := .sleeping }

/-- The body of the loop of `exit` over the table. -/
def passChild (curproc : ProcId) (initproc : Option ProcId)
    (table : PTable) (p : ProcId) : Except Fault PTable :=
  if (table.proc p).parent = some curproc then
    let table := table.update p fun entry => { entry with parent := initproc }
    if (table.proc p).state = .zombie then
      table.wakeup1 (initproc.map .proc)
    else .ok table
  else .ok table

/-- The loop of `exit` that passes abandoned children to `initproc`. -/
def passChildren (table : PTable) (curproc : ProcId)
    (initproc : Option ProcId) : Except Fault PTable :=
  (List.finRange nproc).foldlM (passChild curproc initproc) table

/-- The critical section of `exit`, up to the call of `sched`. -/
def exit (table : PTable) (curproc : ProcId) (initproc : Option ProcId) :
    Except Fault PTable := do
  let table ← table.wakeup1 ((table.proc curproc).parent.map .proc)
  let table ← table.passChildren curproc initproc
  .ok (table.update curproc fun entry => { entry with state := .zombie })

/-- How one scan of `wait` ends: the call returns, or it goes to sleep with
the lock held. -/
inductive WaitResult where
  | returned (value : Int)
  | sleeping
  deriving DecidableEq, Repr

/-- The assignments by which `wait` frees the slot of an exited child. -/
def reap (table : PTable) (p : ProcId) : PTable :=
  table.update p fun entry =>
    { entry with
      pid := 0
      parent := none
      killed := false
      state := .unused }

/-- The child in whose slot a scan of `wait` finds an exited process. -/
def zombieChild (table : PTable) (curproc : ProcId) : Option ProcId :=
  (List.finRange nproc).find? fun q =>
    (table.proc q).parent = some curproc ∧ (table.proc q).state = .zombie

/-- The scan of `wait` over the remaining slots. -/
def waitScan (table : PTable) (curproc : ProcId) :
    List ProcId → Bool → WaitResult × PTable
  | [], havekids =>
      if havekids = false ∨ (table.proc curproc).killed = true then
        (.returned (-1), table)
      else (.sleeping, table.sleep curproc (.proc curproc))
  | p :: rest, havekids =>
      if (table.proc p).parent ≠ some curproc then
        table.waitScan curproc rest havekids
      else if (table.proc p).state = .zombie then
        (.returned (table.proc p).pid, table.reap p)
      else table.waitScan curproc rest true

/-- One iteration of the outer loop of `wait`. -/
def wait (table : PTable) (curproc : ProcId) : WaitResult × PTable :=
  table.waitScan curproc (List.finRange nproc) false

/-- The scan of `kill` over the remaining slots. -/
def killScan (table : PTable) (pid : Int) :
    List ProcId → Except Fault (Int × PTable)
  | [] => .ok (-1, table)
  | p :: rest =>
      if (table.proc p).pid = pid then
        let table := table.update p fun entry => { entry with killed := true }
        if (table.proc p).state = .sleeping then do
          let table ← table.enqueue p
          .ok (0, table)
        else .ok (0, table)
      else table.killScan pid rest

/-- `kill`, with its return value. -/
def kill (table : PTable) (pid : Int) : Except Fault (Int × PTable) :=
  table.killScan pid (List.finRange nproc)

/-- The loop of `scheduler` over the levels: the head of the first non-empty
queue. -/
def nextToRun (table : PTable) : Nat → Nat → Option ProcId
  | 0, _ => none
  | remaining + 1, level =>
      match table.queueFirst level with
      | none => table.nextToRun remaining (level + 1)
      | some p => some p

/-- The process one iteration of `scheduler` dispatches. -/
def chosen (table : PTable) : Option ProcId :=
  table.nextToRun nprio 0

/-- The part of `scheduler` that takes the chosen process from its queue. -/
def dispatch (table : PTable) (p : ProcId) : Except Fault PTable := do
  let table ← table.dequeue p
  .ok (table.update p fun entry => { entry with state := .running })

end PTable

end Xv6
