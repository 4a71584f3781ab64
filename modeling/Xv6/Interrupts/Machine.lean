import Mathlib.Logic.Function.Basic
import Xv6.Lib.Run
import Xv6.Param

/-!
# Interrupts, critical sections and context switches

`pushcli` and `popcli` of `spinlock.c`, and the places of `proc.c` where a CPU
goes from one stack to another.  Code is cut where another CPU or an interrupt
can come in between: `pushcli` between `readeflags` and `cli`, `acquire`
before its `xchg`, `release` before its `popcli`, and `sched` before it puts
`intena` back.  Behind `cli` the variables of a CPU are its own.

The code of processes and of interrupt handlers may call `pushcli` and
`popcli` in any order, which is all that locks other than `ptable.lock` have
to do with interrupts; a handler returns when it has undone its own calls.  The
code of `scheduler` is there as it is.

Each stack counts the calls of `pushcli` that are not undone, and remembers
whether interrupts were enabled at the first of them.
-/

namespace Xv6.Interrupts

open Lib

/-- `ncli` and `intena` of `struct cpu`, and the flag `FL_IF` of the CPU. -/
structure Cpu where
  ncli : Int
  intena : Bool
  flIf : Bool

/-- What the code on a stack has to remember.

* `eflags`: the variable of `pushcli`, between `readeflags` and `cli`;
  `frames`: the same, for each piece of code that was interrupted.
* `intena`: the variable of `sched`, until it is put back.
* `depth`, `entry`: the calls of `pushcli` that are not undone, and whether
  interrupts were enabled at the first one.  A new process starts inside
  of a section that it did not enter. -/
structure Thread where
  eflags : Option Bool
  frames : List (Option Bool)
  intena : Option Bool
  depth : Nat
  entry : Option Bool

/-- A new process returns from `swtch` to `forkret`, which releases
`ptable.lock`. -/
def Thread.new : Thread := ⟨none, [], none, 1, none⟩

/-- `xchg` and `unlock` are those of `ptable.lock`. -/
inductive Operation where
  | readeflags
  | cli
  | popcli
  | xchg
  | unlock
  | interrupt
  | iret
  deriving DecidableEq

/-- `pushcli` behind `readeflags`. -/
def Cpu.pushcli (cpu : Cpu) (eflags : Bool) : Cpu where
  ncli := cpu.ncli + 1
  intena := if cpu.ncli = 0 then eflags else cpu.intena
  flIf := false

/-- `popcli`. -/
def Cpu.popcli (cpu : Cpu) : Except Fault Cpu :=
  if cpu.flIf then .error (.panic "popcli - interruptible")
  else if cpu.ncli - 1 < 0 then .error (.panic "popcli")
  else .ok
    { cpu with
      ncli := cpu.ncli - 1
      flIf := decide (cpu.ncli - 1 = 0 ∧ cpu.intena) }

/-- A CPU with the stack that it is on. -/
structure View where
  cpu : Cpu
  thread : Thread

/-- What an operation does to the CPU and to the stack.  An interrupt clears
`FL_IF`, and the return from it sets the flag again. -/
def View.exec (view : View) : Operation → Option View
  | .readeflags =>
      if view.thread.eflags = none then
        some { view with
          thread := { view.thread with eflags := some view.cpu.flIf } }
      else none
  | .cli =>
      view.thread.eflags.map fun eflags =>
        ⟨view.cpu.pushcli eflags,
          { view.thread with
            eflags := none
            depth := view.thread.depth + 1
            entry :=
              if view.thread.depth = 0 then some view.cpu.flIf
              else view.thread.entry }⟩
  | .popcli =>
      if view.thread.eflags = none then
        view.cpu.popcli.toOption.map fun cpu =>
          ⟨cpu, { view.thread with depth := view.thread.depth - 1 }⟩
      else none
  | .xchg => if view.thread.eflags = none then some view else none
  | .unlock => if view.thread.eflags = none then some view else none
  | .interrupt =>
      if view.cpu.flIf then
        some ⟨{ view.cpu with flIf := false },
          { view.thread with
            eflags := none
            frames := view.thread.eflags :: view.thread.frames }⟩
      else none
  | .iret =>
      match view.thread.frames with
      | [] => none
      | eflags :: frames =>
          if view.thread.eflags = none ∧ view.thread.depth = 0 then
            some ⟨{ view.cpu with flIf := true },
              { view.thread with eflags := eflags, frames := frames }⟩
          else none

/-- Where `scheduler` is: before `sti()`; in `acquire(&ptable.lock)`; with the
lock, before `swtch`; in `swtch`; behind it; in `release`, before `popcli`. -/
inductive Pc where
  | top
  | acquire
  | locked
  | switched
  | back
  | release
  deriving DecidableEq

/-- What the code of `scheduler` itself does when it is in a number of
sections.  `acquire`, `switchuvm` and `release` contain further calls of
`pushcli` and `popcli`. -/
def Pc.perform (pc : Pc) (depth : Nat) : Operation → Option Pc
  | .readeflags | .cli =>
      if pc ∈ [.acquire, .locked, .back] then some pc else none
  | .popcli =>
      if pc = .release then some .top
      else if pc ∈ [.acquire, .locked, .back] ∧ 1 < depth then some pc
      else none
  | .xchg => if pc = .acquire ∧ depth = 1 then some .locked else none
  | .unlock =>
      if pc ∈ [.locked, .back] ∧ depth = 1 then some .release else none
  | .interrupt => some pc
  | .iret => none

/-- A CPU with the stack of its `scheduler`, and with its process, if it runs
one, and the stack of that. -/
structure Local (Process : Type) where
  cpu : Cpu
  pc : Pc
  scheduler : Thread
  proc : Option (Process × Thread)

/-- The state of a process, with its stack while it waits for a CPU. -/
inductive Slot where
  | unused
  | embryo
  | sleeping (thread : Thread)
  | runnable (thread : Thread)
  | running
  | zombie

structure Machine (Id Process : Type) where
  cpu : Id → Local Process
  slot : Process → Slot
  ptable : Option Id

/-- The callers of `sched`. -/
inductive Leave where
  | yield
  | sleep
  | exit

def Leave.slot (thread : Thread) : Leave → Slot
  | .yield => .runnable thread
  | .sleep => .sleeping thread
  | .exit => .zombie

/-- What is done to a process that does not run.  `undo` is a failure in
`fork`. -/
inductive Change where
  | wakeup
  | wait
  | allocproc
  | fork
  | undo
  deriving DecidableEq

def Change.apply : Change → Slot → Option Slot
  | .wakeup, .sleeping thread => some (.runnable thread)
  | .wait, .zombie => some .unused
  | .allocproc, .unused => some .embryo
  | .fork, .embryo => some (.runnable .new)
  | .undo, .embryo => some .unused
  | _, _ => none

inductive Action (Id Process : Type) where
  | code (c : Id) (operation : Operation)
  | sti (c : Id)
  | swtch (c : Id) (p : Process)
  | sched (c : Id) (leave : Leave)
  | restore (c : Id)
  | change (c : Id) (change : Change) (p : Process)

namespace Local

variable {Process : Type} (here : Local Process)

/-- The stack that the CPU is on. -/
def thread : Thread :=
  match here.proc with
  | none => here.scheduler
  | some (_, thread) => thread

/-- The code on the CPU does an operation.  Interrupt handlers on the stack of
`scheduler` do what they like. -/
def code (operation : Operation) : Option (Local Process) :=
  match View.exec ⟨here.cpu, here.thread⟩ operation, here.proc with
  | none, _ => none
  | some view, some (p, thread) =>
      if thread.intena = none then
        some { here with cpu := view.cpu, proc := some (p, view.thread) }
      else none
  | some view, none =>
      (if here.scheduler.frames = [] then
        here.pc.perform here.scheduler.depth operation
      else some here.pc).map fun pc =>
        { here with cpu := view.cpu, scheduler := view.thread, pc := pc }

/-- `sti()` in `scheduler`. -/
def sti : Option (Local Process) :=
  if here.proc.isNone ∧ here.pc = .top ∧ here.scheduler.frames = [] ∧
      here.scheduler.eflags = none then
    some { here with cpu := { here.cpu with flIf := true }, pc := .acquire }
  else none

/-- `swtch` in `scheduler`. -/
def swtch (p : Process) (thread : Thread) : Option (Local Process) :=
  if here.proc.isNone ∧ here.pc = .locked ∧ here.scheduler.depth = 1 ∧
      here.scheduler.eflags = none then
    some { here with proc := some (p, thread), pc := .switched }
  else none

/-- `sched` up to `swtch`: the process, its stack, and the CPU. -/
def sched : Option (Process × Thread × Local Process) :=
  match here.proc with
  | none => none
  | some (p, thread) =>
      if thread.intena = none ∧ thread.eflags = none ∧ here.cpu.ncli = 1 ∧
          here.cpu.flIf = false then
        some (p, { thread with intena := some here.cpu.intena },
          { here with proc := none, pc := .back })
      else none

/-- `sched` behind `swtch`, possibly on another CPU. -/
def restore : Option (Local Process) :=
  match here.proc with
  | none => none
  | some (p, thread) =>
      thread.intena.map fun intena =>
        { here with
          cpu := { here.cpu with intena := intena }
          proc := some (p, { thread with intena := none }) }

end Local

namespace Machine

variable {Id Process : Type} [DecidableEq Id] [DecidableEq Process]
  (m : Machine Id Process)

def setCpu (c : Id) (here : Local Process) : Machine Id Process :=
  { m with cpu := Function.update m.cpu c here }

def setSlot (p : Process) (slot : Slot) : Machine Id Process :=
  { m with slot := Function.update m.slot p slot }

/-- The holder of `ptable.lock` after an operation. -/
def holder (c : Id) : Operation → Option (Option Id)
  | .xchg => if m.ptable = none then some (some c) else none
  | .unlock => if m.ptable = some c then some none else none
  | _ => some m.ptable

/-- What an action does.  `none` is an action that is not possible, or that
panics. -/
def next : Action Id Process → Option (Machine Id Process)
  | .code c operation =>
      match m.holder c operation, (m.cpu c).code operation with
      | some ptable, some here => some { m.setCpu c here with ptable := ptable }
      | _, _ => none
  | .sti c => (m.cpu c).sti.map (m.setCpu c)
  | .swtch c p =>
      match m.slot p with
      | .runnable thread =>
          ((m.cpu c).swtch p thread).map ((m.setSlot p .running).setCpu c)
      | _ => none
  | .sched c leave =>
      if m.ptable = some c then
        (m.cpu c).sched.map fun (p, thread, here) =>
          (m.setSlot p (leave.slot thread)).setCpu c here
      else none
  | .restore c => (m.cpu c).restore.map (m.setCpu c)
  | .change c change p =>
      if m.ptable = some c ∨ change = .undo then
        (change.apply (m.slot p)).map (m.setSlot p)
      else none

end Machine

/-- The CPUs and processes of the kernel. -/
def kernel (Id Process : Type) [DecidableEq Id] [DecidableEq Process] :
    System (Machine Id Process) (Action Id Process) where
  step m action after := m.next action = some after

/-- Every CPU calls `scheduler`, and some processes were made by
`userinit`. -/
structure Machine.Initial {Id Process : Type} (m : Machine Id Process) :
    Prop where
  cpu : ∀ c, ∃ intena entry, m.cpu c =
    ⟨⟨0, intena, false⟩, .top, ⟨none, [], none, 0, entry⟩, none⟩
  slot : ∀ p, m.slot p = .unused ∨ m.slot p = .runnable .new
  ptable : m.ptable = none

end Xv6.Interrupts
