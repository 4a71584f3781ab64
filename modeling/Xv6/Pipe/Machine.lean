import Xv6.Lib.Run
import Xv6.Lib.WrappingRing
import Xv6.Param
import Mathlib.Logic.Function.Basic

/-!
# A pipe of `kernel/pipe.c` and the processes that use it

A process takes one piece of code at a time: it takes the lock of the pipe,
goes once around a loop, or goes to sleep.  `sleep` takes `ptable.lock` before
it gives up the lock of the pipe, and the process is `SLEEPING` only one step
later; `wakeup` and `kill` need `ptable.lock` as well.  What a piece of code
does while it holds a lock nobody else sees, so the return from a call is one
step with the last `wakeup`.

`argptr` refuses negative counts, so a count is a natural number, and a writer
has a list of bytes.
-/

namespace Xv6

open Lib

/-- `PIPESIZE`. -/
def pipeSize : Nat := 512

/-- `struct pipe`, without its lock. -/
structure Pipe where
  data : Fin pipeSize → UInt8
  nread : Nat
  nwrite : Nat
  readopen : Bool
  writeopen : Bool

namespace Pipe

/-- `nread` and `nwrite` have type `uint`. -/
def shape : RingShape where
  capacity := pipeSize
  modulus := 2 ^ 32
  positive := by decide
  divides := ⟨2 ^ 23, by decide⟩
  smaller := by decide

/-- `p->nwrite == p->nread + PIPESIZE`. -/
def Full (pipe : Pipe) : Prop :=
  pipe.nwrite = uintAdd pipe.nread pipeSize

/-- `p->nread == p->nwrite`. -/
def Empty (pipe : Pipe) : Prop :=
  pipe.nread = pipe.nwrite

instance (pipe : Pipe) : Decidable pipe.Full :=
  inferInstanceAs (Decidable (_ = _))

instance (pipe : Pipe) : Decidable pipe.Empty :=
  inferInstanceAs (Decidable (_ = _))

/-- `p->data[p->nwrite++ % PIPESIZE] = byte`. -/
def store (pipe : Pipe) (byte : UInt8) : Pipe :=
  { pipe with
    data := Function.update pipe.data (shape.cell pipe.nwrite) byte
    nwrite := uintAdd pipe.nwrite 1 }

/-- `p->data[p->nread % PIPESIZE]`. -/
def front (pipe : Pipe) : UInt8 :=
  pipe.data (shape.cell pipe.nread)

/-- `p->nread++`. -/
def advance (pipe : Pipe) : Pipe :=
  { pipe with nread := uintAdd pipe.nread 1 }

/-- Clear `writeopen` or `readopen`. -/
def shut (pipe : Pipe) (writable : Bool) : Pipe :=
  if writable then { pipe with writeopen := false }
  else { pipe with readopen := false }

/-- The `nwrite - nread` bytes in `data`, oldest first. -/
def buffered (pipe : Pipe) : List UInt8 :=
  shape.contents pipe.data pipe.nread pipe.nwrite

/-- The addresses that processes sleep on. -/
inductive Channel where
  | nread
  | nwrite
  deriving DecidableEq, Repr

/-- Where a process is.  A writer has the bytes `addr[i..n)` still to store
and has stored `fresh` bytes since it took the lock; a reader has room for
`n - i` more bytes and has copied `got`. -/
inductive Control where
  | idle
  | acquireWrite (todo : List UInt8)
  | write (todo : List UInt8) (fresh : Nat)
  | sleepWrite (todo : List UInt8)
  | schedWrite (todo : List UInt8)
  | asleepWrite (todo : List UInt8)
  | acquireRead (n : Nat)
  | read (n : Nat)
  | copy (n : Nat) (got : List UInt8)
  | sleepRead (n : Nat)
  | schedRead (n : Nat)
  | asleepRead (n : Nat)
  | acquireClose (writable : Bool)
  | close (writable : Bool)
  deriving DecidableEq, Repr

namespace Control

/-- The channel of a process that is `SLEEPING`. -/
def chan : Control → Option Channel
  | .asleepWrite _ => some .nwrite
  | .asleepRead _ => some .nread
  | _ => none

/-- A process that is woken goes on behind `sched` and takes the lock. -/
def woken : Control → Control
  | .asleepWrite todo => .acquireWrite todo
  | .asleepRead n => .acquireRead n
  | control => control

/-- The code that holds the lock of the pipe. -/
def locked : Control → Bool
  | .write _ _ | .sleepWrite _ => true
  | .read _ | .copy _ _ | .sleepRead _ => true
  | .close _ => true
  | _ => false

/-- The code of `sleep` that holds `ptable.lock`. -/
def scheds : Control → Bool
  | .schedWrite _ | .schedRead _ => true
  | _ => false

/-- What a `piperead` has copied so far. -/
def copied : Control → List UInt8
  | .copy _ got => got
  | _ => []

end Control

/-- One pipe, the two locks and the processes.  `freed` is set when the page
of the pipe goes back to the allocator. -/
structure Machine (Process : Type) where
  pipe : Pipe
  lock : Option Process
  ptable : Option Process
  killed : Process → Bool
  control : Process → Control
  freed : Bool

/-- A process calls a function, is killed, or takes its next piece. -/
inductive Action (Process : Type) where
  | pipewrite (p : Process) (addr : List UInt8)
  | piperead (p : Process) (n : Nat)
  | pipeclose (p : Process) (writable : Bool)
  | kill (p : Process)
  | run (p : Process)
  deriving DecidableEq, Repr

namespace Machine

variable {Process : Type} [DecidableEq Process]

def setControl (m : Machine Process) (p : Process) (control : Control) :
    Machine Process :=
  { m with control := Function.update m.control p control }

/-- `wakeup(chan)`. -/
def wakeup (m : Machine Process) (chan : Channel) : Machine Process :=
  { m with
    control := fun q =>
      if (m.control q).chan = some chan then (m.control q).woken
      else m.control q }

/-- `acquire(&p->lock)`. -/
def acquire (m : Machine Process) (p : Process) (control : Control) :
    Option (Machine Process) :=
  if m.lock = none then some { m.setControl p control with lock := some p }
  else none

/-- `release(&p->lock)` at the end of a call. -/
def release (m : Machine Process) (p : Process) : Machine Process :=
  { m.setControl p .idle with lock := none }

/-- `sleep` up to `release(lk)`. -/
def sleep (m : Machine Process) (p : Process) (control : Control) :
    Machine Process :=
  { m.setControl p control with lock := none, ptable := some p }

/-- `sleep` until the process is off the processor and the scheduler has
released `ptable.lock`. -/
def sched (m : Machine Process) (p : Process) (control : Control) :
    Machine Process :=
  { m.setControl p control with ptable := none }

/-- `kill` for a process that exists. -/
def kill (m : Machine Process) (p : Process) : Machine Process :=
  { m.setControl p (m.control p).woken with
    killed := Function.update m.killed p true }

/-- The loop of `pipewrite`, from its test. -/
def pipewrite (m : Machine Process) (p : Process) (todo : List UInt8)
    (fresh : Nat) : Option (Machine Process) :=
  match todo with
  | [] =>
      if m.ptable = none then some ((m.wakeup .nread).release p) else none
  | byte :: rest =>
      if m.pipe.Full then
        if m.pipe.readopen = false ∨ m.killed p = true then
          some (m.release p)
        else some (m.setControl p (.sleepWrite (byte :: rest)))
      else
        some
          { m.setControl p (.write rest (fresh + 1)) with
            pipe := m.pipe.store byte }

/-- The first loop of `piperead`, from its test. -/
def piperead (m : Machine Process) (p : Process) (n : Nat) :
    Option (Machine Process) :=
  if m.pipe.Empty ∧ m.pipe.writeopen = true then
    if m.killed p then some (m.release p)
    else some (m.setControl p (.sleepRead n))
  else some (m.setControl p (.copy n []))

/-- The second loop of `piperead`, from its test. -/
def copy (m : Machine Process) (p : Process) (n : Nat) (got : List UInt8) :
    Option (Machine Process) :=
  if n = 0 ∨ m.pipe.Empty then
    if m.ptable = none then some ((m.wakeup .nwrite).release p) else none
  else
    some
      { m.setControl p (.copy (n - 1) (got ++ [m.pipe.front])) with
        pipe := m.pipe.advance }

/-- `pipeclose` with the lock. -/
def pipeclose (m : Machine Process) (p : Process) (writable : Bool) :
    Machine Process :=
  let pipe := m.pipe.shut writable
  { (m.wakeup (if writable then .nread else .nwrite)).release p with
    pipe := pipe
    freed := pipe.readopen = false ∧ pipe.writeopen = false }

/-- The next piece of a process, unless it has to wait. -/
def run (m : Machine Process) (p : Process) : Option (Machine Process) :=
  match m.control p with
  | .idle => none
  | .acquireWrite todo => m.acquire p (.write todo 0)
  | .write todo fresh => m.pipewrite p todo fresh
  | .sleepWrite todo =>
      if m.ptable = none then
        some ((m.wakeup .nread).sleep p (.schedWrite todo))
      else none
  | .schedWrite todo => some (m.sched p (.asleepWrite todo))
  | .asleepWrite _ => none
  | .acquireRead n => m.acquire p (.read n)
  | .read n => m.piperead p n
  | .copy n got => m.copy p n got
  | .sleepRead n =>
      if m.ptable = none then some (m.sleep p (.schedRead n)) else none
  | .schedRead n => some (m.sched p (.asleepRead n))
  | .asleepRead _ => none
  | .acquireClose writable => m.acquire p (.close writable)
  | .close writable =>
      if m.ptable = none then some (m.pipeclose p writable) else none

/-- Calls start when the process does nothing else.  Nobody uses a pipe whose
page is gone. -/
def next (m : Machine Process) (action : Action Process) :
    Option (Machine Process) :=
  if m.freed then none
  else
    match action with
    | .pipewrite p addr =>
        if m.control p = .idle then some (m.setControl p (.acquireWrite addr))
        else none
    | .piperead p n =>
        if m.control p = .idle then some (m.setControl p (.acquireRead n))
        else none
    | .pipeclose p writable =>
        if m.control p = .idle then
          some (m.setControl p (.acquireClose writable))
        else none
    | .kill p => if m.ptable = none then some (m.kill p) else none
    | .run p => m.run p

/-- What `pipealloc` leaves behind: the page holds any bytes, and the
processes have done nothing with it. -/
structure Allocated (m : Machine Process) : Prop where
  nread : m.pipe.nread = 0
  nwrite : m.pipe.nwrite = 0
  readopen : m.pipe.readopen = true
  writeopen : m.pipe.writeopen = true
  unlocked : m.lock = none
  unscheduled : m.ptable = none
  idle : ∀ p, m.control p = .idle
  live : m.freed = false

/-- The pipe on a page of zeros, and processes that were not killed. -/
def zeroed (Process : Type) : Machine Process where
  pipe :=
    { data := fun _ => 0
      nread := 0
      nwrite := 0
      readopen := true
      writeopen := true }
  lock := none
  ptable := none
  killed := fun _ => false
  control := fun _ => .idle
  freed := false

omit [DecidableEq Process] in
theorem zeroed_allocated : (zeroed Process).Allocated :=
  ⟨rfl, rfl, rfl, rfl, rfl, rfl, fun _ => rfl, rfl⟩

end Machine

/-- The pipe as a transition system. -/
def system (Process : Type) [DecidableEq Process] :
    System (Machine Process) (Action Process) where
  step before action after := before.next action = some after

theorem Machine.step_of_next {Process : Type} [DecidableEq Process]
    {before after : Machine Process} {action : Action Process}
    (success : before.next action = some after) :
    (system Process).step before action after :=
  success

end Pipe

end Xv6
