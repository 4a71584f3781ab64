import Xv6.Lib.LinkedQueue
import Xv6.Lib.Run
import Xv6.Param

/-!
# The disk driver, `kernel/ide.c`

A label is a critical section of `idelock`, a step of the drive, or what a
process does with a buffer outside of `iderw`.  `iderw` is cut where it
sleeps: the process tests the flags of its buffer again whenever it gets
`idelock`, which may be at any time.  The drive works on one request and then
raises one interrupt.

The machine counts the requests: it remembers the buffers in the order in
which they came, and those whose requests are completed.
-/

namespace Xv6.Ide

open Lib

/-- `FSSIZE`. -/
def fssize : Nat := 1000

/-- `struct buf`.  `lock` is the process that holds the sleep lock. -/
structure Buf (Process Data : Type) where
  valid : Bool
  dirty : Bool
  dev : Nat
  blockno : Nat
  lock : Option Process
  data : Data

/-- A command for the drive. -/
structure Request (Data : Type) where
  buf : Fin nbuf
  write : Bool
  dev : Nat
  blockno : Nat
  data : Data

/-- A process waits in `iderw` for the request with the given number. -/
inductive Control where
  | idle
  | iderw (b : Fin nbuf) (number : Nat)
  deriving DecidableEq

/-- The driver, the drive and the processes.  `raised` is an interrupt that
was not handled yet. -/
structure Machine (Process Data : Type) where
  buf : Fin nbuf → Buf Process Data
  qnext : Fin nbuf → Option (Fin nbuf)
  idequeue : Option (Fin nbuf)
  havedisk1 : Bool
  drive : Option (Request Data)
  raised : Bool
  disk : Nat → Nat → Data
  control : Process → Control
  arrived : List (Fin nbuf)
  completed : List (Fin nbuf)

inductive Action (Process Data : Type) where
  | acquiresleep (p : Process) (b : Fin nbuf)
  | releasesleep (p : Process) (b : Fin nbuf)
  | change (b : Fin nbuf) (valid dirty : Bool) (dev blockno : Nat) (data : Data)
  | iderw (p : Process) (b : Fin nbuf)
  | test (p : Process)
  | finish
  | ideintr (failed : Bool)

namespace Machine

variable {Process Data : Type}

def setBuf (m : Machine Process Data) (b : Fin nbuf) (buf : Buf Process Data) :
    Machine Process Data :=
  { m with buf := Function.update m.buf b buf }

theorem buf_setBuf_of_ne (m : Machine Process Data) {b c : Fin nbuf}
    (buf : Buf Process Data) (different : c ≠ b) :
    (m.setBuf b buf).buf c = m.buf c := by
  simp [setBuf, different]

/-- `idestart`. -/
def idestart (m : Machine Process Data) (b : Fin nbuf) :
    Except Fault (Machine Process Data) :=
  let buf := m.buf b
  if buf.blockno ≥ fssize then .error (.panic "incorrect blockno")
  else .ok { m with
    drive := some ⟨b, buf.dirty, buf.dev % 2, buf.blockno, buf.data⟩ }

/-- The last buffer behind `b`. -/
def lastFrom (qnext : Fin nbuf → Option (Fin nbuf)) :
    Nat → Fin nbuf → Option (Fin nbuf)
  | 0, _ => none
  | fuel + 1, b =>
      match qnext b with
      | none => some b
      | some next => lastFrom qnext fuel next

/-- `b->qnext = 0`, and the loop of `iderw` that appends `b` to `idequeue`. -/
def append (m : Machine Process Data) (b : Fin nbuf) :
    Except Fault (Machine Process Data) :=
  let qnext := Function.update m.qnext b none
  match m.idequeue with
  | none => .ok { m with qnext := qnext, idequeue := some b }
  | some first =>
      match lastFrom qnext nbuf first with
      | none => .error .hang
      | some last =>
          .ok { m with qnext := Function.update qnext last (some b) }

/-- `if(idequeue == b) idestart(b)`. -/
def startFirst (m : Machine Process Data) (b : Fin nbuf) :
    Except Fault (Machine Process Data) :=
  if m.idequeue = some b then m.idestart b else .ok m

/-- The drive has carried out its command and raises an interrupt. -/
def finish (m : Machine Process Data) : Option (Machine Process Data) :=
  match m.drive, m.raised with
  | some request, false =>
      some { m with
        raised := true
        disk :=
          if request.write then
            Function.update m.disk request.dev
              (Function.update (m.disk request.dev) request.blockno
                request.data)
          else m.disk }
  | _, _ => none

/-- The data that `insl` reads. -/
def insl (m : Machine Process Data) (b : Fin nbuf) : Data :=
  match m.drive with
  | some request => m.disk request.dev request.blockno
  | none => (m.buf b).data

/-- `ideintr`.  The status of the drive shows whether it failed. -/
def ideintr (m : Machine Process Data) (failed : Bool) :
    Except Fault (Machine Process Data) :=
  match m.idequeue with
  | none => .ok { m with raised := false, drive := none }
  | some b =>
      let buf := m.buf b
      let data := if ¬ buf.dirty ∧ ¬ failed then m.insl b else buf.data
      let m : Machine Process Data :=
        { m.setBuf b { buf with data := data, valid := true, dirty := false }
          with
          idequeue := m.qnext b
          raised := false
          drive := none
          completed := m.completed ++ [b] }
      match m.idequeue with
      | none => .ok m
      | some next => m.idestart next

/-- No process is in `iderw` with the buffer. -/
def quiet (m : Machine Process Data) (b : Fin nbuf) : Bool :=
  match (m.buf b).lock with
  | none => true
  | some p => m.control p = .idle

variable [DecidableEq Process]

def setControl (m : Machine Process Data) (p : Process) (control : Control) :
    Machine Process Data :=
  { m with control := Function.update m.control p control }

theorem control_setControl_self (m : Machine Process Data) (p : Process)
    (control : Control) : (m.setControl p control).control p = control := by
  simp [setControl]

theorem control_setControl_of_ne (m : Machine Process Data) {p q : Process}
    (control : Control) (different : q ≠ p) :
    (m.setControl p control).control q = m.control q := by
  simp [setControl, different]

/-- `iderw` up to its first `sleep`. -/
def iderw (m : Machine Process Data) (p : Process) (b : Fin nbuf) :
    Except Fault (Machine Process Data) := do
  if (m.buf b).lock ≠ some p then .error (.panic "iderw: buf not locked")
  else if (m.buf b).valid ∧ ¬ (m.buf b).dirty then
    .error (.panic "iderw: nothing to do")
  else if (m.buf b).dev ≠ 0 ∧ m.havedisk1 = false then
    .error (.panic "iderw: ide disk 1 not present")
  else
    let number := m.arrived.length
    let m ← { m with arrived := m.arrived ++ [b] }.append b
    let m ← m.startFirst b
    .ok (m.setControl p (.iderw b number))

/-- `iderw` behind a `sleep`: the process returns if its buffer is valid and
not dirty, and sleeps again otherwise. -/
def test (m : Machine Process Data) (p : Process) : Machine Process Data :=
  match m.control p with
  | .idle => m
  | .iderw b _ =>
      if (m.buf b).valid ∧ ¬ (m.buf b).dirty then m.setControl p .idle else m

/-- What an action does.  `none` is an action that is not possible, or that
panics. -/
def next (m : Machine Process Data) : Action Process Data →
    Option (Machine Process Data)
  | .acquiresleep p b =>
      if m.control p = .idle ∧ (m.buf b).lock = none then
        some (m.setBuf b { m.buf b with lock := some p })
      else none
  | .releasesleep p b =>
      if m.control p = .idle ∧ (m.buf b).lock = some p then
        some (m.setBuf b { m.buf b with lock := none })
      else none
  | .change b valid dirty dev blockno data =>
      if m.quiet b then
        some (m.setBuf b ⟨valid, dirty, dev, blockno, (m.buf b).lock, data⟩)
      else none
  | .iderw p b =>
      if m.control p = .idle then (m.iderw p b).toOption else none
  | .test p => some (m.test p)
  | .finish => m.finish
  | .ideintr failed =>
      if m.raised then (m.ideintr failed).toOption else none

end Machine

/-- The driver with any number of processes. -/
def driver (Process Data : Type) [DecidableEq Process] :
    System (Machine Process Data) (Action Process Data) where
  step m action after := m.next action = some after

/-- Nothing was asked of the driver. -/
structure Machine.Initial {Process Data : Type} (m : Machine Process Data) :
    Prop where
  idequeue : m.idequeue = none
  drive : m.drive = none
  raised : m.raised = false
  control : ∀ p, m.control p = .idle
  arrived : m.arrived = []
  completed : m.completed = []

end Xv6.Ide
