import Xv6.Lib.Run
import Xv6.Log.Bcache
import Mathlib.Data.Fintype.Basic

/-!
# The log of `kernel/log.c` and the disk under it

A label is a critical section of `log.lock`, an access to the log without the
lock, or the code around one write of a block to the disk.  Any process may
take its next piece at any time, the machine may crash between any two, and
what it then finds on the disk it recovers with the same pieces of code.

`log_write` tests the size of the log before it takes the lock, so the test
and the append are two steps.  The log lies where `mkfs` puts it.  Callers log
blocks outside of it, with the buffer locked from before they change the
contents until `log_write` returns.
-/

namespace Xv6.Log

/-- `sb.logstart` and `log.start`. -/
def logstart : Nat := 2

/-- `sb.nlog` and `log.size`: `mkfs` counts the header block as well. -/
def nlog : Nat := logSize

/-- The block that holds the contents of `log.lh.block[tail]`. -/
def logBlock (tail : Nat) : Nat := logstart + tail + 1

/-- The blocks outside the log. -/
def Home (blockno : Nat) : Prop :=
  blockno < logstart ∨ logstart + nlog ≤ blockno

instance (blockno : Nat) : Decidable (Home blockno) :=
  inferInstanceAs (Decidable (_ ∨ _))

/-- `struct logheader` in the words of a block: `n`, then the array `block`.
The words behind the first `n` entries keep their values. -/
def writeHeader (lh : List Nat) (block : Block) : Block :=
  fun word =>
    if word.val = 0 then lh.length
    else
      match lh[word.val - 1]? with
      | some blockno => blockno
      | none => block word

/-- The first `n` entries of the array `block`, unless they do not fit. -/
def readHeader (block : Block) : Option (List Nat) :=
  if block 0 ≤ logSize then
    some ((List.range (block 0)).map fun i =>
      block (Fin.ofNat wordsPerBlock (i + 1)))
  else none

/-- What a process is doing.  Between `begin_op` and `end_op` it changes a
buffer, tests the size of the log and appends to it; the last `end_op` goes
through the steps of `commit`. -/
inductive Control where
  | idle
  | op
  | buffer (blockno : Nat)
  | logWrite (blockno : Nat)
  | writeLog (tail : Nat)
  | writeHead
  | installTrans (tail : Nat)
  | clearHead
  | committed
  deriving DecidableEq, Repr

/-- The block whose buffer is locked. -/
def Control.held : Control → Option Nat
  | .buffer blockno => some blockno
  | .logWrite blockno => some blockno
  | _ => none

/-- Where `recover_from_log` is. -/
inductive Recovery where
  | readHead
  | installTrans (tail : Nat)
  | clearHead
  | finished
  deriving DecidableEq, Repr

/-- The disk, the block cache and `struct log`.  `lh` is `log.lh`, with its
length for `n`. -/
structure Machine (Process : Type) where
  disk : Nat → Block
  bcache : Bcache
  lh : List Nat
  outstanding : Int
  committing : Bool
  control : Process → Control
  recovery : Recovery

/-- The steps.  `modify` is a caller of `log_write` that reads a block and
changes its contents, `bread` any other reader. -/
inductive Action (Process : Type) where
  | beginOp (p : Process)
  | modify (p : Process) (blockno : Nat) (data : Block)
  | logWrite (p : Process)
  | logAppend (p : Process)
  | endOp (p : Process)
  | writeLog (p : Process)
  | writeHead (p : Process)
  | installTrans (p : Process)
  | clearHead (p : Process)
  | finishCommit (p : Process)
  | bread (blockno : Nat)
  | recycle (blockno : Nat)
  | crash
  | recover
  deriving DecidableEq

namespace Machine

variable {Process : Type} [DecidableEq Process]

/-- `bread`. -/
def bread (m : Machine Process) (blockno : Nat) :
    Except Fault (Block × Machine Process) := do
  let (data, cache) ← m.bcache.bread m.disk blockno
  .ok (data, { m with bcache := cache })

/-- `bwrite` of a buffer that holds `data`. -/
def bwrite (m : Machine Process) (blockno : Nat) (data : Block) :
    Machine Process :=
  { m with
    disk := Function.update m.disk blockno data
    bcache := m.bcache.update blockno fun buf =>
      { buf with data := data, dirty := false } }

def setControl (m : Machine Process) (p : Process) (control : Control) :
    Machine Process :=
  { m with control := Function.update m.control p control }

/-- The body of the loop of `write_log`. -/
def writeLog (m : Machine Process) (tail blockno : Nat) :
    Except Fault (Machine Process) := do
  let (_, m) ← m.bread (logBlock tail)
  let (data, m) ← m.bread blockno
  .ok (m.bwrite (logBlock tail) data)

/-- The body of the loop of `install_trans`. -/
def installTrans (m : Machine Process) (tail blockno : Nat) :
    Except Fault (Machine Process) := do
  let (data, m) ← m.bread (logBlock tail)
  let (_, m) ← m.bread blockno
  .ok (m.bwrite blockno data)

/-- `write_head`. -/
def writeHead (m : Machine Process) : Except Fault (Machine Process) := do
  let (old, m) ← m.bread logstart
  .ok (m.bwrite logstart (writeHeader m.lh old))

/-- `read_head`. -/
def readHead (m : Machine Process) : Except Fault (Machine Process) := do
  let (block, m) ← m.bread logstart
  match readHeader block with
  | some lh => .ok { m with lh := lh }
  | none => .error .outOfBounds

/-- A caller of `log_write` reads a block and changes its contents. -/
def modify (m : Machine Process) (p : Process) (blockno : Nat)
    (data : Block) : Except Fault (Machine Process) := do
  let (_, m) ← m.bread blockno
  .ok
    { m with
      bcache := m.bcache.update blockno fun buf => { buf with data := data }
      control := Function.update m.control p (.buffer blockno) }

/-- `log_write` up to `acquire`. -/
def logWrite (m : Machine Process) (p : Process) (blockno : Nat) :
    Except Fault (Machine Process) :=
  if logSize ≤ m.lh.length ∨ nlog - 1 ≤ m.lh.length then
    .error (.panic "too big a transaction")
  else if m.outstanding < 1 then
    .error (.panic "log_write outside of trans")
  else .ok (m.setControl p (.logWrite blockno))

/-- `log.lh` after the critical section of `log_write`. -/
def appended (lh : List Nat) (blockno : Nat) : Except Fault (List Nat) :=
  if blockno ∈ lh then .ok lh
  else if lh.length < logSize then .ok (lh ++ [blockno])
  else .error .outOfBounds

/-- The critical section of `log_write`. -/
def logAppend (m : Machine Process) (p : Process) (blockno : Nat) :
    Except Fault (Machine Process) := do
  let lh ← appended m.lh blockno
  .ok
    { m with
      lh := lh
      bcache := m.bcache.update blockno fun buf => { buf with dirty := true }
      control := Function.update m.control p .op }

/-- `end_op` up to the first write of `commit`, if there is one. -/
def endOp (m : Machine Process) (p : Process) :
    Except Fault (Machine Process) :=
  if m.committing then .error (.panic "log.committing")
  else if m.outstanding - 1 = 0 then
    .ok
      { m with
        outstanding := m.outstanding - 1
        committing := true
        control := Function.update m.control p
          (if m.lh = [] then .committed else .writeLog 0) }
  else
    .ok
      { m with
        outstanding := m.outstanding - 1
        control := Function.update m.control p .idle }

/-- The machine comes up again with what is on the disk. -/
def crash (m : Machine Process) : Machine Process :=
  { disk := m.disk
    bcache := .empty
    lh := []
    outstanding := 0
    committing := false
    control := fun _ => .idle
    recovery := .readHead }

/-- The next piece of `recover_from_log`. -/
def recover (m : Machine Process) : Except Fault (Machine Process) :=
  match m.recovery with
  | .readHead => do
      let m ← m.readHead
      .ok { m with recovery := .installTrans 0 }
  | .installTrans tail =>
      match m.lh[tail]? with
      | some blockno => do
          let m ← m.installTrans tail blockno
          .ok { m with recovery := .installTrans (tail + 1) }
      | none => .ok { m with recovery := .clearHead }
  | .clearHead => do
      let m ← { m with lh := [] }.writeHead
      .ok { m with recovery := .finished }
  | .finished => .ok m

/-- The process holds the lock of the buffer of a block. -/
def Holds (m : Machine Process) (p : Process) (blockno : Nat) : Prop :=
  (m.control p).held = some blockno

instance (m : Machine Process) (p : Process) (blockno : Nat) :
    Decidable (m.Holds p blockno) :=
  inferInstanceAs (Decidable (_ = _))

/-- The outcome of a step, or nothing when the step cannot be taken.
`begin_op` sleeps while a commit is going on or the log may run out. -/
def fire [Fintype Process] (m : Machine Process) :
    Action Process → Option (Except Fault (Machine Process))
  | .beginOp p =>
      if m.recovery = .finished ∧ m.control p = .idle ∧
          m.committing = false ∧
          m.lh.length + (m.outstanding + 1) * maxOpBlocks ≤ logSize then
        some (.ok
          { m with
            outstanding := m.outstanding + 1
            control := Function.update m.control p .op })
      else none
  | .modify p blockno data =>
      if m.control p = .op ∧ Home blockno ∧ ∀ q, ¬ m.Holds q blockno then
        some (m.modify p blockno data)
      else none
  | .logWrite p =>
      match m.control p with
      | .buffer blockno => some (m.logWrite p blockno)
      | _ => none
  | .logAppend p =>
      match m.control p with
      | .logWrite blockno => some (m.logAppend p blockno)
      | _ => none
  | .endOp p => if m.control p = .op then some (m.endOp p) else none
  | .writeLog p =>
      match m.control p with
      | .writeLog tail =>
          match m.lh[tail]? with
          | some blockno => some do
              let m ← m.writeLog tail blockno
              .ok (m.setControl p (.writeLog (tail + 1)))
          | none => some (.ok (m.setControl p .writeHead))
      | _ => none
  | .writeHead p =>
      if m.control p = .writeHead then some do
        let m ← m.writeHead
        .ok (m.setControl p (.installTrans 0))
      else none
  | .installTrans p =>
      match m.control p with
      | .installTrans tail =>
          match m.lh[tail]? with
          | some blockno => some do
              let m ← m.installTrans tail blockno
              .ok (m.setControl p (.installTrans (tail + 1)))
          | none => some (.ok (m.setControl p .clearHead))
      | _ => none
  | .clearHead p =>
      if m.control p = .clearHead then some do
        let m ← { m with lh := [] }.writeHead
        .ok (m.setControl p .committed)
      else none
  | .finishCommit p =>
      if m.control p = .committed then
        some (.ok
          { m with
            committing := false
            control := Function.update m.control p .idle })
      else none
  | .bread blockno => some do
      let (_, m) ← m.bread blockno
      .ok m
  | .recycle blockno =>
      match m.bcache.find blockno with
      | some buf =>
          if buf.dirty = false ∧ ∀ q, ¬ m.Holds q blockno then
            some (.ok { m with bcache := m.bcache.recycle blockno })
          else none
      | none => none
  | .crash => some (.ok m.crash)
  | .recover => if m.recovery = .finished then none else some m.recover

end Machine

/-- The log and its disk as a transition system. -/
def system (Process : Type) [DecidableEq Process] [Fintype Process] :
    Lib.System (Machine Process) (Action Process) where
  step before action after := before.fire action = some (.ok after)

namespace Machine

variable {Process : Type} [DecidableEq Process] [Fintype Process]

/-- The state after a step that can be taken and does not fault. -/
def next (m : Machine Process) (action : Action Process) :
    Option (Machine Process) :=
  (m.fire action).bind Except.toOption

theorem step_of_next {before after : Machine Process}
    {action : Action Process} (success : before.next action = some after) :
    (system Process).step before action after := by
  obtain ⟨outcome, fired, kept⟩ := Option.bind_eq_some_iff.mp success
  cases outcome with
  | error fault => cases kept
  | ok state =>
      cases kept
      exact fired

/-- A machine that is up and has done nothing yet: the header names no block,
and the cache has only what is on the disk. -/
structure Booted (m : Machine Process) : Prop where
  up : m.recovery = .finished
  header : readHeader (m.disk logstart) = some []
  empty : m.lh = []
  none : m.outstanding = 0
  free : m.committing = false
  idle : ∀ p, m.control p = .idle
  clean : Bcache.Clean (fun _ => True) m.disk m.bcache

/-- A machine that was started with an empty disk. -/
def zeroed (Process : Type) : Machine Process where
  disk := fun _ _ => 0
  bcache := .empty
  lh := []
  outstanding := 0
  committing := false
  control := fun _ => .idle
  recovery := .finished

omit [DecidableEq Process] [Fintype Process] in
theorem zeroed_booted : (zeroed Process).Booted := by
  refine ⟨rfl, rfl, rfl, rfl, rfl, fun _ => rfl, ?_⟩
  intro blockno buf _ found
  cases found

end Machine

end Xv6.Log
