import Xv6.Lib.Ring
import Xv6.Lib.Run
import Xv6.Param

/-!
# The buffer cache of `kernel/bio.c` on the disk of `kernel/memide.c`

A label is a critical section of `bcache.lock`, the acquisition of a buffer's
sleep lock, or code that runs with that lock held.  A process may hold any
number of buffers.  It changes the contents of a buffer just before it calls
`bwrite` or `log_write`, with the buffer locked all the time, so that the
change and the call are one step.  `commit` and `recover_from_log` are made of
the same pieces: they `bread` two blocks, copy one to the other, and call
`bwrite` and `brelse`.

The cache never looks at the contents of a block, which may be of any type.
A buffer has at most two references from each process, so `refcnt` does not
wrap.
-/

namespace Xv6.Bio

open Lib

/-- `ROOTDEV`. -/
def rootdev : Nat := 1

instance : NeZero nbuf := ⟨by decide⟩

/-- A buffer, or `&bcache.head`. -/
abbrev Node := Option (Fin nbuf)

/-- `struct buf` without its links.  `lock` is the process that holds the
sleep lock. -/
structure Buf (Process Data : Type) where
  valid : Bool
  dirty : Bool
  dev : Nat
  blockno : Nat
  lock : Option Process
  refcnt : Nat
  data : Data

/-- What a process is doing: it waits for the lock of a buffer that `bget`
found for a block, it has the lock and is behind `bget` in `bread`, or it is
in `brelse` and has released the lock. -/
inductive Control where
  | idle
  | acquiresleep (i : Fin nbuf) (blockno : Nat)
  | bread (i : Fin nbuf) (blockno : Nat)
  | brelse (i : Fin nbuf)
  deriving DecidableEq, Repr

/-- `struct bcache`, the disk, and for every process the buffers that it has
got from `bread` and not given to `brelse`. -/
structure Machine (Process Data : Type) where
  buf : Fin nbuf → Buf Process Data
  next : Node → Node
  prev : Node → Node
  disk : Nat → Data
  disksize : Nat
  control : Process → Control
  held : Process → List (Fin nbuf)

inductive Action (Process Data : Type) where
  | bget (p : Process) (blockno : Nat)
  | acquiresleep (p : Process)
  | bread (p : Process)
  | bwrite (p : Process) (i : Fin nbuf) (data : Data)
  | logWrite (p : Process) (i : Fin nbuf) (data : Data)
  | brelse (p : Process) (i : Fin nbuf)
  | unref (p : Process)
  deriving DecidableEq

namespace Machine

variable {Process Data : Type} [DecidableEq Process]

def setBuf (m : Machine Process Data) (i : Fin nbuf)
    (buf : Buf Process Data) : Machine Process Data :=
  { m with buf := Function.update m.buf i buf }

def setControl (m : Machine Process Data) (p : Process) (control : Control) :
    Machine Process Data :=
  { m with control := Function.update m.control p control }

def setHeld (m : Machine Process Data) (p : Process)
    (held : List (Fin nbuf)) : Machine Process Data :=
  { m with held := Function.update m.held p held }

/-- `b->dev == dev && b->blockno == blockno`. -/
def caches (m : Machine Process Data) (dev blockno : Nat) : Node → Bool
  | some i => (m.buf i).dev = dev ∧ (m.buf i).blockno = blockno
  | none => false

/-- `b->refcnt == 0 && (b->flags & B_DIRTY) == 0`. -/
def unused (m : Machine Process Data) : Node → Bool
  | some i => (m.buf i).refcnt = 0 ∧ (m.buf i).dirty = false
  | none => false

/-- The critical section of `bget`. -/
def bget (m : Machine Process Data) (p : Process) (dev blockno : Nat) :
    Except Fault (Machine Process Data) :=
  match search m.next none (m.caches dev blockno) (nbuf + 1) (m.next none) with
  | some (some (some i)) =>
      .ok ((m.setBuf i { m.buf i with refcnt := (m.buf i).refcnt + 1 }).setControl
        p (.acquiresleep i blockno))
  | some _ =>
      match search m.prev none m.unused (nbuf + 1) (m.prev none) with
      | some (some (some i)) =>
          .ok ((m.setBuf i
            { m.buf i with
              dev := dev, blockno := blockno, valid := false, dirty := false,
              refcnt := 1 }).setControl p (.acquiresleep i blockno))
      | some _ => .error (.panic "bget: no buffers")
      | none => .error .hang
  | none => .error .hang

/-- `iderw`. -/
def iderw (m : Machine Process Data) (p : Process) (i : Fin nbuf) :
    Except Fault (Machine Process Data) :=
  let b := m.buf i
  if b.lock ≠ some p then .error (.panic "iderw: buf not locked")
  else if b.valid = true ∧ b.dirty = false then
    .error (.panic "iderw: nothing to do")
  else if b.dev ≠ 1 then .error (.panic "iderw: request not for disk 1")
  else if m.disksize ≤ b.blockno then
    .error (.panic "iderw: block out of range")
  else if b.dirty then
    .ok
      { m.setBuf i { b with dirty := false, valid := true } with
        disk := Function.update m.disk b.blockno b.data }
  else .ok (m.setBuf i { b with data := m.disk b.blockno, valid := true })

/-- `bread` behind `bget`. -/
def bread (m : Machine Process Data) (p : Process) (i : Fin nbuf) :
    Except Fault (Machine Process Data) := do
  let filled := if (m.buf i).valid then .ok m else m.iderw p i
  let m ← filled
  .ok ((m.setControl p .idle).setHeld p (i :: m.held p))

/-- `memmove` into the buffer and `bwrite`. -/
def bwrite (m : Machine Process Data) (p : Process) (i : Fin nbuf)
    (data : Data) : Except Fault (Machine Process Data) :=
  if (m.buf i).lock ≠ some p then .error (.panic "bwrite")
  else (m.setBuf i { m.buf i with data := data, dirty := true }).iderw p i

/-- A change of the contents and `log_write`: `b->flags |= B_DIRTY`. -/
def logWrite (m : Machine Process Data) (i : Fin nbuf) (data : Data) :
    Machine Process Data :=
  m.setBuf i { m.buf i with data := data, dirty := true }

/-- `brelse` up to `acquire(&bcache.lock)`. -/
def brelse (m : Machine Process Data) (p : Process) (i : Fin nbuf) :
    Except Fault (Machine Process Data) :=
  if (m.buf i).lock ≠ some p then .error (.panic "brelse")
  else
    .ok (((m.setBuf i { m.buf i with lock := none }).setControl p
      (.brelse i)).setHeld p ((m.held p).erase i))

/-- The list surgery of `brelse`: `b->next->prev = b->prev`,
`b->prev->next = b->next`, `b->next = bcache.head.next`,
`b->prev = &bcache.head`, `bcache.head.next->prev = b` and
`bcache.head.next = b`. -/
def moveToFront (m : Machine Process Data) (i : Fin nbuf) :
    Machine Process Data :=
  let b : Node := some i
  let m := { m with prev := Function.update m.prev (m.next b) (m.prev b) }
  let m := { m with next := Function.update m.next (m.prev b) (m.next b) }
  let m := { m with next := Function.update m.next b (m.next none) }
  let m := { m with prev := Function.update m.prev b none }
  let m := { m with prev := Function.update m.prev (m.next none) b }
  { m with next := Function.update m.next none b }

/-- The critical section of `brelse`. -/
def unref (m : Machine Process Data) (p : Process) (i : Fin nbuf) :
    Machine Process Data :=
  let refcnt := (m.buf i).refcnt - 1
  let m := (m.setBuf i { m.buf i with refcnt := refcnt }).setControl p .idle
  if refcnt = 0 then m.moveToFront i else m

/-- The outcome of a step, or nothing when the process cannot take it.
Callers change only buffers that they hold. -/
def fire (m : Machine Process Data) :
    Action Process Data → Option (Except Fault (Machine Process Data))
  | .bget p blockno =>
      if m.control p = .idle then some (m.bget p rootdev blockno) else none
  | .acquiresleep p =>
      match m.control p with
      | .acquiresleep i blockno =>
          if (m.buf i).lock = none then
            some (.ok ((m.setBuf i { m.buf i with lock := some p }).setControl p
              (.bread i blockno)))
          else none
      | _ => none
  | .bread p =>
      match m.control p with
      | .bread i _ => some (m.bread p i)
      | _ => none
  | .bwrite p i data =>
      if m.control p = .idle ∧ i ∈ m.held p then some (m.bwrite p i data)
      else none
  | .logWrite p i data =>
      if m.control p = .idle ∧ i ∈ m.held p then
        some (.ok (m.logWrite i data))
      else none
  | .brelse p i =>
      if m.control p = .idle then some (m.brelse p i) else none
  | .unref p =>
      match m.control p with
      | .brelse i => some (.ok (m.unref p i))
      | _ => none

def next? (m : Machine Process Data) (action : Action Process Data) :
    Option (Machine Process Data) :=
  (m.fire action).bind Except.toOption

/-- The body of the loop of `binit`: `b->next = bcache.head.next`,
`b->prev = &bcache.head`, `bcache.head.next->prev = b` and
`bcache.head.next = b`. -/
def initBuf (links : (Node → Node) × (Node → Node)) (i : Fin nbuf) :
    (Node → Node) × (Node → Node) :=
  let b : Node := some i
  let next := Function.update links.1 b (links.1 none)
  let prev := Function.update links.2 b none
  let prev := Function.update prev (next none) b
  (Function.update next none b, prev)

/-- The links that `binit` makes.  The links of the buffers are zero before;
no statement of the loop reads them. -/
def binit : (Node → Node) × (Node → Node) :=
  (List.finRange nbuf).foldl initBuf (fun _ => none, fun _ => none)

/-- A machine after `binit`.  The buffers are zero, but their contents may be
anything, since no buffer is valid. -/
structure Booted (m : Machine Process Data) : Prop where
  links : (m.next, m.prev) = binit
  valid : ∀ i, (m.buf i).valid = false
  dirty : ∀ i, (m.buf i).dirty = false
  dev : ∀ i, (m.buf i).dev = 0
  unlocked : ∀ i, (m.buf i).lock = none
  refcnt : ∀ i, (m.buf i).refcnt = 0
  idle : ∀ p, m.control p = .idle
  held : ∀ p, m.held p = []

/-- The machine that starts with a disk. -/
def boot (Process : Type) {Data : Type} (disk : Nat → Data)
    (disksize : Nat) : Machine Process Data where
  buf := fun _ =>
    { valid := false
      dirty := false
      dev := 0
      blockno := 0
      lock := none
      refcnt := 0
      data := disk 0 }
  next := binit.1
  prev := binit.2
  disk := disk
  disksize := disksize
  control := fun _ => .idle
  held := fun _ => []

omit [DecidableEq Process] in
theorem boot_booted (disk : Nat → Data) (disksize : Nat) :
    (boot Process disk disksize).Booted :=
  ⟨rfl, fun _ => rfl, fun _ => rfl, fun _ => rfl, fun _ => rfl,
    fun _ => rfl, fun _ => rfl, fun _ => rfl⟩

end Machine

/-- The cache as a transition system. -/
def system (Process Data : Type) [DecidableEq Process] :
    System (Machine Process Data) (Action Process Data) where
  step before action after := before.fire action = some (.ok after)

theorem Machine.step_of_next {Process Data : Type} [DecidableEq Process]
    {before after : Machine Process Data} {action : Action Process Data}
    (success : before.next? action = some after) :
    (system Process Data).step before action after := by
  obtain ⟨outcome, fired, kept⟩ := Option.bind_eq_some_iff.mp success
  cases outcome with
  | error fault => cases kept
  | ok state =>
      cases kept
      exact fired

end Xv6.Bio
