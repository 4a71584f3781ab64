import Xv6.Lib.Run
import Xv6.Lib.WrappingRing
import Xv6.Param

/-!
# The console, `kernel/console.c`

`consoleintr` and `consoleread`, with the indices of `input` modulo `2 ^ 32`.
A label is one character from the keyboard, or a piece of `consoleread`: a
turn of its loop, from the moment it has `cons.lock` to the moment it sleeps.
A process that sleeps may get the lock at any time when it is free.

Beside the source the machine keeps what was typed, in terms of characters and
not of indices, and a log of what readers took out of the buffer.
-/

namespace Xv6.Console

open Lib

/-- `INPUT_BUF`. -/
def inputBuf : Nat := 128

def shape : RingShape where
  capacity := inputBuf
  modulus := 2 ^ 32
  positive := by decide
  divides := ⟨2 ^ 25, by decide⟩
  smaller := by decide

def newline : UInt8 := 10

/-- `C('D')`. -/
def endOfFile : UInt8 := 4

/-- `input`: the read, the write and the edit index. -/
structure Input where
  buf : Fin inputBuf → UInt8
  r : Nat
  w : Nat
  e : Nat

/-- The difference of two indices, as a `uint`. -/
def distance (low high : Nat) : Nat := (high + 2 ^ 32 - low) % 2 ^ 32

namespace Input

variable (input : Input)

/-- `input.e--`. -/
def back : Input := { input with e := uintAdd input.e (2 ^ 32 - 1) }

/-- `input.buf[(input.e-1) % INPUT_BUF]`. -/
def last : UInt8 := input.buf (shape.cell (uintAdd input.e (2 ^ 32 - 1)))

/-- The loop of `C('U')`, which goes around at most `e - w` times. -/
def kill : Nat → Input → Input
  | 0, input => input
  | turns + 1, input =>
      if input.e ≠ input.w ∧ input.last ≠ newline then kill turns input.back
      else input

/-- `input.buf[input.e++ % INPUT_BUF] = c`. -/
def insert (c : UInt8) : Input :=
  { input with
    buf := Function.update input.buf (shape.cell input.e) c
    e := uintAdd input.e 1 }

/-- `consoleintr`, for one character. -/
def consoleintr (c : UInt8) : Input :=
  if c = 16 then input
  else if c = 21 then input.kill (distance input.w input.e)
  else if c = 8 ∨ c = 127 then
    if input.e ≠ input.w then input.back else input
  else if c ≠ 0 ∧ distance input.r input.e < inputBuf then
    let c := if c = 13 then newline else c
    let input := input.insert c
    if c = newline ∨ c = endOfFile ∨ input.e = uintAdd input.r inputBuf then
      { input with w := input.e }
    else input
  else input

/-- `input.buf[input.r % INPUT_BUF]`. -/
def front : UInt8 := input.buf (shape.cell input.r)

/-- `input.r++`. -/
def advance : Input := { input with r := uintAdd input.r 1 }

/-- `input.r--`. -/
def retreat : Input := { input with r := uintAdd input.r (2 ^ 32 - 1) }

end Input

/-! ## What was typed -/

/-- The characters that readers may have, and those that can be edited. -/
structure Typed where
  committed : List UInt8
  editing : List UInt8

/-- A key is pressed when readers have taken a number of characters. -/
def Typed.press (typed : Typed) (taken : Nat) (c : UInt8) : Typed :=
  if c = 16 then typed
  else if c = 21 then { typed with editing := [] }
  else if c = 8 ∨ c = 127 then
    { typed with editing := typed.editing.dropLast }
  else if c ≠ 0 ∧
      typed.committed.length - taken + typed.editing.length < inputBuf then
    let c := if c = 13 then newline else c
    let editing := typed.editing ++ [c]
    if c = newline ∨ c = endOfFile ∨
        typed.committed.length - taken + editing.length = inputBuf then
      ⟨typed.committed ++ editing, []⟩
    else { typed with editing := editing }
  else typed

/-! ## The machine -/

/-- A call of `consoleread`, with the places that the characters in `dst` have
in the log. -/
structure Call where
  n : Nat
  target : Nat
  dst : List UInt8
  places : List Nat

/-- `running`: in the loop, with `cons.lock`. -/
inductive Control where
  | idle
  | running (call : Call)
  | asleep (call : Call)

/-- The call that a process is in. -/
def Control.call? : Control → Option Call
  | .idle => none
  | .running call => some call
  | .asleep call => some call

/-- `log`: the characters that readers took out of the buffer, ends of file
included.  `returned`: what the calls have returned. -/
structure Machine (Process : Type) where
  input : Input
  lock : Option Process
  control : Process → Control
  typed : Typed
  log : List UInt8
  returned : List (List Nat × List UInt8)

inductive Action (Process : Type) where
  | consoleintr (c : UInt8)
  | consoleread (p : Process) (n : Nat)
  | run (p : Process)
  | wake (p : Process)

namespace Machine

variable {Process : Type} [DecidableEq Process] (m : Machine Process)

def setControl (p : Process) (control : Control) : Machine Process :=
  { m with control := Function.update m.control p control }

/-- A call ends. -/
def finish (p : Process) (call : Call) : Machine Process :=
  { m.setControl p .idle with
    lock := none
    returned := m.returned ++ [(call.places, call.dst)] }

/-- A character leaves the buffer. -/
def take (c : UInt8) : Machine Process :=
  { m with input := m.input.advance, log := m.log ++ [c] }

/-- One turn of the loop of `consoleread`. -/
def turn (p : Process) (call : Call) : Machine Process :=
  if call.n = 0 then m.finish p call
  else if m.input.r = m.input.w then
    { m.setControl p (.asleep call) with lock := none }
  else
    let c := m.input.front
    if c = endOfFile then
      if call.n < call.target then
        { m with input := m.input.advance.retreat }.finish p call
      else (m.take c).finish p call
    else
      let call : Call :=
        ⟨call.n - 1, call.target, call.dst ++ [c],
          call.places ++ [m.log.length]⟩
      if c = newline then (m.take c).finish p call
      else (m.take c).setControl p (.running call)

/-- What an action does.  `none` is an action that is not possible. -/
def next : Action Process → Option (Machine Process)
  | .consoleintr c =>
      if m.lock = none then
        some { m with
          input := m.input.consoleintr c
          typed := m.typed.press m.log.length c }
      else none
  | .consoleread p n =>
      match m.control p with
      | .idle =>
          if m.lock = none then
            some { m.setControl p (.running ⟨n, n, [], []⟩) with lock := some p }
          else none
      | _ => none
  | .run p =>
      match m.control p with
      | .running call => if m.lock = some p then some (m.turn p call) else none
      | _ => none
  | .wake p =>
      match m.control p with
      | .asleep call =>
          if m.lock = none then
            some { m.setControl p (.running call) with lock := some p }
          else none
      | _ => none

end Machine

/-- Nothing was typed, and nobody reads. -/
structure Machine.Initial {Process : Type} (m : Machine Process) : Prop where
  small : m.input.r < 2 ^ 32
  w : m.input.w = m.input.r
  e : m.input.e = m.input.r
  lock : m.lock = none
  control : ∀ p, m.control p = .idle
  typed : m.typed = ⟨[], []⟩
  log : m.log = []
  returned : m.returned = []

end Xv6.Console
