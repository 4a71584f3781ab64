import Mathlib.Algebra.GroupWithZero.Nat
import Mathlib.Algebra.Ring.Int.Defs

/-!
# Constants of `libs/param.h`, integers and faults

The proofs use the values only where the program's behaviour depends on
them; everywhere else the constants stay symbolic.  Code that can stop the
kernel returns an `Except`.
-/

namespace Xv6

/-- `NPROC`: size of the process table. -/
def nproc : Nat := 64

/-- `NPRIO`: number of scheduler levels. -/
def nprio : Nat := 3

/-- `BOOSTTIMER`: clock ticks between two priority boosts. -/
def boostTimer : Nat := 100

/-- `MAXOPBLOCKS`: blocks reserved for one file-system operation. -/
def maxOpBlocks : Nat := 10

/-- `LOGSIZE`: data blocks the log header can name. -/
def logSize : Nat := maxOpBlocks * 3

/-- `NBUF`: buffers of the block cache. -/
def nbuf : Nat := maxOpBlocks * 3

instance : NeZero nproc := ⟨by decide⟩

theorem nprio_pos : 0 < nprio := by decide

/-- Addition of C's `uint`. -/
def uintAdd (left right : Nat) : Nat := (left + right) % 2 ^ 32

/-- The largest `int`. -/
def intMax : Int := 2 ^ 31 - 1

theorem uintAdd_of_lt {left right : Nat} (small : left + right < 2 ^ 32) :
    uintAdd left right = left + right :=
  Nat.mod_eq_of_lt small

/-- What stops the kernel. -/
inductive Fault where
  | nullDereference
  | outOfBounds
  | signedOverflow
  | hang
  | panic (message : String)
  deriving DecidableEq, Repr

/-- A sequence of operations succeeds when each one does. -/
theorem ok_of_bind {α β : Type} {first : Except Fault α}
    {rest : α → Except Fault β} {result : β}
    (success : first >>= rest = .ok result) :
    ∃ value, first = .ok value ∧ rest value = .ok result := by
  cases first with
  | error fault => cases success
  | ok value => exact ⟨value, rfl, success⟩

theorem ok_of_toOption {α : Type} {result : Except Fault α} {value : α}
    (success : result.toOption = some value) : result = .ok value := by
  cases result with
  | error fault => cases success
  | ok other =>
      cases success
      rfl

end Xv6
