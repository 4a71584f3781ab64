import Xv6.Lib.RedoLog
import Xv6.Log.Groups

/-!
# The log as a redo log

The log on the disk is a redo log with `log.size - 1` slots.  The history of a
run says which writes its operations made and how they fall into commits, and
`Journal` says where the contents of these commits are at any time: on the
disk at home, pinned in the cache, in the slots, or named by the header.

`log_write` tests the size without the lock, so that two processes that both
pass the test can append more than `log.size - 1` blocks.  Such a transaction
never gets to the disk.  Its blocks are pinned in the cache, `NBUF` of them,
and `write_log` finds no buffer for its first log block.
-/

namespace Xv6.Log

open Lib

/-! ## The layout -/

theorem readHeader_writeHeader {lh : List Nat} (short : lh.length ≤ logSize)
    (old : Block) : readHeader (writeHeader lh old) = some lh := by
  have length : writeHeader lh old 0 = lh.length := rfl
  unfold readHeader
  rw [length, if_pos short, Option.some.injEq]
  apply List.ext_getElem
  · simp
  · intro i _ inside
    have bound : i + 1 < wordsPerBlock := by
      have small : logSize < wordsPerBlock := by decide
      omega
    simp [writeHeader, Nat.mod_eq_of_lt bound, inside]

/-- The log that `mkfs` lays out. -/
def redoLog : RedoLog Nat Block where
  head := logstart
  slot := logBlock
  capacity := nlog - 1
  encode := writeHeader
  decode := readHeader
  apart := by
    intro i _
    unfold logBlock
    omega
  distinct := by
    intro i j _ _ same
    unfold logBlock at same
    omega
  roundTrip := by
    intro lh old short
    apply readHeader_writeHeader
    unfold nlog at short
    omega

theorem home_iff {blockno : Nat} : redoLog.Home blockno ↔ Home blockno := by
  have positive : 0 < nlog := by decide
  constructor
  · intro home
    by_contra inside
    unfold Home at inside
    have between : logstart < blockno := by
      have different : blockno ≠ logstart := home.1
      omega
    have slot : blockno = logBlock (blockno - logstart - 1) := by
      unfold logBlock
      omega
    refine home.2 (blockno - logstart - 1) ?_ slot
    change _ < nlog - 1
    omega
  · intro home
    unfold Home at home
    constructor
    · change blockno ≠ logstart
      omega
    · intro i inside
      change i < nlog - 1 at inside
      change blockno ≠ logBlock i
      unfold logBlock
      omega

theorem not_home_logBlock {i : Nat} (inside : i < nlog - 1) :
    ¬ Home (logBlock i) := by
  have away : ¬ redoLog.Home (redoLog.slot i) :=
    RedoLog.not_home_slot inside
  exact fun home => away (home_iff.mpr home)

/-! ## What the operations write -/

variable {Process : Type}

/-- A step that starts a commit. -/
def startsCommit (m : Machine Process) : Action Process → Bool
  | .endOp _ => m.outstanding = 1
  | _ => false

/-- The writes of the transaction that is open, oldest first. -/
def opened : History (Machine Process) (Action Process) → Writes Nat Block
  | [] => []
  | (m, action) :: past =>
      match action with
      | .modify _ blockno data => opened past ++ [(blockno, data)]
      | .endOp _ => if m.outstanding = 1 then [] else opened past
      | _ => opened past

/-- The writes of each commit, oldest first.  A commit without writes does
nothing. -/
def commits :
    History (Machine Process) (Action Process) → List (Writes Nat Block)
  | [] => []
  | (m, action) :: past =>
      if startsCommit m action = true ∧ opened past ≠ [] then
        commits past ++ [opened past]
      else commits past

def Action.isWriteHead : Action Process → Bool
  | .writeHead _ => true
  | _ => false

/-- The number of commits whose header has been written. -/
def headWrites (history : History (Machine Process) (Action Process)) : Nat :=
  history.countP fun entry => entry.2.isWriteHead

/-- The contents of the first `count` commits on top of a disk. -/
def applyCommits (transactions : List (Writes Nat Block))
    (disk : Nat → Block) : Nat → Block :=
  Writes.apply transactions.flatten disk

theorem applyCommits_concat (transactions : List (Writes Nat Block))
    (writes : Writes Nat Block) (disk : Nat → Block) :
    applyCommits (transactions ++ [writes]) disk =
      writes.apply (applyCommits transactions disk) := by
  unfold applyCommits
  rw [List.flatten_append, Writes.apply_append]
  simp

/-! ## Where the contents of the commits are -/

/-- No commit is going on.  All commits are at home, and the blocks of the
open transaction are in the cache with the contents written last. -/
structure Resting (start : Nat → Block)
    (history : History (Machine Process) (Action Process))
    (m : Machine Process) : Prop where
  pending : redoLog.Pending m.disk [] (applyCommits (commits history) start)
  heads : headWrites history = (commits history).length
  home : ∀ write ∈ opened history, Home write.1
  logged : ∀ blockno, blockno ∈ (opened history).map Prod.fst ↔
    blockno ∈ m.lh ∨ ∃ p, m.Holds p blockno
  cached : ∀ blockno ∈ (opened history).map Prod.fst, ∃ dirty,
    m.bcache.find blockno =
      some ⟨blockno, (opened history).apply start blockno, dirty⟩
  pinned : ∀ blockno ∈ m.lh, ∃ data,
    m.bcache.find blockno = some ⟨blockno, data, true⟩

/-- The transaction `writes` is on its way to the slots. -/
structure Writing (start : Nat → Block)
    (history : History (Machine Process) (Action Process))
    (m : Machine Process) (writes : Writes Nat Block) (tail : Nat) :
    Prop where
  addresses : writes.map Prod.fst = m.lh
  last : ∃ past final, commits history = past ++ [final] ∧
    headWrites history = past.length ∧
    redoLog.Pending m.disk [] (applyCommits past start) ∧
    ∀ disk, writes.apply disk = final.apply disk
  cached : ∀ write ∈ writes,
    m.bcache.find write.1 = some ⟨write.1, write.2, true⟩
  logged : ∀ i write, i < tail → writes[i]? = some write →
    m.disk (logBlock i) = write.2

/-- Where a commit is, for every place in the code of `commit`. -/
inductive Working (start : Nat → Block)
    (history : History (Machine Process) (Action Process))
    (m : Machine Process) : Control → Prop where
  | writeLog {tail : Nat} {writes : Writes Nat Block}
      (writing : Writing start history m writes tail)
      (some : writes ≠ [])
      (fits : 0 < tail → writes.length ≤ nlog - 1) :
      Working start history m (.writeLog tail)
  | writeHead {tail : Nat} {writes : Writes Nat Block}
      (writing : Writing start history m writes tail)
      (all : writes.length ≤ tail)
      (fits : writes.length ≤ nlog - 1) :
      Working start history m .writeHead
  | installTrans {tail : Nat} {writes : Writes Nat Block}
      (addresses : writes.map Prod.fst = m.lh)
      (heads : headWrites history = (commits history).length)
      (pending : redoLog.Pending m.disk writes
        (applyCommits (commits history) start))
      (installed : redoLog.Installed m.disk writes tail
        (applyCommits (commits history) start)) :
      Working start history m (.installTrans tail)
  | clearHead {writes : Writes Nat Block}
      (heads : headWrites history = (commits history).length)
      (pending : redoLog.Pending m.disk writes
        (applyCommits (commits history) start))
      (done : ∀ blockno, redoLog.Home blockno →
        m.disk blockno = applyCommits (commits history) start blockno) :
      Working start history m .clearHead
  | committed
      (heads : headWrites history = (commits history).length)
      (pending : redoLog.Pending m.disk []
        (applyCommits (commits history) start))
      (empty : m.lh = []) :
      Working start history m .committed

/-- Before a commit, or during one. -/
inductive Phase (start : Nat → Block)
    (history : History (Machine Process) (Action Process))
    (m : Machine Process) : Prop where
  | resting
      (free : m.committing = false)
      (resting : Resting start history m) :
      Phase start history m
  | working {p : Process} {control : Control}
      (place : m.control p = control)
      (nothing : opened history = [])
      (working : Working start history m control) :
      Phase start history m

structure Journal (start : Nat → Block)
    (history : History (Machine Process) (Action Process))
    (m : Machine Process) : Prop where
  up : m.recovery = .finished
  distinct : m.lh.Nodup
  home : ∀ blockno ∈ m.lh, Home blockno
  clean : Bcache.Clean (fun blockno => ¬ Home blockno) m.disk m.bcache
  phase : Phase start history m

theorem Working.commits {start : Nat → Block}
    {history : History (Machine Process) (Action Process)}
    {m : Machine Process} {control : Control}
    (working : Working start history m control) :
    control.commits = true := by
  cases working <;> rfl

namespace Journal

variable [Fintype Process] {start : Nat → Block}
  {history : History (Machine Process) (Action Process)}
  {m after : Machine Process} {p : Process} {control : Control}

theorem resting (journal : Journal start history m) (grouped : Grouped m)
    (free : m.committing = false) : Resting start history m := by
  cases journal.phase with
  | resting _ resting => exact resting
  | @working p control place _ working =>
      have running : m.committing = true :=
        grouped.committing_of (p := p) (by rw [place, working.commits])
      simp [running] at free

theorem working (journal : Journal start history m) (grouped : Grouped m)
    (place : m.control p = control) (isCommitting : control.commits = true) :
    opened history = [] ∧ Working start history m control := by
  have commits : (m.control p).commits = true := by rw [place, isCommitting]
  cases journal.phase with
  | resting free =>
      simp [grouped.committing_of commits] at free
  | @working q control' place' nothing working =>
      have same : q = p :=
        grouped.single q p (by rw [place', working.commits]) commits
      subst q
      rw [← place, place']
      exact ⟨nothing, working⟩

omit [Fintype Process] in
/-- What recovery makes of the disk. -/
theorem recoverable (journal : Journal start history m) :
    headWrites history ≤ (commits history).length ∧
      ∃ writes, redoLog.Pending m.disk writes
        (applyCommits ((commits history).take (headWrites history))
          start) := by
  have all : headWrites history = (commits history).length →
      (commits history).take (headWrites history) = commits history := by
    intro same
    rw [same, List.take_length]
  have before : ∀ {past final},
      commits history = past ++ [final] →
      headWrites history = past.length →
      headWrites history ≤ (commits history).length ∧
        (commits history).take (headWrites history) = past := by
    intro past final split heads
    rw [heads, split, List.take_left]
    simp
  cases journal.phase with
  | resting _ resting =>
      refine ⟨resting.heads.le, [], ?_⟩
      rw [all resting.heads]
      exact resting.pending
  | working _ _ working =>
      cases working with
      | writeLog writing =>
          obtain ⟨past, final, split, heads, pending, _⟩ := writing.last
          obtain ⟨small, same⟩ := before split heads
          rw [same]
          exact ⟨small, [], pending⟩
      | writeHead writing =>
          obtain ⟨past, final, split, heads, pending, _⟩ := writing.last
          obtain ⟨small, same⟩ := before split heads
          rw [same]
          exact ⟨small, [], pending⟩
      | installTrans _ heads pending =>
          rw [all heads]
          exact ⟨heads.le, _, pending⟩
      | clearHead heads pending =>
          rw [all heads]
          exact ⟨heads.le, _, pending⟩
      | committed heads pending =>
          rw [all heads]
          exact ⟨heads.le, _, pending⟩

end Journal

end Xv6.Log
