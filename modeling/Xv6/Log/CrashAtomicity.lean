import Xv6.Log.Recovery

/-!
# Crash atomicity

After a crash at any time, and any number of crashes during recovery, the
blocks at home are those of the initial disk with the first commits applied,
and these are at least the commits whose header had been written.  An
operation lies within one transaction, so all of its writes survive or none.
-/

namespace Xv6.Log

open Lib

/-! ## Operations and their transactions -/

variable {Process : Type} {m after : Machine Process}
  {action : Action Process}
  {history : History (Machine Process) (Action Process)}

theorem opened_cons (other : startsCommit m action = false) :
    opened history ⊆ opened ((m, action) :: history) := by
  cases action with
  | modify p blockno data => exact List.subset_append_left _ _
  | endOp p =>
      have several : m.outstanding ≠ 1 := by
        simpa [startsCommit] using other
      simp [opened, several]
  | _ => exact List.Subset.refl _

theorem commits_cons (other : startsCommit m action = false) :
    commits ((m, action) :: history) = commits history := by
  simp [commits, other]

/-- What is open stays open until it is committed as a whole. -/
theorem commits_append
    (rest history : History (Machine Process) (Action Process)) :
    (commits (rest ++ history) = commits history ∧
      opened history ⊆ opened (rest ++ history)) ∨
    ∃ writes more,
      commits (rest ++ history) = commits history ++ writes :: more ∧
        opened history ⊆ writes := by
  induction rest with
  | nil => exact .inl ⟨rfl, List.Subset.refl _⟩
  | cons entry rest induction =>
      obtain ⟨state, action⟩ := entry
      simp only [List.cons_append, commits]
      rcases induction with ⟨same, isOpen⟩ | ⟨writes, more, grown, inside⟩
      · by_cases starts : startsCommit state action = true ∧
            opened (rest ++ history) ≠ []
        · rw [if_pos starts, same]
          exact .inr ⟨opened (rest ++ history), [], rfl, isOpen⟩
        · rw [if_neg starts, same]
          refine .inl ⟨rfl, ?_⟩
          by_cases isStart : startsCommit state action = true
          · have nothing : opened (rest ++ history) = [] := by
              by_contra something
              exact starts ⟨isStart, something⟩
            rw [nothing] at isOpen
            rw [List.subset_nil.mp isOpen]
            exact List.nil_subset _
          · exact List.Subset.trans isOpen
              (opened_cons (by simpa using isStart))
      · by_cases starts : startsCommit state action = true ∧
            opened (rest ++ history) ≠ []
        · rw [if_pos starts, grown]
          exact .inr ⟨writes, more ++ [opened (rest ++ history)],
            by simp, inside⟩
        · rw [if_neg starts, grown]
          exact .inr ⟨writes, more, rfl, inside⟩

variable [DecidableEq Process] {p q : Process} {value : Control}

private theorem inOp_update (inOp : (m.control p).inOp = true)
    (control : after.control = Function.update m.control q value)
    (own : q = p → value.inOp = true) : (after.control p).inOp = true := by
  rw [control]
  by_cases same : q = p
  · subst q
    rw [Function.update_self]
    exact own rfl
  · rw [Function.update_of_ne (Ne.symm same)]
    exact inOp

variable [Fintype Process]

/-- A process that is inside its operation stays there until it calls
`end_op`, and no commit starts. -/
theorem Effect.operation (grouped : Grouped m)
    (effect : Effect m action after) (inOp : (m.control p).inOp = true)
    (other : action ≠ .endOp p) (runs : action ≠ .crash) :
    (after.control p).inOp = true ∧ startsCommit m action = false := by
  have different : ∀ {q : Process} {control : Control},
      m.control q = control → control.inOp = false → q ≠ p := by
    rintro q control place outside rfl
    rw [place, outside] at inOp
    cases inOp
  cases effect with
  | beginOp | modify | logWrite | absorb | append =>
      exact ⟨inOp_update inOp rfl fun _ => rfl, rfl⟩
  | @endOp q isOp free others =>
      refine ⟨inOp_update inOp rfl ?_, by simp [startsCommit, others]⟩
      rintro rfl
      exact absurd rfl other
  | @commit q isOp free last =>
      have alone := grouped.alone (p := q) (q := p) last (by rw [isOp]; rfl)
        (by rintro rfl; exact other rfl)
      simp [inOp] at alone
  | writeLog control | writeLogDone control | writeHead control
  | installTrans control | installTransDone control | clearHead control
  | finishCommit control =>
      exact ⟨inOp_update inOp rfl fun same =>
        absurd same (different control rfl), rfl⟩
  | crash => exact absurd rfl runs
  | _ => exact ⟨inOp, rfl⟩

/-- All writes of an operation are in the transaction that is open when it
begins. -/
theorem operation_of_run {first state : Machine Process}
    {steps past : History (Machine Process) (Action Process)}
    (booted : first.Booted)
    (run : Run (system Process) first (steps ++ (state, .beginOp p) :: past) m)
    (alive : ∀ entry ∈ steps ++ (state, .beginOp p) :: past,
      entry.2 ≠ .crash)
    (unended : ∀ entry ∈ steps, entry.2 ≠ .endOp p) :
    (m.control p).inOp = true ∧
      commits (steps ++ (state, .beginOp p) :: past) = commits past ∧
      ∀ before blockno data, (before, .modify p blockno data) ∈ steps →
        (blockno, data) ∈ opened (steps ++ (state, .beginOp p) :: past) := by
  induction steps generalizing m with
  | nil =>
      cases run with
      | step previous taken =>
          cases Machine.step_effect taken with
          | beginOp up idle free admitted =>
              refine ⟨?_, rfl, by simp⟩
              simp [Control.inOp]
  | cons entry steps induction =>
      obtain ⟨before, action⟩ := entry
      cases run with
      | step previous taken =>
          have stillAlive : ∀ entry ∈ steps ++ (state, .beginOp p) :: past,
              entry.2 ≠ .crash := by
            intro entry member
            exact alive entry (List.mem_cons_of_mem _ member)
          have stillUnended : ∀ entry ∈ steps, entry.2 ≠ .endOp p := by
            intro entry member
            exact unended entry (List.mem_cons_of_mem _ member)
          obtain ⟨inOp, same, logged⟩ :=
            induction previous stillAlive stillUnended
          have grouped := (journal_of_run booted previous stillAlive).1
          obtain ⟨stays, quiet⟩ := (Machine.step_effect taken).operation
            grouped inOp (unended _ List.mem_cons_self)
            (alive _ List.mem_cons_self)
          refine ⟨stays, ?_, ?_⟩
          · rw [List.cons_append, commits_cons quiet, same]
          · intro state blockno data member
            rcases List.mem_cons.mp member with own | earlier
            · cases own
              simp [opened]
            · exact opened_cons quiet (logged state blockno data earlier)

/-- `steps` are steps of all processes from the beginning of an operation of
`p` on, at most up to its end; `past` is what was before. -/
def OperationIn (history : History (Machine Process) (Action Process))
    (p : Process) (past steps : History (Machine Process) (Action Process)) :
    Prop :=
  ∃ rest state, history = rest ++ (steps ++ (state, .beginOp p) :: past) ∧
    ∀ entry ∈ steps, entry.2 ≠ .endOp p

/-- The first commits of a run have all writes of an operation, in a single
commit, or they are commits from before it. -/
theorem all_or_none {first : Machine Process}
    {history past steps : History (Machine Process) (Action Process)}
    (booted : first.Booted) (run : Run (system Process) first history m)
    (alive : ∀ entry ∈ history, entry.2 ≠ .crash) (k : Nat)
    (operation : OperationIn history p past steps) :
    (∃ writes ∈ (commits history).take k, ∀ before blockno data,
      (before, .modify p blockno data) ∈ steps → (blockno, data) ∈ writes) ∨
    (commits history).take k <+: commits past := by
  obtain ⟨rest, state, rfl, unended⟩ := operation
  obtain ⟨middle, first, _⟩ := run.split
  obtain ⟨_, same, logged⟩ := operation_of_run booted first
    (fun entry member => alive entry (List.mem_append_right _ member)) unended
  rcases commits_append rest (steps ++ (state, .beginOp p) :: past) with
    ⟨unchanged, _⟩ | ⟨writes, more, split, inside⟩
  · right
    rw [unchanged, same]
    exact List.take_prefix _ _
  · rw [split, same]
    by_cases early : k ≤ (commits past).length
    · right
      rw [List.take_append_of_le_length early]
      exact List.take_prefix _ _
    · left
      refine ⟨writes, ?_, ?_⟩
      · obtain ⟨extra, rfl⟩ : ∃ extra,
            k = (commits past).length + (extra + 1) :=
          ⟨k - (commits past).length - 1, by omega⟩
        simp [List.take_length_add_append]
      · intro before blockno data member
        exact inside (logged before blockno data member)

/-! ## Crashes -/

/-- Recovery, interrupted by any number of crashes, ends with a machine that
is up and has the first commits at home, among them every commit whose header
was written.  Each operation is in them as a whole or not at all. -/
theorem crash_atomicity {start before finish : Machine Process}
    {ops recovery : History (Machine Process) (Action Process)}
    (booted : start.Booted)
    (run : Run (system Process) start
      (recovery ++ (before, .crash) :: ops) finish)
    (alive : ∀ entry ∈ ops, entry.2 ≠ .crash)
    (recovers : ∀ entry ∈ recovery, entry.2.recovers = true)
    (done : finish.recovery = .finished) :
    finish.Booted ∧ ∃ k, headWrites ops ≤ k ∧ k ≤ (commits ops).length ∧
      (∀ blockno, Home blockno → finish.disk blockno =
        applyCommits ((commits ops).take k) start.disk blockno) ∧
      ∀ p past steps, OperationIn ops p past steps →
        (∃ writes ∈ (commits ops).take k, ∀ before blockno data,
          (before, .modify p blockno data) ∈ steps →
            (blockno, data) ∈ writes) ∨
        (commits ops).take k <+: commits past := by
  obtain ⟨after, first, crash, second⟩ := run.split_at
  obtain ⟨_, journal⟩ := journal_of_run booted first alive
  obtain ⟨bound, writes, pending⟩ := journal.recoverable
  cases Machine.step_effect crash with
  | crash =>
      have restarting := restarting_of_run (.crash pending) second recovers
      obtain ⟨up, home⟩ := restarting.booted done
      refine ⟨up, headWrites ops, Nat.le_refl _, bound, home, ?_⟩
      intro p past steps operation
      exact all_or_none booted first alive _ operation

/-- Two operations commit; the machine crashes after the header was written
and once more in the middle of recovery. -/
theorem crash_atomicity_twice :
    ∃ (ops recovery : History (Machine (Fin 2)) (Action (Fin 2)))
      (before finish : Machine (Fin 2)),
      Run (system (Fin 2)) (.zeroed (Fin 2))
        (recovery ++ (before, .crash) :: ops) finish ∧
      finish.disk 40 0 = 7 ∧ finish.disk 41 0 = 8 ∧ finish.Booted ∧
      ∃ k, 1 ≤ k ∧ k ≤ (commits ops).length ∧
        ∀ blockno, Home blockno → finish.disk blockno =
          applyCommits ((commits ops).take k) (Machine.zeroed (Fin 2)).disk
            blockno := by
  have passed : (replay Machine.next [] (.zeroed (Fin 2))
      [.beginOp 0, .beginOp 1, .modify 0 40 fun _ => 7, .logWrite 0,
        .modify 1 41 fun _ => 8, .logAppend 0, .endOp 0, .logWrite 1,
        .logAppend 1, .endOp 1, .writeLog 1, .writeLog 1, .writeLog 1,
        .writeHead 1, .crash, .recover, .recover, .crash, .recover, .recover,
        .recover, .recover, .recover]).any
      (fun result => decide (
        result.2.recovery = .finished ∧
        result.2.disk 40 0 = 7 ∧ result.2.disk 41 0 = 8 ∧
        (∀ entry ∈ result.1.take 8, entry.2.recovers = true) ∧
        (∃ entry ∈ (result.1.drop 8).head?, entry.2 = .crash) ∧
        (∀ entry ∈ result.1.drop 9, entry.2 ≠ .crash) ∧
        headWrites (result.1.drop 9) = 1)) = true := by
    decide +kernel
  obtain ⟨history, finish, run, facts⟩ :=
    Run.of_replay Machine.step_of_next passed
  obtain ⟨done, first, second, recovers, ⟨⟨before, action⟩, member, isCrash⟩,
    alive, heads⟩ := of_decide_eq_true facts
  have isCrash : action = .crash := isCrash
  subst isCrash
  have rest : history.drop 8 = (before, .crash) :: history.drop 9 := by
    cases suffix : history.drop 8 with
    | nil => simp [suffix] at member
    | cons entry past =>
        have tail : history.drop 9 = past := by
          rw [← List.tail_drop, suffix, List.tail_cons]
        simp [suffix] at member
        rw [tail, member]
  have split : history =
      history.take 8 ++ (before, .crash) :: history.drop 9 := by
    rw [← rest, List.take_append_drop]
  rw [split] at run
  obtain ⟨up, k, enough, bound, home, _⟩ :=
    crash_atomicity Machine.zeroed_booted run alive recovers done
  have heads : headWrites (history.drop 9) = 1 := heads
  rw [heads] at enough
  exact ⟨history.drop 9, history.take 8, before, finish, run, first, second,
    up, k, enough, bound, home⟩

end Xv6.Log
