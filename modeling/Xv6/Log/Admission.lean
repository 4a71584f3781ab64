import Xv6.Log.Groups
import Mathlib.Algebra.BigOperators.Ring.Finset
import Mathlib.Data.Finset.Option
import Mathlib.Tactic.Linarith

/-!
# Admission to the log

`begin_op` reserves `MAXOPBLOCKS` blocks for each operation and admits as many
operations as `LOGSIZE` has room for.  `log_write` gives up earlier: `mkfs`
counts the header among the `LOGSIZE` blocks of the log, and the test comes
before the search for a block that is already recorded.  The history of a run
says which blocks the operations log, and with it when a call of `log_write`
panics and which operations keep it from panicking.
-/

namespace Xv6.Log

open Lib

variable {Process : Type}

/-! ## What the operations log -/

/-- The blocks recorded in the transaction that is open. -/
def recorded : History (Machine Process) (Action Process) → Finset Nat
  | [] => ∅
  | (m, action) :: past =>
      match action with
      | .logAppend p => recorded past ∪ (m.control p).held.toFinset
      | .endOp _ => if m.outstanding = 1 then ∅ else recorded past
      | .crash => ∅
      | _ => recorded past

/-- The blocks on which `p` has called `log_write` since its last
`begin_op`. -/
def calls [DecidableEq Process] :
    History (Machine Process) (Action Process) → Process → Finset Nat
  | [], _ => ∅
  | (m, action) :: past, p =>
      match action with
      | .beginOp q => if q = p then ∅ else calls past p
      | .logWrite q =>
          if q = p then calls past p ∪ (m.control p).held.toFinset
          else calls past p
      | _ => calls past p

/-- No operation logs more than `budget` distinct blocks. -/
def WithinBudget [DecidableEq Process] (budget : Nat)
    (history : History (Machine Process) (Action Process)) : Prop :=
  ∀ past ∈ history.tails, ∀ p, (calls past p).card ≤ budget

instance [DecidableEq Process] [Fintype Process] (budget : Nat)
    (history : History (Machine Process) (Action Process)) :
    Decidable (WithinBudget budget history) :=
  inferInstanceAs (Decidable (∀ past ∈ history.tails, ∀ _, _))

theorem WithinBudget.here [DecidableEq Process] {budget : Nat}
    {history : History (Machine Process) (Action Process)}
    (within : WithinBudget budget history) (p : Process) :
    (calls history p).card ≤ budget :=
  within history (by simp) p

theorem WithinBudget.before [DecidableEq Process] {budget : Nat}
    {history : History (Machine Process) (Action Process)}
    {entry : Machine Process × Action Process}
    (within : WithinBudget budget (entry :: history)) :
    WithinBudget budget history := by
  intro past member
  apply within
  simp only [List.tails_cons, List.mem_cons]
  exact .inr member

/-- Operations may run. -/
def Machine.Open (m : Machine Process) : Prop :=
  m.committing = false ∧ m.recovery = .finished

/-! ## The blocks in `log.lh` -/

/-- While operations run, `log.lh` has the blocks recorded, each once.  It is
empty when a commit is over and while there is no operation. -/
structure Recorded (history : History (Machine Process) (Action Process))
    (m : Machine Process) : Prop where
  logged : m.Open → m.lh.Nodup ∧ m.lh.toFinset = recorded history
  cleared : ¬ m.Open → recorded history = ∅
  emptied : ∀ p, m.control p = .committed → m.lh = []
  unused : m.Open → m.outstanding = 0 → m.lh = []

variable {history : History (Machine Process) (Action Process)}
  {m after : Machine Process} {action : Action Process} {p q : Process}
  {value : Control}

theorem Recorded.card (recordedIn : Recorded history m) (isOpen : m.Open) :
    (recorded history).card = m.lh.length := by
  obtain ⟨distinct, same⟩ := recordedIn.logged isOpen
  rw [← same, List.toFinset_card_of_nodup distinct]

namespace Recorded

/-- Steps that leave the log alone. -/
theorem frame (recordedIn : Recorded history m)
    (same : recorded ((m, action) :: history) = recorded history)
    (lh : after.lh = m.lh) (isOpen : after.Open ↔ m.Open)
    (unused : after.Open → after.outstanding = 0 → m.outstanding = 0)
    (control : ∀ q, after.control q = .committed →
      m.control q = .committed) :
    Recorded ((m, action) :: history) after := by
  constructor
  · intro running
    rw [lh, same]
    exact recordedIn.logged (isOpen.mp running)
  · intro closed
    rw [same]
    exact recordedIn.cleared fun running => closed (isOpen.mpr running)
  · intro q committed
    rw [lh]
    exact recordedIn.emptied q (control q committed)
  · intro running none
    rw [lh]
    exact recordedIn.unused (isOpen.mp running) (unused running none)

/-- The log while no operation runs. -/
theorem closed (closed : ¬ m.Open) (nothing : recorded history = ∅)
    (emptied : ∀ q, m.control q = .committed → m.lh = []) :
    Recorded history m :=
  ⟨fun running => absurd running closed, fun _ => nothing, emptied,
    fun running => absurd running closed⟩

/-- The log when operations may run again. -/
theorem reopened (empty : m.lh = []) (nothing : recorded history = ∅) :
    Recorded history m := by
  constructor
  · intro _
    simp [empty, nothing]
  · exact fun _ => nothing
  · exact fun _ _ => empty
  · exact fun _ _ => empty

end Recorded

section

variable [Fintype Process]

theorem Grouped.isOpen (grouped : Grouped m)
    (inOp : (m.control p).inOp = true) : m.Open := by
  refine ⟨grouped.free_of_inOp inOp, ?_⟩
  by_contra down
  rw [grouped.down down p] at inOp
  cases inOp

theorem Grouped.outstanding_nonneg (grouped : Grouped m) :
    0 ≤ m.outstanding := by
  rw [grouped.counted]
  exact Finset.sum_nonneg fun q _ => (m.control q).count_nonneg

theorem Grouped.not_open (grouped : Grouped m)
    (commits : (m.control p).commits = true) : ¬ m.Open := by
  intro running
  have committing := grouped.committing_of commits
  simp [running.1] at committing

/-- Recovery before its last step. -/
private theorem recorded_recovery (grouped : Grouped m)
    (recordedIn : Recorded history m) (before : m.recovery ≠ .finished)
    (later : after.recovery ≠ .finished)
    (control : after.control = m.control)
    (same : recorded ((m, action) :: history) = recorded history) :
    Recorded ((m, action) :: history) after := by
  refine .closed (fun running => later running.2) ?_ ?_
  · rw [same]
    exact recordedIn.cleared fun running => before running.2
  · intro q committed
    rw [control, grouped.down before q] at committed
    cases committed

end

section

variable [DecidableEq Process]

private theorem committed_update
    (control : after.control = Function.update m.control p value)
    (other : value ≠ .committed) (q : Process)
    (committed : after.control q = .committed) :
    m.control q = .committed := by
  rw [control] at committed
  by_cases same : q = p
  · subst q
    rw [Function.update_self] at committed
    exact absurd committed other
  · rwa [Function.update_of_ne same] at committed

theorem Effect.recorded [Fintype Process] (grouped : Grouped m)
    (recordedIn : Recorded history m) (effect : Effect m action after) :
    Recorded ((m, action) :: history) after := by
  cases effect with
  | beginOp up idle free admitted =>
      refine recordedIn.frame rfl rfl Iff.rfl ?_
        (committed_update rfl (by simp))
      intro _ none
      have positive := grouped.outstanding_nonneg
      have none : m.outstanding + 1 = 0 := none
      omega
  | modify | logWrite | writeLog | writeLogDone | writeHead | installTrans
  | installTransDone =>
      exact recordedIn.frame rfl rfl Iff.rfl (fun _ => id)
        (committed_update rfl (by simp))
  | @absorb p blockno holds logged =>
      have running := grouped.isOpen (p := p) (by rw [holds]; rfl)
      have inside : blockno ∈ Log.recorded history := by
        rw [← (recordedIn.logged running).2]
        simpa using logged
      refine recordedIn.frame ?_ rfl Iff.rfl (fun _ => id)
        (committed_update rfl (by simp))
      simp [Log.recorded, holds, Control.held, inside]
  | @append p blockno holds fresh room =>
      have inOp : (m.control p).inOp = true := by rw [holds]; rfl
      have running := grouped.isOpen inOp
      obtain ⟨distinct, same⟩ := recordedIn.logged running
      constructor
      · intro _
        constructor
        · exact List.nodup_append_comm.mp (distinct.cons fresh)
        · simp [Log.recorded, holds, Control.held, same]
      · intro closed
        exact absurd running closed
      · intro q committed
        have before := committed_update rfl (by simp) q committed
        exact absurd running (grouped.not_open (p := q) (by rw [before]; rfl))
      · intro _ none
        have counted := grouped.count_le inOp
        have none : m.outstanding = 0 := none
        omega
  | endOp inOp free others =>
      refine recordedIn.frame (by simp [Log.recorded, others]) rfl Iff.rfl ?_
        (committed_update rfl (by simp))
      intro _ none
      have none : m.outstanding - 1 = 0 := none
      omega
  | @commit p inOp free last =>
      refine .closed (by simp [Machine.Open]) (by simp [Log.recorded, last]) ?_
      intro q committed
      by_cases same : q = p
      · subst q
        simp only [Function.update_self] at committed
        by_contra some
        have some : m.lh ≠ [] := some
        rw [if_neg some] at committed
        cases committed
      · simp only [Function.update_of_ne same] at committed
        exact recordedIn.emptied q committed
  | clearHead control =>
      exact .reopened rfl
        (recordedIn.cleared (grouped.not_open (by rw [control]; rfl)))
  | finishCommit control =>
      exact .reopened (recordedIn.emptied _ control)
        (recordedIn.cleared (grouped.not_open (by rw [control]; rfl)))
  | bread | recycle =>
      exact recordedIn.frame rfl rfl Iff.rfl (fun _ => id) fun _ => id
  | crash =>
      refine .closed (by simp [Machine.Open, Machine.crash]) rfl ?_
      intro q committed
      cases committed
  | recoverReadHead recovery | recoverInstallTrans recovery
  | recoverInstallTransDone recovery =>
      exact recorded_recovery grouped recordedIn (by simp [recovery])
        (by simp) rfl rfl
  | recoverClearHead recovery =>
      have closed : ¬ m.Open := by simp [Machine.Open, recovery]
      exact .reopened rfl (recordedIn.cleared closed)

end

/-! ## What is reserved -/

section

variable [DecidableEq Process] {budget : Nat}

/-- What is left of the budget of an operation, where only the blocks in the
log count. -/
def share (budget : Nat)
    (history : History (Machine Process) (Action Process))
    (m : Machine Process) (p : Process) : Int :=
  if (m.control p).inOp then
    budget - (calls history p ∩ m.lh.toFinset).card
  else 0

theorem share_le : share budget history m p ≤
    budget * (m.control p).count := by
  unfold share Control.count
  split <;> omega

theorem share_mono
    {later : History (Machine Process) (Action Process)}
    (inOp : (after.control p).inOp = (m.control p).inOp)
    (grows : calls history p ⊆ calls later p) (lh : m.lh ⊆ after.lh) :
    share budget later after p ≤ share budget history m p := by
  have more : (calls history p ∩ m.lh.toFinset).card ≤
      (calls later p ∩ after.lh.toFinset).card := by
    apply Finset.card_le_card
    apply Finset.inter_subset_inter grows
    intro blockno member
    simp only [List.mem_toFinset] at member ⊢
    exact lh member
  unfold share
  rw [inOp]
  split <;> omega

theorem share_nonneg (within : (calls history p).card ≤ budget) :
    0 ≤ share budget history m p := by
  have fewer : (calls history p ∩ m.lh.toFinset).card ≤
      (calls history p).card :=
    Finset.card_le_card Finset.inter_subset_left
  unfold share
  split <;> omega

variable [Fintype Process]

/-- The blocks in the log and what the operations may add to them. -/
structure Reserved (budget : Nat)
    (history : History (Machine Process) (Action Process))
    (m : Machine Process) : Prop where
  called : ∀ p blockno, m.control p = .logWrite blockno →
    blockno ∈ calls history p
  room : m.Open →
    m.lh.length + ∑ p, share budget history m p ≤ maxOpBlocks + 2 * budget

private theorem called_update (reserved : Reserved budget history m)
    (control : after.control = Function.update m.control p value)
    (grows : ∀ q, q ≠ p →
      calls ((m, action) :: history) q = calls history q)
    (own : ∀ blockno, value = .logWrite blockno →
      blockno ∈ calls ((m, action) :: history) p)
    (q : Process) (blockno : Nat)
    (holds : after.control q = .logWrite blockno) :
    blockno ∈ calls ((m, action) :: history) q := by
  rw [control] at holds
  by_cases isOwn : q = p
  · subst q
    rw [Function.update_self] at holds
    exact own blockno holds
  · rw [Function.update_of_ne isOwn] at holds
    rw [grows q isOwn]
    exact reserved.called q blockno holds

namespace Reserved

/-- Steps by which no operation gets more to add. -/
theorem mono (reserved : Reserved budget history m)
    (isOpen : after.Open → m.Open) (lh : after.lh = m.lh)
    (shares : ∀ q, share budget ((m, action) :: history) after q ≤
      share budget history m q)
    (called : ∀ q blockno, after.control q = .logWrite blockno →
      blockno ∈ calls ((m, action) :: history) q) :
    Reserved budget ((m, action) :: history) after := by
  refine ⟨called, ?_⟩
  intro running
  have total := Finset.sum_le_sum fun q (_ : q ∈ Finset.univ) => shares q
  have before := reserved.room (isOpen running)
  rw [lh]
  omega

/-- A process goes on inside its operation without a call of `log_write`. -/
theorem inside (reserved : Reserved budget history m)
    (same : ∀ q, calls ((m, action) :: history) q = calls history q)
    (isOpen : after.Open → m.Open) (lh : after.lh = m.lh)
    (control : after.control = Function.update m.control p value)
    (before : (m.control p).inOp = true) (later : value.inOp = true)
    (other : ∀ blockno, value ≠ .logWrite blockno) :
    Reserved budget ((m, action) :: history) after := by
  apply reserved.mono isOpen lh
  · intro q
    apply share_mono
    · rw [control]
      by_cases isOwn : q = p
      · subst q
        rw [Function.update_self, before, later]
      · rw [Function.update_of_ne isOwn]
    · rw [same]
    · rw [lh]
      exact List.Subset.refl _
  · exact called_update reserved control (fun q _ => same q)
      fun blockno holds => absurd holds (other blockno)

/-- There is no operation. -/
theorem quiet (idle : ∀ q, (m.control q).inOp = false)
    (empty : m.Open → m.lh = []) : Reserved budget history m := by
  constructor
  · intro q blockno holds
    have outside := idle q
    rw [holds] at outside
    cases outside
  · intro running
    simp only [empty running, share, idle]
    simp
    omega

theorem committing (grouped : Grouped m) (running : m.committing = true) :
    Reserved budget history m := by
  apply Reserved.quiet (grouped.quiet running)
  intro isOpen
  simp [isOpen.1] at running

theorem down (grouped : Grouped m) (down : m.recovery ≠ .finished) :
    Reserved budget history m := by
  apply Reserved.quiet
  · intro q
    rw [grouped.down down q]
    rfl
  · intro isOpen
    exact absurd isOpen.2 down

end Reserved

/-- Operations have no more than their budgets left. -/
theorem sum_share_le (grouped : Grouped m) :
    ∑ p, share budget history m p ≤ budget * m.outstanding := by
  rw [grouped.counted, Finset.mul_sum]
  exact Finset.sum_le_sum fun p _ => share_le

private theorem reserved_beginOp (grouped : Grouped m)
    (recordedIn : Recorded history m) (reserved : Reserved budget history m)
    (small : budget ≤ maxOpBlocks) (isOpen : m.Open)
    (idle : m.control p = .idle)
    (admitted : m.lh.length + (m.outstanding + 1) * maxOpBlocks ≤ logSize)
    (control : after.control = Function.update m.control p .op)
    (lh : after.lh = m.lh) :
    Reserved budget ((m, .beginOp p) :: history) after := by
  have others : ∀ q, q ≠ p →
      calls ((m, .beginOp p) :: history) q = calls history q := by
    intro q different
    simp [calls, Ne.symm different]
  refine ⟨called_update reserved control others (by simp), ?_⟩
  intro _
  have before : share budget history m p = 0 := by
    simp [share, idle, Control.inOp]
  have later : share budget ((m, .beginOp p) :: history) after p =
      budget := by
    simp [share, control, Control.inOp, calls]
  have total : ∑ q, share budget ((m, .beginOp p) :: history) after q ≤
      ∑ q, share budget history m q +
        (share budget ((m, .beginOp p) :: history) after p -
          share budget history m p) := by
    apply sum_change_le
    intro q different
    apply share_mono
    · rw [control, Function.update_of_ne different]
    · rw [others q different]
    · rw [lh]
      exact List.Subset.refl _
  have bound : ∑ q, share budget history m q ≤ budget * m.outstanding :=
    sum_share_le grouped
  rw [lh]
  by_cases none : m.outstanding = 0
  · rw [none] at bound
    rw [recordedIn.unused isOpen none, List.length_nil]
    omega
  · have some : 1 ≤ m.outstanding := by
      have positive := grouped.outstanding_nonneg
      omega
    have whole : (logSize : Int) = 3 * maxOpBlocks := rfl
    have spared :
        0 ≤ (m.outstanding - 1) * ((maxOpBlocks : Int) - budget) := by
      apply Int.mul_nonneg <;> omega
    calc
      m.lh.length +
          ∑ q, share budget ((m, .beginOp p) :: history) after q
        ≤ m.lh.length + (m.outstanding + 1) * budget := by linarith
      _ ≤ maxOpBlocks + 2 * budget := by linarith

private theorem reserved_logWrite {blockno : Nat}
    (reserved : Reserved budget history m)
    (holds : m.control p = .buffer blockno) :
    Reserved budget ((m, .logWrite p) :: history)
      (m.setControl p (.logWrite blockno)) := by
  have grows : calls ((m, .logWrite p) :: history) p =
      insert blockno (calls history p) := by
    simp [calls, holds, Control.held, Finset.union_comm]
  have others : ∀ q, q ≠ p →
      calls ((m, .logWrite p) :: history) q = calls history q := by
    intro q different
    simp [calls, Ne.symm different]
  refine reserved.mono id rfl ?_ ?_
  · intro q
    by_cases isOwn : q = p
    · subst q
      apply share_mono
      · simp [Machine.setControl, holds, Control.inOp]
      · rw [grows]
        exact Finset.subset_insert _ _
      · exact List.Subset.refl _
    · apply share_mono
      · simp [Machine.setControl, isOwn]
      · rw [others q isOwn]
      · exact List.Subset.refl _
  · apply called_update reserved rfl others
    intro other same
    cases same
    rw [grows]
    exact Finset.mem_insert_self _ _

private theorem reserved_append {blockno : Nat}
    (reserved : Reserved budget history m)
    (isOpen : after.Open → m.Open)
    (holds : m.control p = .logWrite blockno) (fresh : blockno ∉ m.lh)
    (control : after.control = Function.update m.control p .op)
    (lh : after.lh = m.lh ++ [blockno]) :
    Reserved budget ((m, .logAppend p) :: history) after := by
  have same : ∀ q, calls ((m, .logAppend p) :: history) q =
      calls history q := fun _ => rfl
  refine ⟨called_update reserved control (fun q _ => same q) (by simp), ?_⟩
  intro running
  have own : share budget ((m, .logAppend p) :: history) after p + 1 ≤
      share budget history m p := by
    have grows : insert blockno (calls history p ∩ m.lh.toFinset) ⊆
        calls history p ∩ after.lh.toFinset := by
      apply Finset.insert_subset
      · simp [reserved.called p blockno holds, lh]
      · apply Finset.inter_subset_inter_left
        simp [lh]
    have more := Finset.card_le_card grows
    rw [Finset.card_insert_of_notMem (by simp [fresh])] at more
    simp only [share, control, Function.update_self, holds, Control.inOp,
      same, if_true]
    omega
  have total : ∑ q, share budget ((m, .logAppend p) :: history) after q ≤
      ∑ q, share budget history m q +
        (share budget ((m, .logAppend p) :: history) after p -
          share budget history m p) := by
    apply sum_change_le
    intro q different
    apply share_mono
    · rw [control, Function.update_of_ne different]
    · rw [same]
    · rw [lh]
      exact List.subset_append_left _ _
  have before := reserved.room (isOpen running)
  rw [lh, List.length_append, List.length_singleton]
  push_cast
  omega

private theorem reserved_endOp (reserved : Reserved budget history m)
    (within : (calls history p).card ≤ budget)
    (isOpen : after.Open → m.Open)
    (control : after.control = Function.update m.control p .idle)
    (lh : after.lh = m.lh) :
    Reserved budget ((m, .endOp p) :: history) after := by
  have same : ∀ q, calls ((m, .endOp p) :: history) q =
      calls history q := fun _ => rfl
  apply reserved.mono isOpen lh
  · intro q
    by_cases isOwn : q = p
    · subst q
      calc
        share budget ((m, .endOp p) :: history) after p = 0 := by
          simp [share, control, Control.inOp]
        _ ≤ share budget history m p := share_nonneg within
    · apply share_mono
      · rw [control, Function.update_of_ne isOwn]
      · rw [same]
      · rw [lh]
        exact List.Subset.refl _
  · exact called_update reserved control (fun q _ => same q) (by simp)

theorem Effect.reserved (grouped : Grouped m)
    (recordedIn : Recorded history m) (reserved : Reserved budget history m)
    (small : budget ≤ maxOpBlocks) (within : WithinBudget budget history)
    (effect : Effect m action after) :
    Reserved budget ((m, action) :: history) after := by
  have groupedAfter := effect.grouped grouped
  cases effect with
  | beginOp up idle free admitted =>
      exact reserved_beginOp grouped recordedIn reserved small ⟨free, up⟩ idle
        admitted rfl rfl
  | modify inOp =>
      exact reserved.inside (fun _ => rfl) id rfl rfl (by rw [inOp]; rfl) rfl
        (by simp)
  | logWrite holds => exact reserved_logWrite reserved holds
  | absorb holds =>
      exact reserved.inside (fun _ => rfl) id rfl rfl (by rw [holds]; rfl) rfl
        (by simp)
  | append holds fresh => exact reserved_append reserved id holds fresh rfl rfl
  | endOp => exact reserved_endOp reserved (within.here _) id rfl rfl
  | commit => exact .committing groupedAfter rfl
  | writeLog control | writeLogDone control | writeHead control
  | installTrans control | installTransDone control | clearHead control =>
      exact .committing groupedAfter
        (grouped.committing_of (by rw [control]; rfl))
  | @finishCommit p control =>
      apply Reserved.quiet
      · intro q
        by_cases isOwn : q = p
        · simp [isOwn, Control.inOp]
        · have running := grouped.committing_of (p := p) (by rw [control]; rfl)
          simpa [isOwn] using grouped.quiet running q
      · intro _
        exact recordedIn.emptied p control
  | bread | recycle =>
      exact reserved.mono id rfl
        (fun _ => share_mono rfl (Finset.Subset.refl _) (List.Subset.refl _))
        reserved.called
  | crash => exact .down groupedAfter (by simp [Machine.crash])
  | recoverReadHead | recoverInstallTrans | recoverInstallTransDone =>
      exact .down groupedAfter (by simp)
  | recoverClearHead recovery =>
      apply Reserved.quiet
      · intro q
        have idle : m.control q = .idle := grouped.down (by simp [recovery]) q
        simp [idle, Control.inOp]
      · exact fun _ => rfl

/-! ## Calls of `log_write` -/

theorem recorded_of_run {first : Machine Process} (booted : first.Booted)
    (run : Run (system Process) first history m) :
    Grouped m ∧ Recorded history m := by
  induction run with
  | refl =>
      exact ⟨.rest booted.idle booted.none booted.free,
        .reopened booted.empty rfl⟩
  | step previous taken induction =>
      obtain ⟨grouped, recordedIn⟩ := induction
      have effect := Machine.step_effect taken
      exact ⟨effect.grouped grouped, effect.recorded grouped recordedIn⟩

theorem reserved_of_run {first : Machine Process} (booted : first.Booted)
    (run : Run (system Process) first history m)
    (small : budget ≤ maxOpBlocks) (within : WithinBudget budget history) :
    Reserved budget history m := by
  induction run with
  | refl =>
      apply Reserved.quiet
      · intro q
        rw [booted.idle q]
        rfl
      · exact fun _ => booted.empty
  | step previous taken induction =>
      obtain ⟨grouped, recordedIn⟩ := recorded_of_run booted previous
      exact (Machine.step_effect taken).reserved grouped recordedIn
        (induction within.before) small within.before

/-- What a call of `log_write` does before it takes the lock. -/
theorem fire_logWrite {blockno : Nat} (grouped : Grouped m)
    (recordedIn : Recorded history m)
    (call : m.control p = .buffer blockno) :
    m.fire (.logWrite p) = some
      (if nlog - 1 ≤ (recorded history).card then
        .error (.panic "too big a transaction")
      else .ok (m.setControl p (.logWrite blockno))) := by
  have inOp : (m.control p).inOp = true := by rw [call]; rfl
  have counted : ¬ m.outstanding < 1 := by
    have positive := grouped.count_le inOp
    omega
  have size : nlog = logSize := rfl
  have larger : logSize ≤ m.lh.length ∨ nlog - 1 ≤ m.lh.length ↔
      nlog - 1 ≤ m.lh.length := by omega
  simp only [Machine.fire, call, Machine.logWrite, if_neg counted, larger,
    recordedIn.card (grouped.isOpen inOp)]

/-- Operations with at most `budget` distinct blocks each have no more than
`MAXOPBLOCKS + 2 * budget` blocks in the log together.  A call of `log_write`
panics exactly when `log.size - 1` blocks are recorded, so it does not if the
operations stay below `MAXOPBLOCKS`. -/
theorem log_admission {start : Machine Process} {blockno : Nat}
    (booted : start.Booted) (run : Run (system Process) start history m)
    (small : budget ≤ maxOpBlocks) (within : WithinBudget budget history)
    (call : m.control p = .buffer blockno) :
    (recorded history).card ≤ maxOpBlocks + 2 * budget ∧
    (m.fire (.logWrite p) = some (.error (.panic "too big a transaction")) ↔
      nlog - 1 ≤ (recorded history).card) ∧
    (budget < maxOpBlocks →
      m.fire (.logWrite p) =
        some (.ok (m.setControl p (.logWrite blockno)))) := by
  obtain ⟨grouped, recordedIn⟩ := recorded_of_run booted run
  have isOpen : m.Open := grouped.isOpen (p := p) (by rw [call]; rfl)
  have fired := fire_logWrite grouped recordedIn call
  have few : (recorded history).card ≤ maxOpBlocks + 2 * budget := by
    have room := (reserved_of_run booted run small within).room isOpen
    have shares : 0 ≤ ∑ q, share budget history m q :=
      Finset.sum_nonneg fun q _ => share_nonneg (within.here q)
    rw [recordedIn.card isOpen]
    omega
  refine ⟨few, ?_, ?_⟩
  · rw [fired]
    split <;> simp_all
  · intro below
    have size : nlog = 3 * maxOpBlocks := rfl
    rw [fired, if_neg (by omega)]

end

/-- An operation that logs one block twice. -/
theorem log_admission_repeated :
    ∃ history m, Run (system (Fin 2)) (.zeroed (Fin 2)) history m ∧
      m.control 0 = .buffer 40 ∧ recorded history = {40} ∧
      m.fire (.logWrite 0) =
        some (.ok (m.setControl 0 (.logWrite 40))) := by
  have passed : (replay Machine.next [] (.zeroed (Fin 2))
      [.beginOp 0, .beginOp 1, .modify 0 40 fun _ => 7, .logWrite 0,
        .logAppend 0, .modify 0 40 fun _ => 8]).any
      (fun result => decide (
        result.2.control 0 = .buffer 40 ∧ recorded result.1 = {40} ∧
        WithinBudget 1 result.1)) = true := by
    decide +kernel
  obtain ⟨history, m, run, facts⟩ :=
    Run.of_replay Machine.step_of_next passed
  obtain ⟨call, isRecorded, within⟩ := of_decide_eq_true facts
  exact ⟨history, m, run, call, isRecorded,
    (log_admission Machine.zeroed_booted run (by decide) within call).2.2
      (by decide)⟩

/-- Three operations with `MAXOPBLOCKS` distinct blocks each are admitted at
once, and the last block of the last one does not fit. -/
theorem log_write_panics :
    ∃ history m, Run (system (Fin 3)) (.zeroed (Fin 3)) history m ∧
      WithinBudget maxOpBlocks history ∧ m.control 2 = .buffer 69 ∧
      (insert 69 (calls history 2)).card = maxOpBlocks ∧
      m.fire (.logWrite 2) =
        some (.error (.panic "too big a transaction")) := by
  have passed : (replay Machine.next [] (.zeroed (Fin 3))
      ([.beginOp 0, .beginOp 1, .beginOp 2] ++
        (List.range 29).flatMap (fun i =>
          [.modify (Fin.ofNat 3 (i / 10)) (40 + i) fun _ => 1,
            .logWrite (Fin.ofNat 3 (i / 10)),
            .logAppend (Fin.ofNat 3 (i / 10))]) ++
        [.modify 2 69 fun _ => 1])).any
      (fun result => decide (
        WithinBudget maxOpBlocks result.1 ∧
        result.2.control 2 = .buffer 69 ∧
        (insert 69 (calls result.1 2)).card = maxOpBlocks ∧
        result.2.lh.length = 29)) = true := by
    decide +kernel
  obtain ⟨history, m, run, facts⟩ :=
    Run.of_replay Machine.step_of_next passed
  obtain ⟨within, call, budget, length⟩ := of_decide_eq_true facts
  have call : m.control 2 = .buffer 69 := call
  have length : m.lh.length = 29 := length
  refine ⟨history, m, run, within, call, budget, ?_⟩
  simp [Machine.fire, call, Machine.logWrite, length, nlog, logSize,
    maxOpBlocks]

end Xv6.Log
