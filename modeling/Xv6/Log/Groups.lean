import Xv6.Log.Steps
import Mathlib.Algebra.Order.BigOperators.Group.Finset
import Mathlib.Data.Fintype.BigOperators

/-!
# Group commit

The operations between two commits share one transaction.  `outstanding`
counts the processes inside an operation, a commit starts when it falls to
zero, and no operation begins before the commit is over.  So there is never
more than one commit at a time, and never an operation during a commit.
-/

namespace Xv6.Log

open Lib

/-- Inside an operation. -/
def Control.inOp : Control → Bool
  | .op => true
  | .buffer _ => true
  | .logWrite _ => true
  | _ => false

/-- Inside `commit`, or between `commit` and the end of `end_op`. -/
def Control.commits : Control → Bool
  | .writeLog _ => true
  | .writeHead => true
  | .installTrans _ => true
  | .clearHead => true
  | .committed => true
  | _ => false

/-- What a process contributes to `outstanding`. -/
def Control.count (control : Control) : Int :=
  if control.inOp then 1 else 0

theorem Control.count_nonneg (control : Control) : 0 ≤ control.count := by
  unfold Control.count
  split <;> omega

/-- Changing one summand while the others do not grow. -/
theorem sum_change_le {α : Type*} [Fintype α] [DecidableEq α]
    {before after : α → Int} {p : α}
    (others : ∀ q, q ≠ p → after q ≤ before q) :
    ∑ q, after q ≤ ∑ q, before q + (after p - before p) := by
  have rest : ∑ q ∈ Finset.univ.erase p, after q ≤
      ∑ q ∈ Finset.univ.erase p, before q := by
    apply Finset.sum_le_sum
    intro q member
    exact others q (Finset.ne_of_mem_erase member)
  rw [← Finset.add_sum_erase _ after (Finset.mem_univ p),
    ← Finset.add_sum_erase _ before (Finset.mem_univ p)]
  omega

theorem sum_change {α : Type*} [Fintype α] [DecidableEq α]
    {before after : α → Int} {p : α}
    (others : ∀ q, q ≠ p → after q = before q) :
    ∑ q, after q = ∑ q, before q + (after p - before p) := by
  have grows : ∑ q, after q ≤ ∑ q, before q + (after p - before p) :=
    sum_change_le fun q different => (others q different).le
  have shrinks : ∑ q, before q ≤ ∑ q, after q + (before p - after p) :=
    sum_change_le fun q different => (others q different).ge
  omega

theorem Control.inOp_of_commits {control : Control}
    (commits : control.commits = true) : control.inOp = false := by
  cases control <;> simp_all [Control.commits, Control.inOp]

theorem Control.inOp_of_held {control : Control} {blockno : Nat}
    (held : control.held = some blockno) : control.inOp = true := by
  cases control <;> simp_all [Control.held, Control.inOp]

variable {Process : Type} [Fintype Process]

/-- The invariant of group commit. -/
structure Grouped (m : Machine Process) : Prop where
  counted : m.outstanding = ∑ p, (m.control p).count
  committing : m.committing = true ↔ ∃ p, (m.control p).commits = true
  single : ∀ p q, (m.control p).commits = true →
    (m.control q).commits = true → p = q
  quiet : m.committing = true → ∀ p, (m.control p).inOp = false
  exclusive : ∀ p q blockno, m.Holds p blockno → m.Holds q blockno → p = q
  down : m.recovery ≠ .finished → ∀ p, m.control p = .idle

namespace Grouped

variable {m after : Machine Process} {p q : Process} {value : Control}

/-- An operation that is not the only one is counted besides it. -/
theorem count_le (grouped : Grouped m) (inOp : (m.control p).inOp = true) :
    1 ≤ m.outstanding := by
  have single : (m.control p).count ≤ ∑ q, (m.control q).count := by
    apply Finset.single_le_sum (f := fun q => (m.control q).count)
    · intro q _
      exact (m.control q).count_nonneg
    · exact Finset.mem_univ p
  rw [grouped.counted]
  simpa [Control.count, inOp] using single

theorem free_of_inOp (grouped : Grouped m)
    (inOp : (m.control p).inOp = true) : m.committing = false := by
  by_contra running
  have quiet := grouped.quiet (by simpa using running) p
  simp [inOp] at quiet

theorem committing_of (grouped : Grouped m)
    (commits : (m.control p).commits = true) : m.committing = true :=
  grouped.committing.mpr ⟨p, commits⟩

/-- Steps that leave the processes alone. -/
theorem frame (grouped : Grouped m) (control : after.control = m.control)
    (outstanding : after.outstanding = m.outstanding)
    (committing : after.committing = m.committing)
    (recovery : m.recovery = .finished → after.recovery = .finished) :
    Grouped after := by
  constructor
  · rw [outstanding, control]
    exact grouped.counted
  · rw [committing, control]
    exact grouped.committing
  · rw [control]
    exact grouped.single
  · rw [committing, control]
    exact grouped.quiet
  · unfold Machine.Holds
    rw [control]
    exact grouped.exclusive
  · intro down
    rw [control]
    exact grouped.down fun up => down (recovery up)

/-- A machine without processes at work. -/
theorem rest (idle : ∀ p, m.control p = .idle) (none : m.outstanding = 0)
    (free : m.committing = false) : Grouped m := by
  constructor
  · simp [none, idle, Control.count, Control.inOp]
  · simp [free, idle, Control.commits]
  · intro p q commits
    simp [idle, Control.commits] at commits
  · simp [free]
  · intro p q blockno holds
    simp [Machine.Holds, idle, Control.held] at holds
  · exact fun _ => idle

variable [DecidableEq Process]

theorem alone (grouped : Grouped m) (last : m.outstanding = 1)
    (inOp : (m.control p).inOp = true) (different : q ≠ p) :
    (m.control q).inOp = false := by
  by_contra other
  have otherInOp : (m.control q).inOp = true := by simpa using other
  have total := grouped.counted
  rw [← Finset.add_sum_erase _ _ (Finset.mem_univ p)] at total
  have second : (m.control q).count ≤
      ∑ r ∈ Finset.univ.erase p, (m.control r).count := by
    apply Finset.single_le_sum (f := fun q => (m.control q).count)
    · intro r _
      exact (m.control r).count_nonneg
    · simp [different]
  simp only [Control.count, inOp, otherInOp, if_true] at total second
  omega

section Move

variable (control : after.control = Function.update m.control p value)

include control

omit [Fintype Process] in
private theorem moved_own : after.control p = value := by
  rw [control, Function.update_self]

omit [Fintype Process] in
private theorem moved_other (different : q ≠ p) :
    after.control q = m.control q := by
  rw [control, Function.update_of_ne different]

variable (grouped : Grouped m)

include grouped

private theorem moved_committing
    (committing : after.committing =
      (value.commits || (m.committing && !(m.control p).commits))) :
    after.committing = true ↔ ∃ q, (after.control q).commits = true := by
  rw [committing]
  constructor
  · intro running
    by_cases commits : value.commits = true
    · exact ⟨p, by rw [moved_own control, commits]⟩
    · simp only [commits, Bool.false_or, Bool.and_eq_true,
        Bool.not_eq_true'] at running
      obtain ⟨q, already⟩ := grouped.committing.mp running.1
      have different : q ≠ p := by
        rintro rfl
        simp [already] at running
      exact ⟨q, by rw [moved_other control different, already]⟩
  · rintro ⟨q, commits⟩
    by_cases same : q = p
    · subst q
      rw [moved_own control] at commits
      simp [commits]
    · rw [moved_other control same] at commits
      have idle : (m.control p).commits = false := by
        by_contra both
        exact same (grouped.single q p commits (by simpa using both))
      simp [grouped.committing_of commits, idle]

private theorem moved_single
    (solo : value.commits = true → (m.control p).commits = true ∨
      m.committing = false ∧ ∀ q, q ≠ p → (m.control q).inOp = false)
    (q r : Process) (qCommits : (after.control q).commits = true)
    (rCommits : (after.control r).commits = true) : q = r := by
  have conflict : ∀ q, q ≠ p → value.commits = true →
      (m.control q).commits = true → False := by
    intro q different commits already
    rcases solo commits with before | ⟨free, _⟩
    · exact different (grouped.single q p already before)
    · simp [grouped.committing_of already] at free
  by_cases qSame : q = p
  · subst q
    by_cases rSame : r = p
    · exact rSame.symm
    · rw [moved_own control] at qCommits
      rw [moved_other control rSame] at rCommits
      exact (conflict r rSame qCommits rCommits).elim
  · rw [moved_other control qSame] at qCommits
    by_cases rSame : r = p
    · subst r
      rw [moved_own control] at rCommits
      exact (conflict q qSame rCommits qCommits).elim
    · rw [moved_other control rSame] at rCommits
      exact grouped.single q r qCommits rCommits

private theorem moved_quiet
    (committing : after.committing =
      (value.commits || (m.committing && !(m.control p).commits)))
    (solo : value.commits = true → (m.control p).commits = true ∨
      m.committing = false ∧ ∀ q, q ≠ p → (m.control q).inOp = false)
    (enters : value.inOp = true → m.committing = false)
    (running : after.committing = true) (q : Process) :
    (after.control q).inOp = false := by
  rw [committing] at running
  by_cases commits : value.commits = true
  · by_cases same : q = p
    · subst q
      rw [moved_own control]
      exact Control.inOp_of_commits commits
    · rw [moved_other control same]
      rcases solo commits with before | ⟨_, alone⟩
      · exact grouped.quiet (grouped.committing_of before) q
      · exact alone q same
  · simp only [commits, Bool.false_or, Bool.and_eq_true] at running
    by_cases same : q = p
    · subst q
      rw [moved_own control]
      by_contra inside
      simp [enters (by simpa using inside)] at running
    · rw [moved_other control same]
      exact grouped.quiet running.1 q

private theorem moved_exclusive
    (held : ∀ blockno, value.held = some blockno →
      m.Holds p blockno ∨ ∀ q, ¬ m.Holds q blockno)
    (q r : Process) (blockno : Nat) (qHolds : after.Holds q blockno)
    (rHolds : after.Holds r blockno) : q = r := by
  have conflict : ∀ q, q ≠ p → after.Holds p blockno →
      m.Holds q blockno → False := by
    intro q different holds already
    unfold Machine.Holds at holds
    rw [moved_own control] at holds
    rcases held blockno holds with before | unheld
    · exact different (grouped.exclusive q p blockno already before)
    · exact unheld q already
  have keeps : ∀ q, q ≠ p → after.Holds q blockno → m.Holds q blockno := by
    intro q different holds
    unfold Machine.Holds at holds ⊢
    rwa [moved_other control different] at holds
  by_cases qSame : q = p
  · subst q
    by_cases rSame : r = p
    · exact rSame.symm
    · exact (conflict r rSame qHolds (keeps r rSame rHolds)).elim
  · by_cases rSame : r = p
    · subst r
      exact (conflict q qSame rHolds (keeps q qSame qHolds)).elim
    · exact grouped.exclusive q r blockno (keeps q qSame qHolds)
        (keeps r rSame rHolds)

/-- One process goes on to `value`. -/
theorem move
    (recovery : after.recovery = m.recovery)
    (up : m.control p ≠ .idle ∨ m.recovery = .finished)
    (outstanding : after.outstanding =
      m.outstanding + (value.count - (m.control p).count))
    (committing : after.committing =
      (value.commits || (m.committing && !(m.control p).commits)))
    (solo : value.commits = true → (m.control p).commits = true ∨
      m.committing = false ∧ ∀ q, q ≠ p → (m.control q).inOp = false)
    (enters : value.inOp = true → m.committing = false)
    (held : ∀ blockno, value.held = some blockno →
      m.Holds p blockno ∨ ∀ q, ¬ m.Holds q blockno) :
    Grouped after where
  counted := by
    have total : ∑ q, (after.control q).count =
        ∑ q, (m.control q).count +
          ((after.control p).count - (m.control p).count) := by
      apply sum_change
      intro q different
      rw [moved_other control different]
    rw [outstanding, total, moved_own control, grouped.counted]
  committing := moved_committing control grouped committing
  single := moved_single control grouped solo
  quiet := moved_quiet control grouped committing solo enters
  exclusive := moved_exclusive control grouped held
  down := by
    intro down
    rw [recovery] at down
    rcases up with busy | finished
    · exact absurd (grouped.down down p) busy
    · exact absurd finished down

end Move

/-- A process goes on inside its operation. -/
theorem inside (grouped : Grouped m)
    (control : after.control = Function.update m.control p value)
    (recovery : after.recovery = m.recovery)
    (outstanding : after.outstanding = m.outstanding)
    (committing : after.committing = m.committing)
    (before : (m.control p).inOp = true) (later : value.inOp = true)
    (held : ∀ blockno, value.held = some blockno →
      m.Holds p blockno ∨ ∀ q, ¬ m.Holds q blockno) :
    Grouped after := by
  have free := grouped.free_of_inOp before
  have notCommits : value.commits = false := by
    by_contra commits
    simp [Control.inOp_of_commits (by simpa using commits)] at later
  refine Grouped.move control grouped recovery (.inl ?_) ?_ ?_ ?_ ?_ held
  · intro idle
    simp [idle, Control.inOp] at before
  · simp [outstanding, Control.count, before, later]
  · simp [committing, free, notCommits]
  · simp [notCommits]
  · exact fun _ => free

/-- A process goes on inside `commit`. -/
theorem advance (grouped : Grouped m)
    (control : after.control = Function.update m.control p value)
    (recovery : after.recovery = m.recovery)
    (outstanding : after.outstanding = m.outstanding)
    (committing : after.committing = m.committing)
    (before : (m.control p).commits = true)
    (later : value.commits = true) : Grouped after := by
  have running := grouped.committing_of before
  have notBefore := Control.inOp_of_commits before
  have notLater := Control.inOp_of_commits later
  refine Grouped.move control grouped recovery (.inl ?_) ?_ ?_ ?_ ?_ ?_
  · intro idle
    simp [idle, Control.commits] at before
  · simp [outstanding, Control.count, notBefore, notLater]
  · simp [committing, running, later]
  · exact fun _ => .inl before
  · simp [notLater]
  · cases value <;> simp_all [Control.commits, Control.held]

end Grouped

variable [DecidableEq Process] {m after : Machine Process}
  {action : Action Process}

theorem Effect.grouped (grouped : Grouped m)
    (effect : Effect m action after) : Grouped after := by
  cases effect with
  | beginOp up idle free admitted =>
      refine Grouped.move rfl grouped rfl (.inr up) ?_ ?_ ?_ ?_ ?_
      · simp [idle, Control.count, Control.inOp]
      · simp [free, idle, Control.commits]
      · simp [Control.commits]
      · exact fun _ => free
      · simp [Control.held]
  | modify inOp home unheld reads cached =>
      refine grouped.inside rfl rfl rfl rfl (by rw [inOp]; rfl) rfl ?_
      intro other holds
      cases holds
      exact .inr unheld
  | logWrite holds small counted =>
      refine grouped.inside rfl rfl rfl rfl (by rw [holds]; rfl) rfl ?_
      intro other isHeld
      cases isHeld
      left
      unfold Machine.Holds
      rw [holds]
      rfl
  | absorb holds | append holds =>
      exact grouped.inside rfl rfl rfl rfl (by rw [holds]; rfl) rfl
        (by simp [Control.held])
  | endOp inOp free others =>
      refine Grouped.move rfl grouped rfl (.inl (by simp [inOp])) ?_ ?_ ?_ ?_ ?_
      · simp only [inOp, Control.count, Control.inOp]
        rfl
      · simp [free, Control.commits]
      · simp [Control.commits]
      · exact fun _ => free
      · simp [Control.held]
  | @commit p inOp free last =>
      have isInOp : (m.control p).inOp = true := by simp [inOp, Control.inOp]
      have commits : (if m.lh = [] then Control.committed
          else .writeLog 0).commits = true := by
        split <;> rfl
      have notInOp := Control.inOp_of_commits commits
      refine Grouped.move rfl grouped rfl (.inl (by simp [inOp])) ?_ ?_ ?_ ?_ ?_
      · simp only [Control.count, isInOp, notInOp, last]
        rfl
      · simp [commits]
      · intro _
        exact .inr ⟨free, fun q different =>
          grouped.alone last isInOp different⟩
      · simp [notInOp]
      · intro blockno holds
        split at holds <;> cases holds
  | writeLog control | writeLogDone control | writeHead control
  | installTrans control | installTransDone control | clearHead control =>
      exact grouped.advance rfl rfl rfl rfl (by rw [control]; rfl) rfl
  | finishCommit control =>
      refine Grouped.move rfl grouped rfl (.inl (by simp [control]))
        ?_ ?_ ?_ ?_ ?_
      · simp [control, Control.count, Control.inOp]
      · simp [control, Control.commits]
      · simp [Control.commits]
      · simp [Control.inOp]
      · simp [Control.held]
  | bread | recycle => exact grouped.frame rfl rfl rfl id
  | crash => exact .rest (fun _ => rfl) rfl rfl
  | recoverReadHead recovery | recoverInstallTrans recovery
  | recoverInstallTransDone recovery =>
      exact grouped.frame rfl rfl rfl (by simp [recovery])
  | recoverClearHead recovery reads cached =>
      exact grouped.frame rfl rfl rfl fun _ => rfl

end Xv6.Log
