import Xv6.Log.Commits

/-!
# Recovery

`recover_from_log` copies the blocks named by the header home and clears the
header.  Interrupted by any number of crashes, it brings the blocks at home to
what the disk had pending at the first of them, and it never gets stuck.
-/

namespace Xv6.Log

open Lib

variable {Process : Type} {target : Nat → Block} {m after : Machine Process}
  {action : Action Process}

/-- The steps of a machine that recovers. -/
def Action.recovers : Action Process → Bool
  | .crash => true
  | .recover => true
  | .bread _ => true
  | .recycle _ => true
  | _ => false

/-- What is left to do until the blocks at home are those of `target`. -/
inductive Recovering (target : Nat → Block) (m : Machine Process) :
    Recovery → Prop where
  | readHead {writes : Writes Nat Block}
      (pending : redoLog.Pending m.disk writes target) :
      Recovering target m .readHead
  | installTrans {tail : Nat} {writes : Writes Nat Block}
      (addresses : writes.map Prod.fst = m.lh)
      (pending : redoLog.Pending m.disk writes target)
      (installed : redoLog.Installed m.disk writes tail target) :
      Recovering target m (.installTrans tail)
  | clearHead {writes : Writes Nat Block}
      (pending : redoLog.Pending m.disk writes target)
      (done : ∀ blockno, redoLog.Home blockno →
        m.disk blockno = target blockno) :
      Recovering target m .clearHead
  | finished
      (pending : redoLog.Pending m.disk [] target)
      (empty : m.lh = []) :
      Recovering target m .finished

/-- A machine between a crash and its next operation. -/
structure Restarting (target : Nat → Block) (m : Machine Process) :
    Prop where
  none : m.outstanding = 0
  free : m.committing = false
  idle : ∀ p, m.control p = .idle
  clean : Bcache.Clean (fun _ => True) m.disk m.bcache
  stage : Recovering target m m.recovery

namespace Restarting

/-- A crash loses what is in memory. -/
theorem crash {writes : Writes Nat Block}
    (pending : redoLog.Pending m.disk writes target) :
    Restarting target m.crash := by
  refine ⟨rfl, rfl, fun _ => rfl, ?_, .readHead pending⟩
  intro blockno buf _ found
  cases found

end Restarting

theorem Recovering.pending {place : Recovery}
    (recovering : Recovering target m place) :
    ∃ writes, redoLog.Pending m.disk writes target := by
  cases recovering with
  | readHead pending => exact ⟨_, pending⟩
  | installTrans _ pending => exact ⟨_, pending⟩
  | clearHead pending => exact ⟨_, pending⟩
  | finished pending => exact ⟨_, pending⟩

/-- A machine that has recovered. -/
theorem Restarting.booted (restarting : Restarting target m)
    (done : m.recovery = .finished) :
    m.Booted ∧ ∀ blockno, Home blockno →
      m.disk blockno = target blockno := by
  obtain ⟨none, free, idle, clean, stage⟩ := restarting
  rw [done] at stage
  cases stage with
  | finished pending empty =>
      refine ⟨⟨done, pending.header, empty, none, free, idle, clean⟩, ?_⟩
      intro blockno home
      exact pending.result blockno (home_iff.mpr home)

/-- Changes of the cache alone. -/
private theorem recovering_cache {place : Recovery}
    (recovering : Recovering target m place)
    (disk : after.disk = m.disk) (lh : after.lh = m.lh) :
    Recovering target after place := by
  cases recovering with
  | readHead pending =>
      rw [← disk] at pending
      exact .readHead pending
  | installTrans addresses pending installed =>
      rw [← disk] at pending installed
      exact .installTrans (addresses.trans lh.symm) pending installed
  | clearHead pending done =>
      rw [← disk] at pending done
      exact .clearHead pending done
  | finished pending empty =>
      rw [← disk] at pending
      exact .finished pending (lh.trans empty)

variable [DecidableEq Process]

/-- Every step of recovery, and every crash in it, keeps the target. -/
theorem Effect.restarting (restarting : Restarting target m)
    (effect : Effect m action after) (recovers : action.recovers = true) :
    Restarting target after := by
  obtain ⟨none, free, idle, clean, stage⟩ := restarting
  cases effect with
  | bread reads =>
      exact ⟨none, free, idle, clean.reads reads,
        recovering_cache stage rfl rfl⟩
  | recycle =>
      exact ⟨none, free, idle, clean.recycle _,
        recovering_cache stage rfl rfl⟩
  | crash =>
      obtain ⟨writes, pending⟩ := stage.pending
      exact .crash pending
  | recoverReadHead recovery reads header =>
      rw [recovery] at stage
      cases stage with
      | @readHead writes pending =>
          have onDisk : readHeader (m.disk logstart) =
              some (writes.map Prod.fst) := pending.header
          rw [clean.contents trivial, onDisk, Option.some.injEq] at header
          exact ⟨none, free, idle, clean.reads reads,
            .installTrans header pending pending.start⟩
  | recoverInstallTrans recovery found reads cached =>
      rw [recovery] at stage
      cases stage with
      | installTrans addresses pending installed =>
          have slot := slot_clean clean (fun _ _ => trivial) pending addresses
            found
          obtain ⟨pending', installed'⟩ :=
            installed_block pending installed addresses found slot
          exact ⟨none, free, idle, (clean.reads reads).bwrite _ _,
            .installTrans addresses pending' installed'⟩
  | @recoverInstallTransDone tail recovery ended =>
      rw [recovery] at stage
      cases stage with
      | @installTrans _ writes addresses pending installed =>
          have all : writes.length ≤ tail := by
            rw [← addresses] at ended
            simpa using ended
          exact ⟨none, free, idle, clean,
            .clearHead pending (installed.done all)⟩
  | @recoverClearHead cache old recovery reads cached =>
      rw [recovery] at stage
      cases stage with
      | clearHead pending done =>
          exact ⟨none, free, idle, (clean.reads reads).bwrite _ _,
            .finished (RedoLog.pending_clear done old) rfl⟩
  | _ => cases recovers

variable [Fintype Process]

theorem restarting_of_run {first : Machine Process}
    {history : History (Machine Process) (Action Process)}
    (restarting : Restarting target first)
    (run : Run (system Process) first history m)
    (recovers : ∀ entry ∈ history, entry.2.recovers = true) :
    Restarting target m := by
  let condition : Machine Process → Action Process → Prop :=
    fun _ action => action.recovers = true
  have met : ∀ entry ∈ history, condition entry.1 entry.2 := recovers
  apply run.invariant_of_forall met
  · exact restarting
  · intro past before action after _ taken recovers restarting
    exact (Machine.step_effect taken).restarting restarting recovers

/-! ## Recovery can always be completed -/

/-- Nobody refers to a buffer, so that any of them can be recycled. -/
theorem Restarting.recycles {blockno : Nat} {buf : Buf}
    (restarting : Restarting target m)
    (found : m.bcache.find blockno = some buf) :
    (system Process).step m (.recycle blockno)
      { m with bcache := m.bcache.recycle blockno } := by
  have undirtied : buf.dirty = false := by
    rw [restarting.clean blockno buf trivial found]
  have unheld : ∀ q, ¬ m.Holds q blockno := by
    intro q holds
    unfold Machine.Holds at holds
    rw [restarting.idle q] at holds
    cases holds
  change m.fire (.recycle blockno) = _
  simp only [Machine.fire, found]
  rw [if_pos ⟨undirtied, unheld⟩]

end Xv6.Log
