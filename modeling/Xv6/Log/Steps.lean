import Xv6.Log.Machine

/-!
# What a step of the log can do

`Effect` lists the steps: under which guards a step is taken and what it makes
of the disk, the cache, the log and the processes.  The contents of the cache
are described by what `find` returns, so that later proofs know neither how a
block gets a buffer nor which buffer it is.
-/

namespace Xv6.Log

variable {Process : Type}

open Bcache (Extends)

/-! ## Disk accesses -/

namespace Machine

variable {m after : Machine Process} {blockno tail : Nat} {data : Block}

theorem bread_eq (success : m.bread blockno = .ok (data, after)) :
    data = m.bcache.contents m.disk blockno ∧
      ∃ cache, Extends m.disk m.bcache cache ∧
        cache.find blockno ≠ none ∧ after = { m with bcache := cache } := by
  obtain ⟨⟨value, cache⟩, read, stored⟩ := ok_of_bind success
  cases stored
  obtain ⟨same, reads, cached⟩ := Bcache.bread_eq read
  exact ⟨same, cache, reads, cached, rfl⟩

theorem writeLog_eq (success : m.writeLog tail blockno = .ok after) :
    ∃ cache, Extends m.disk m.bcache cache ∧
      cache.find (logBlock tail) ≠ none ∧
      after = { m with bcache := cache }.bwrite (logBlock tail)
        (m.bcache.contents m.disk blockno) := by
  obtain ⟨⟨_, middle⟩, first, rest⟩ := ok_of_bind success
  obtain ⟨⟨data, last⟩, second, stored⟩ := ok_of_bind rest
  obtain ⟨_, cache, reads, cached, rfl⟩ := bread_eq first
  obtain ⟨rfl, cache', reads', _, rfl⟩ := bread_eq second
  cases stored
  refine ⟨cache', reads.trans reads', ?_, ?_⟩
  · obtain ⟨buf, found⟩ := Option.ne_none_iff_exists'.mp cached
    simp [reads'.keeps found]
  · rw [← reads.contents]

theorem installTrans_eq (success : m.installTrans tail blockno = .ok after) :
    ∃ cache, Extends m.disk m.bcache cache ∧ cache.find blockno ≠ none ∧
      after = { m with bcache := cache }.bwrite blockno
        (m.bcache.contents m.disk (logBlock tail)) := by
  obtain ⟨⟨data, middle⟩, first, rest⟩ := ok_of_bind success
  obtain ⟨⟨_, last⟩, second, stored⟩ := ok_of_bind rest
  obtain ⟨rfl, cache, reads, _, rfl⟩ := bread_eq first
  obtain ⟨_, cache', reads', cached, rfl⟩ := bread_eq second
  cases stored
  exact ⟨cache', reads.trans reads', cached, rfl⟩

theorem writeHead_eq (success : m.writeHead = .ok after) :
    ∃ cache old, Extends m.disk m.bcache cache ∧
      cache.find logstart ≠ none ∧
      after = { m with bcache := cache }.bwrite logstart
        (writeHeader m.lh old) := by
  obtain ⟨⟨old, middle⟩, first, stored⟩ := ok_of_bind success
  obtain ⟨_, cache, reads, cached, rfl⟩ := bread_eq first
  cases stored
  exact ⟨cache, old, reads, cached, rfl⟩

theorem readHead_eq (success : m.readHead = .ok after) :
    ∃ cache lh, Extends m.disk m.bcache cache ∧
      readHeader (m.bcache.contents m.disk logstart) = some lh ∧
      after = { m with bcache := cache, lh := lh } := by
  obtain ⟨⟨block, middle⟩, first, rest⟩ := ok_of_bind success
  obtain ⟨rfl, cache, reads, _, rfl⟩ := bread_eq first
  cases header : readHeader (m.bcache.contents m.disk logstart) with
  | none => simp [header] at rest
  | some lh =>
      simp only [header] at rest
      cases rest
      exact ⟨cache, lh, reads, rfl, rfl⟩

end Machine

variable [DecidableEq Process]

/-- The steps that do not fault. -/
inductive Effect (m : Machine Process) :
    Action Process → Machine Process → Prop where
  | beginOp {p : Process}
      (up : m.recovery = .finished)
      (idle : m.control p = .idle)
      (free : m.committing = false)
      (admitted : m.lh.length + (m.outstanding + 1) * maxOpBlocks ≤ logSize) :
      Effect m (.beginOp p)
        { m with
          outstanding := m.outstanding + 1
          control := Function.update m.control p .op }
  | modify {p : Process} {blockno : Nat} {data : Block} {cache : Bcache}
      (inOp : m.control p = .op)
      (home : Home blockno)
      (unheld : ∀ q, ¬ m.Holds q blockno)
      (reads : Extends m.disk m.bcache cache)
      (cached : cache.find blockno ≠ none) :
      Effect m (.modify p blockno data)
        { m with
          bcache := cache.update blockno fun buf => { buf with data := data }
          control := Function.update m.control p (.buffer blockno) }
  | logWrite {p : Process} {blockno : Nat}
      (holds : m.control p = .buffer blockno)
      (small : m.lh.length < nlog - 1)
      (counted : 1 ≤ m.outstanding) :
      Effect m (.logWrite p) (m.setControl p (.logWrite blockno))
  | absorb {p : Process} {blockno : Nat}
      (holds : m.control p = .logWrite blockno)
      (logged : blockno ∈ m.lh) :
      Effect m (.logAppend p)
        { m with
          bcache := m.bcache.update blockno fun buf =>
            { buf with dirty := true }
          control := Function.update m.control p .op }
  | append {p : Process} {blockno : Nat}
      (holds : m.control p = .logWrite blockno)
      (fresh : blockno ∉ m.lh)
      (room : m.lh.length < logSize) :
      Effect m (.logAppend p)
        { m with
          lh := m.lh ++ [blockno]
          bcache := m.bcache.update blockno fun buf =>
            { buf with dirty := true }
          control := Function.update m.control p .op }
  | endOp {p : Process}
      (inOp : m.control p = .op)
      (free : m.committing = false)
      (others : m.outstanding ≠ 1) :
      Effect m (.endOp p)
        { m with
          outstanding := m.outstanding - 1
          control := Function.update m.control p .idle }
  | commit {p : Process}
      (inOp : m.control p = .op)
      (free : m.committing = false)
      (last : m.outstanding = 1) :
      Effect m (.endOp p)
        { m with
          outstanding := 0
          committing := true
          control := Function.update m.control p
            (if m.lh = [] then .committed else .writeLog 0) }
  | writeLog {p : Process} {tail blockno : Nat} {cache : Bcache}
      (control : m.control p = .writeLog tail)
      (found : m.lh[tail]? = some blockno)
      (reads : Extends m.disk m.bcache cache)
      (cached : cache.find (logBlock tail) ≠ none) :
      Effect m (.writeLog p)
        { m with
          disk := Function.update m.disk (logBlock tail)
            (m.bcache.contents m.disk blockno)
          bcache := cache.update (logBlock tail) fun buf =>
            { buf with
              data := m.bcache.contents m.disk blockno, dirty := false }
          control := Function.update m.control p (.writeLog (tail + 1)) }
  | writeLogDone {p : Process} {tail : Nat}
      (control : m.control p = .writeLog tail)
      (ended : m.lh[tail]? = none) :
      Effect m (.writeLog p) (m.setControl p .writeHead)
  | writeHead {p : Process} {cache : Bcache} {old : Block}
      (control : m.control p = .writeHead)
      (reads : Extends m.disk m.bcache cache)
      (cached : cache.find logstart ≠ none) :
      Effect m (.writeHead p)
        { m with
          disk := Function.update m.disk logstart (writeHeader m.lh old)
          bcache := cache.update logstart fun buf =>
            { buf with data := writeHeader m.lh old, dirty := false }
          control := Function.update m.control p (.installTrans 0) }
  | installTrans {p : Process} {tail blockno : Nat} {cache : Bcache}
      (control : m.control p = .installTrans tail)
      (found : m.lh[tail]? = some blockno)
      (reads : Extends m.disk m.bcache cache)
      (cached : cache.find blockno ≠ none) :
      Effect m (.installTrans p)
        { m with
          disk := Function.update m.disk blockno
            (m.bcache.contents m.disk (logBlock tail))
          bcache := cache.update blockno fun buf =>
            { buf with
              data := m.bcache.contents m.disk (logBlock tail)
              dirty := false }
          control := Function.update m.control p
            (.installTrans (tail + 1)) }
  | installTransDone {p : Process} {tail : Nat}
      (control : m.control p = .installTrans tail)
      (ended : m.lh[tail]? = none) :
      Effect m (.installTrans p) (m.setControl p .clearHead)
  | clearHead {p : Process} {cache : Bcache} {old : Block}
      (control : m.control p = .clearHead)
      (reads : Extends m.disk m.bcache cache)
      (cached : cache.find logstart ≠ none) :
      Effect m (.clearHead p)
        { m with
          disk := Function.update m.disk logstart (writeHeader [] old)
          bcache := cache.update logstart fun buf =>
            { buf with data := writeHeader [] old, dirty := false }
          lh := []
          control := Function.update m.control p .committed }
  | finishCommit {p : Process}
      (control : m.control p = .committed) :
      Effect m (.finishCommit p)
        { m with
          committing := false
          control := Function.update m.control p .idle }
  | bread {blockno : Nat} {cache : Bcache}
      (reads : Extends m.disk m.bcache cache) :
      Effect m (.bread blockno) { m with bcache := cache }
  | recycle {blockno : Nat} {buf : Buf}
      (found : m.bcache.find blockno = some buf)
      (clean : buf.dirty = false)
      (unheld : ∀ q, ¬ m.Holds q blockno) :
      Effect m (.recycle blockno)
        { m with bcache := m.bcache.recycle blockno }
  | crash :
      Effect m .crash m.crash
  | recoverReadHead {cache : Bcache} {lh : List Nat}
      (recovery : m.recovery = .readHead)
      (reads : Extends m.disk m.bcache cache)
      (header : readHeader (m.bcache.contents m.disk logstart) = some lh) :
      Effect m .recover
        { m with
          bcache := cache
          lh := lh
          recovery := .installTrans 0 }
  | recoverInstallTrans {tail blockno : Nat} {cache : Bcache}
      (recovery : m.recovery = .installTrans tail)
      (found : m.lh[tail]? = some blockno)
      (reads : Extends m.disk m.bcache cache)
      (cached : cache.find blockno ≠ none) :
      Effect m .recover
        { m with
          disk := Function.update m.disk blockno
            (m.bcache.contents m.disk (logBlock tail))
          bcache := cache.update blockno fun buf =>
            { buf with
              data := m.bcache.contents m.disk (logBlock tail)
              dirty := false }
          recovery := .installTrans (tail + 1) }
  | recoverInstallTransDone {tail : Nat}
      (recovery : m.recovery = .installTrans tail)
      (ended : m.lh[tail]? = none) :
      Effect m .recover { m with recovery := .clearHead }
  | recoverClearHead {cache : Bcache} {old : Block}
      (recovery : m.recovery = .clearHead)
      (reads : Extends m.disk m.bcache cache)
      (cached : cache.find logstart ≠ none) :
      Effect m .recover
        { m with
          disk := Function.update m.disk logstart (writeHeader [] old)
          bcache := cache.update logstart fun buf =>
            { buf with data := writeHeader [] old, dirty := false }
          lh := []
          recovery := .finished }

/-! ## Every step has an effect -/

namespace Machine

variable {m after : Machine Process} {p : Process} {blockno tail : Nat}
  {data : Block}

private theorem effect_modify (inOp : m.control p = .op)
    (home : Home blockno) (unheld : ∀ q, ¬ m.Holds q blockno)
    (success : m.modify p blockno data = .ok after) :
    Effect m (.modify p blockno data) after := by
  obtain ⟨⟨_, middle⟩, first, stored⟩ := ok_of_bind success
  obtain ⟨_, cache, reads, cached, rfl⟩ := bread_eq first
  cases stored
  exact .modify inOp home unheld reads cached

private theorem effect_logWrite (holds : m.control p = .buffer blockno)
    (success : m.logWrite p blockno = .ok after) :
    Effect m (.logWrite p) after := by
  unfold logWrite at success
  split at success
  · cases success
  · rename_i large
    split at success
    · cases success
    · rename_i counted
      cases success
      exact .logWrite holds (by omega) (by omega)

private theorem effect_logAppend (holds : m.control p = .logWrite blockno)
    (success : m.logAppend p blockno = .ok after) :
    Effect m (.logAppend p) after := by
  obtain ⟨lh, grown, stored⟩ := ok_of_bind success
  cases stored
  unfold appended at grown
  split at grown
  · rename_i logged
    cases grown
    exact .absorb holds logged
  · rename_i fresh
    split at grown
    · rename_i room
      cases grown
      exact .append holds fresh room
    · cases grown

private theorem effect_endOp (inOp : m.control p = .op)
    (success : m.endOp p = .ok after) : Effect m (.endOp p) after := by
  unfold endOp at success
  split at success
  · cases success
  · rename_i running
    have free : m.committing = false := by simpa using running
    split at success
    · rename_i last
      cases success
      rw [last]
      exact .commit inOp free (by omega)
    · rename_i others
      cases success
      exact .endOp inOp free (by omega)

private theorem effect_recover (success : m.recover = .ok after)
    (up : m.recovery ≠ .finished) : Effect m .recover after := by
  unfold recover at success
  cases recovery : m.recovery with
  | readHead =>
      simp only [recovery] at success
      obtain ⟨middle, first, stored⟩ := ok_of_bind success
      obtain ⟨cache, lh, reads, header, rfl⟩ := readHead_eq first
      cases stored
      exact .recoverReadHead recovery reads header
  | installTrans tail =>
      simp only [recovery] at success
      cases found : m.lh[tail]? with
      | some blockno =>
          simp only [found] at success
          obtain ⟨middle, first, stored⟩ := ok_of_bind success
          obtain ⟨cache, reads, cached, rfl⟩ := installTrans_eq first
          cases stored
          exact .recoverInstallTrans recovery found reads cached
      | none =>
          simp only [found] at success
          cases success
          exact .recoverInstallTransDone recovery found
  | clearHead =>
      simp only [recovery] at success
      obtain ⟨middle, first, stored⟩ := ok_of_bind success
      obtain ⟨cache, old, reads, cached, rfl⟩ := writeHead_eq first
      cases stored
      exact .recoverClearHead recovery reads cached
  | finished => exact absurd recovery up

private theorem effect_writeLog [Fintype Process]
    (fired : m.fire (.writeLog p) = some (.ok after)) :
    Effect m (.writeLog p) after := by
  simp only [fire] at fired
  cases control : m.control p with
  | writeLog tail =>
      simp only [control] at fired
      cases found : m.lh[tail]? with
      | some blockno =>
          simp only [found, Option.some.injEq] at fired
          obtain ⟨middle, first, stored⟩ := ok_of_bind fired
          obtain ⟨cache, reads, cached, rfl⟩ := writeLog_eq first
          cases stored
          exact .writeLog control found reads cached
      | none =>
          simp only [found, Option.some.injEq] at fired
          cases fired
          exact .writeLogDone control found
  | _ => simp [control] at fired

private theorem effect_installTrans [Fintype Process]
    (fired : m.fire (.installTrans p) = some (.ok after)) :
    Effect m (.installTrans p) after := by
  simp only [fire] at fired
  cases control : m.control p with
  | installTrans tail =>
      simp only [control] at fired
      cases found : m.lh[tail]? with
      | some blockno =>
          simp only [found, Option.some.injEq] at fired
          obtain ⟨middle, first, stored⟩ := ok_of_bind fired
          obtain ⟨cache, reads, cached, rfl⟩ := installTrans_eq first
          cases stored
          exact .installTrans control found reads cached
      | none =>
          simp only [found, Option.some.injEq] at fired
          cases fired
          exact .installTransDone control found
  | _ => simp [control] at fired

/-- Every step that does not fault is one of `Effect`. -/
theorem step_effect [Fintype Process] {action : Action Process}
    (taken : (system Process).step m action after) :
    Effect m action after := by
  have fired : m.fire action = some (.ok after) := taken
  cases action with
  | beginOp p =>
      simp only [fire] at fired
      split at fired
      · rename_i guard
        cases fired
        exact .beginOp guard.1 guard.2.1 guard.2.2.1 guard.2.2.2
      · cases fired
  | modify p blockno data =>
      simp only [fire] at fired
      split at fired
      · rename_i guard
        rw [Option.some.injEq] at fired
        exact effect_modify guard.1 guard.2.1 guard.2.2 fired
      · cases fired
  | logWrite p =>
      simp only [fire] at fired
      split at fired
      · rename_i holds
        rw [Option.some.injEq] at fired
        exact effect_logWrite holds fired
      · cases fired
  | logAppend p =>
      simp only [fire] at fired
      split at fired
      · rename_i holds
        rw [Option.some.injEq] at fired
        exact effect_logAppend holds fired
      · cases fired
  | endOp p =>
      simp only [fire] at fired
      split at fired
      · rename_i inOp
        rw [Option.some.injEq] at fired
        exact effect_endOp inOp fired
      · cases fired
  | writeLog p => exact effect_writeLog fired
  | writeHead p =>
      simp only [fire] at fired
      split at fired
      · rename_i control
        rw [Option.some.injEq] at fired
        obtain ⟨middle, first, stored⟩ := ok_of_bind fired
        obtain ⟨cache, old, reads, cached, rfl⟩ := writeHead_eq first
        cases stored
        exact .writeHead control reads cached
      · cases fired
  | installTrans p => exact effect_installTrans fired
  | clearHead p =>
      simp only [fire] at fired
      split at fired
      · rename_i control
        rw [Option.some.injEq] at fired
        obtain ⟨middle, first, stored⟩ := ok_of_bind fired
        obtain ⟨cache, old, reads, cached, rfl⟩ := writeHead_eq first
        cases stored
        exact .clearHead control reads cached
      · cases fired
  | finishCommit p =>
      simp only [fire] at fired
      split at fired
      · rename_i control
        cases fired
        exact .finishCommit control
      · cases fired
  | bread blockno =>
      simp only [fire, Option.some.injEq] at fired
      obtain ⟨⟨data, middle⟩, first, stored⟩ := ok_of_bind fired
      obtain ⟨_, cache, reads, _, rfl⟩ := bread_eq first
      cases stored
      exact .bread reads
  | recycle blockno =>
      simp only [fire] at fired
      split at fired
      · rename_i buf found
        split at fired
        · rename_i guard
          cases fired
          exact .recycle found guard.1 guard.2
        · cases fired
      · cases fired
  | crash =>
      simp only [fire, Option.some.injEq] at fired
      cases fired
      exact .crash
  | recover =>
      simp only [fire] at fired
      split at fired
      · cases fired
      · rename_i up
        rw [Option.some.injEq] at fired
        exact effect_recover fired up

end Machine

end Xv6.Log
