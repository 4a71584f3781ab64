import Xv6.Log.Journal

/-!
# Every step keeps the journal

One lemma for each step of an operation and of a commit, and from them the
journal of every run without a crash.
-/

namespace Xv6.Log

open Lib
open Bcache (Extends)

variable {Process : Type} {start : Nat → Block}
  {history : History (Machine Process) (Action Process)}
  {m after : Machine Process} {action : Action Process} {p : Process}
  {value : Control} {blockno tail : Nat} {data : Block} {cache : Bcache}
  {writes : Writes Nat Block}

/-! ## Operations -/

/-- Steps of operations that write nothing and keep their buffers. -/
private theorem resting_frame (resting : Resting start history m)
    (opens : opened ((m, action) :: history) = opened history)
    (commit : commits ((m, action) :: history) = commits history)
    (head : action.isWriteHead = false)
    (disk : after.disk = m.disk) (lh : after.lh = m.lh)
    (held : ∀ blockno, (∃ q, after.Holds q blockno) ↔
      ∃ q, m.Holds q blockno)
    (kept : ∀ blockno buf, m.bcache.find blockno = some buf →
      buf.dirty = true ∨ (∃ q, m.Holds q blockno) →
      after.bcache.find blockno = some buf) :
    Resting start ((m, action) :: history) after := by
  have heads : headWrites ((m, action) :: history) = headWrites history := by
    simp [headWrites, head]
  have pinned : ∀ other ∈ m.lh, ∃ data,
      after.bcache.find other = some ⟨other, data, true⟩ := by
    intro other member
    obtain ⟨data, found⟩ := resting.pinned other member
    exact ⟨data, kept other _ found (.inl rfl)⟩
  constructor
  · rw [commit, disk]
    exact resting.pending
  · rw [heads, commit]
    exact resting.heads
  · rw [opens]
    exact resting.home
  · intro other
    rw [opens, lh, held]
    exact resting.logged other
  · rw [opens]
    intro other member
    obtain ⟨dirty, found⟩ := resting.cached other member
    refine ⟨dirty, ?_⟩
    rcases (resting.logged other).mp member with logged | isHeld
    · obtain ⟨data, pin⟩ := resting.pinned other logged
      have isDirty : dirty = true := by
        rw [found] at pin
        cases pin
        rfl
      exact kept other _ found (.inl isDirty)
    · exact kept other _ found (.inr isHeld)
  · rw [lh]
    exact pinned

section

variable [DecidableEq Process]

private theorem exists_holds
    (control : after.control = Function.update m.control p value)
    (blockno : Nat) :
    (∃ q, after.Holds q blockno) ↔
      value.held = some blockno ∨ ∃ q, q ≠ p ∧ m.Holds q blockno := by
  unfold Machine.Holds
  rw [control]
  constructor
  · rintro ⟨q, holds⟩
    by_cases same : q = p
    · subst q
      rw [Function.update_self] at holds
      exact .inl holds
    · rw [Function.update_of_ne same] at holds
      exact .inr ⟨q, same, holds⟩
  · rintro (own | ⟨q, different, holds⟩)
    · exact ⟨p, by rw [Function.update_self, own]⟩
    · exact ⟨q, by rw [Function.update_of_ne different, holds]⟩

/-- A process that goes on with the same buffer, or without one. -/
private theorem holds_same
    (control : after.control = Function.update m.control p value)
    (same : value.held = (m.control p).held) (blockno : Nat) :
    (∃ q, after.Holds q blockno) ↔ ∃ q, m.Holds q blockno := by
  rw [exists_holds control, same]
  constructor
  · rintro (own | ⟨q, _, holds⟩)
    · exact ⟨p, own⟩
    · exact ⟨q, holds⟩
  · rintro ⟨q, holds⟩
    by_cases isOwn : q = p
    · subst q
      exact .inl holds
    · exact .inr ⟨q, isOwn, holds⟩

/-- A caller of `log_write` changes a block. -/
private theorem resting_modify (resting : Resting start history m)
    (inOp : m.control p = .op) (home : Home blockno)
    (reads : Extends m.disk m.bcache cache)
    (cached : cache.find blockno ≠ none)
    (bcache : after.bcache = cache.update blockno fun buf =>
      { buf with data := data })
    (disk : after.disk = m.disk) (lh : after.lh = m.lh)
    (control : after.control =
      Function.update m.control p (.buffer blockno)) :
    Resting start ((m, .modify p blockno data) :: history) after := by
  have opens : opened ((m, .modify p blockno data) :: history) =
      opened history ++ [(blockno, data)] := rfl
  constructor
  · rw [disk]
    exact resting.pending
  · exact resting.heads
  · rw [opens]
    intro write member
    rcases List.mem_append.mp member with before | now
    · exact resting.home write before
    · rw [List.mem_singleton] at now
      rw [now]
      exact home
  · intro other
    have holders : (∃ q, q ≠ p ∧ m.Holds q other) ↔
        ∃ q, m.Holds q other := by
      constructor
      · rintro ⟨q, _, holds⟩
        exact ⟨q, holds⟩
      · rintro ⟨q, holds⟩
        refine ⟨q, ?_, holds⟩
        rintro rfl
        simp [Machine.Holds, inOp, Control.held] at holds
    have own : (Control.buffer blockno).held = some other ↔
        other = blockno := by
      simp [Control.held, eq_comm]
    rw [opens, List.map_append, List.mem_append, resting.logged, lh,
      exists_holds control, holders, own]
    simp only [List.map_cons, List.map_nil, List.mem_singleton]
    tauto
  · rw [opens, bcache]
    intro other member
    rw [Bcache.find_update, Writes.apply_concat]
    by_cases same : other = blockno
    · subst other
      obtain ⟨buf, found⟩ := Option.ne_none_iff_exists'.mp cached
      exact ⟨buf.dirty, by simp [found]⟩
    · have before : other ∈ (opened history).map Prod.fst := by
        simpa [same] using member
      obtain ⟨dirty, found⟩ := resting.cached other before
      refine ⟨dirty, ?_⟩
      rw [if_neg same, Function.update_of_ne same]
      exact reads.keeps found
  · rw [lh, bcache]
    intro other member
    obtain ⟨old, found⟩ := resting.pinned other member
    rw [Bcache.find_update]
    by_cases same : other = blockno
    · subst other
      exact ⟨data, by simp [reads.keeps found]⟩
    · exact ⟨old, by rw [if_neg same, reads.keeps found]⟩

/-- The critical section of `log_write`. -/
private theorem resting_logAppend (resting : Resting start history m)
    (holds : m.control p = .logWrite blockno)
    (logged : ∀ other, other ∈ after.lh ↔ other ∈ m.lh ∨ other = blockno)
    (bcache : after.bcache = m.bcache.update blockno fun buf =>
      { buf with dirty := true })
    (disk : after.disk = m.disk)
    (control : after.control = Function.update m.control p .op) :
    Resting start ((m, .logAppend p) :: history) after := by
  have opens : opened ((m, .logAppend p) :: history) = opened history := rfl
  have isHeld : m.Holds p blockno := by
    unfold Machine.Holds
    rw [holds]
    rfl
  have inCache : ∃ old, m.bcache.find blockno = some old := by
    have member := (resting.logged blockno).mpr (.inr ⟨p, isHeld⟩)
    obtain ⟨dirty, found⟩ := resting.cached blockno member
    exact ⟨_, found⟩
  constructor
  · rw [disk]
    exact resting.pending
  · exact resting.heads
  · exact resting.home
  · intro other
    have holders : (other ∈ m.lh ∨ other = blockno) ∨
        (∃ q, q ≠ p ∧ m.Holds q other) ↔
        other ∈ m.lh ∨ ∃ q, m.Holds q other := by
      constructor
      · rintro ((before | rfl) | ⟨q, _, other⟩)
        · exact .inl before
        · exact .inr ⟨p, isHeld⟩
        · exact .inr ⟨q, other⟩
      · rintro (before | ⟨q, other⟩)
        · exact .inl (.inl before)
        · by_cases same : q = p
          · subst q
            have equal : some _ = some _ := other.symm.trans isHeld
            cases equal
            exact .inl (.inr rfl)
          · exact .inr ⟨q, same, other⟩
    have idle : Control.op.held ≠ some other := by simp [Control.held]
    rw [logged, exists_holds control]
    simp only [idle, false_or]
    rw [holders]
    exact resting.logged other
  · rw [opens]
    intro other member
    obtain ⟨dirty, found⟩ := resting.cached other member
    rw [bcache, Bcache.find_update]
    by_cases same : other = blockno
    · subst other
      exact ⟨true, by simp [found]⟩
    · exact ⟨dirty, by rw [if_neg same, found]⟩
  · intro other member
    rw [bcache, Bcache.find_update]
    by_cases same : other = blockno
    · subst other
      obtain ⟨old, found⟩ := inCache
      exact ⟨old.data, by simp [found]⟩
    · have before : other ∈ m.lh := by
        simpa [same] using (logged other).mp member
      obtain ⟨old, found⟩ := resting.pinned other before
      exact ⟨old, by rw [if_neg same, found]⟩

/-- The last operation ends, and its transaction is to be committed. -/
private theorem working_commit [Fintype Process] (grouped : Grouped m)
    (resting : Resting start history m) (inOp : m.control p = .op)
    (last : m.outstanding = 1) (bcache : after.bcache = m.bcache)
    (disk : after.disk = m.disk) (lh : after.lh = m.lh) :
    Working start ((m, .endOp p) :: history) after
      (if m.lh = [] then .committed else .writeLog 0) := by
  have unheld : ∀ blockno, ¬ ∃ q, m.Holds q blockno := by
    rintro blockno ⟨q, holds⟩
    have inside := Control.inOp_of_held holds
    by_cases same : q = p
    · subst q
      simp [Machine.Holds, inOp, Control.held] at holds
    · have alone := grouped.alone (p := p) last
        (by simp [inOp, Control.inOp]) same
      simp [inside] at alone
  have logged : ∀ blockno,
      blockno ∈ (opened history).map Prod.fst ↔ blockno ∈ m.lh := by
    intro blockno
    rw [resting.logged]
    simp [unheld blockno]
  have heads : headWrites ((m, .endOp p) :: history) = headWrites history :=
    rfl
  by_cases empty : m.lh = []
  · have nothing : opened history = [] := by
      cases isOpen : opened history with
      | nil => rfl
      | cons write rest =>
          have member := (logged write.1).mp (by simp [isOpen])
          simp [empty] at member
    have same : commits ((m, .endOp p) :: history) = commits history := by
      simp [commits, nothing]
    rw [if_pos empty]
    refine .committed ?_ ?_ (lh.trans empty)
    · rw [heads, same]
      exact resting.heads
    · rw [same, disk]
      exact resting.pending
  · have something : opened history ≠ [] := by
      intro nothing
      obtain ⟨blockno, member⟩ := List.exists_mem_of_ne_nil _ empty
      simpa [nothing] using (logged blockno).mpr member
    have grown : commits ((m, .endOp p) :: history) =
        commits history ++ [opened history] := by
      simp [commits, startsCommit, last, something]
    let writes : Writes Nat Block :=
      m.lh.map fun blockno => (blockno, (opened history).apply start blockno)
    have addresses : writes.map Prod.fst = m.lh := by
      simp only [writes, List.map_map]
      exact List.map_id'' (fun _ => rfl) m.lh
    have writing : Writing start ((m, .endOp p) :: history) after
        writes 0 := by
      constructor
      · rw [addresses, lh]
      · refine ⟨commits history, opened history, grown, ?_, ?_, ?_⟩
        · rw [heads]
          exact resting.heads
        · rw [disk]
          exact resting.pending
        · intro base
          funext blockno
          simp only [writes, Writes.apply_map]
          by_cases member : blockno ∈ m.lh
          · rw [if_pos member]
            apply Writes.apply_congr
            intro absent
            exact absurd ((logged blockno).mpr member) absent
          · rw [if_neg member, Writes.apply_of_notMem]
            exact fun inside => member ((logged blockno).mp inside)
      · intro write member
        obtain ⟨blockno, isLogged, rfl⟩ := List.mem_map.mp member
        obtain ⟨dirty, found⟩ :=
          resting.cached blockno ((logged blockno).mpr isLogged)
        obtain ⟨data, pin⟩ := resting.pinned blockno isLogged
        have isDirty : dirty = true := by
          rw [found] at pin
          cases pin
          rfl
        rw [bcache, found, isDirty]
      · intro i write inside
        exact absurd inside (Nat.not_lt_zero i)
    rw [if_neg empty]
    refine .writeLog writing ?_ ?_
    · simpa [writes] using empty
    · intro positive
      exact absurd positive (Nat.lt_irrefl 0)

end

/-! ## Commits -/

/-- Steps of a commit other than the two that the history counts. -/
private structure Silent (m : Machine Process) (action : Action Process) :
    Prop where
  opens : ∀ history : History (Machine Process) (Action Process),
    opened ((m, action) :: history) = opened history
  commit : ∀ history : History (Machine Process) (Action Process),
    commits ((m, action) :: history) = commits history
  head : ∀ history : History (Machine Process) (Action Process),
    headWrites ((m, action) :: history) = headWrites history

private theorem writing_address (writing : Writing start history m writes tail)
    {i : Nat} (found : m.lh[i]? = some blockno) :
    ∃ data, writes[i]? = some (blockno, data) := by
  rw [← writing.addresses, List.getElem?_map, Option.map_eq_some_iff] at found
  obtain ⟨⟨address, data⟩, entry, rfl⟩ := found
  exact ⟨data, entry⟩

/-- The first log block gets a buffer beside those of all logged blocks, so
the transaction fits into the slots. -/
private theorem fits_of_cached (distinct : m.lh.Nodup)
    (home : ∀ blockno ∈ m.lh, Home blockno)
    (writing : Writing start history m writes tail)
    (reads : Extends m.disk m.bcache cache)
    (cached : cache.find (logBlock tail) ≠ none)
    (fits : 0 < tail → writes.length ≤ nlog - 1) :
    writes.length ≤ nlog - 1 := by
  rcases Nat.eq_zero_or_pos tail with rfl | positive
  · have away : logBlock 0 ∉ m.lh := by
      intro member
      exact not_home_logBlock (by decide) (home _ member)
    have allCached : ∀ other ∈ logBlock 0 :: m.lh,
        cache.find other ≠ none := by
      intro other member
      rcases List.mem_cons.mp member with rfl | logged
      · exact cached
      · rw [← writing.addresses] at logged
        obtain ⟨write, inside, rfl⟩ := List.mem_map.mp logged
        rw [reads.keeps (writing.cached write inside)]
        simp
    have bound := Bcache.length_le_nbuf
      (List.nodup_cons.mpr ⟨away, distinct⟩) allCached
    rw [List.length_cons, ← writing.addresses, List.length_map] at bound
    have size : nbuf = nlog := rfl
    omega
  · exact fits positive

/-- One block is copied into its slot. -/
private theorem writing_writeLog
    (silent : Silent m action) (home : ∀ blockno ∈ m.lh, Home blockno)
    (writing : Writing start history m writes tail)
    (fits : writes.length ≤ nlog - 1)
    (found : m.lh[tail]? = some blockno)
    (reads : Extends m.disk m.bcache cache)
    (disk : after.disk = Function.update m.disk (logBlock tail)
      (m.bcache.contents m.disk blockno))
    (bcache : after.bcache = cache.update (logBlock tail) fun buf =>
      { buf with
        data := m.bcache.contents m.disk blockno, dirty := false })
    (lh : after.lh = m.lh) :
    Writing start ((m, action) :: history) after writes (tail + 1) := by
  obtain ⟨value, entry⟩ := writing_address writing found
  have short : tail < writes.length :=
    (List.getElem?_eq_some_iff.mp entry).1
  have inside : tail < nlog - 1 := by omega
  have copied : m.bcache.contents m.disk blockno = value :=
    Bcache.contents_of_find
      (writing.cached _ (List.mem_of_getElem? entry))
  rw [copied] at disk bcache
  obtain ⟨past, final, split, heads, pending, same⟩ := writing.last
  constructor
  · rw [lh]
    exact writing.addresses
  · refine ⟨past, final, ?_, ?_, ?_, same⟩
    · rw [silent.commit]
      exact split
    · rw [silent.head]
      exact heads
    · rw [disk]
      exact pending.writeSlot inside value
  · intro write member
    have different : write.1 ≠ logBlock tail := by
      intro equal
      have isHome : Home write.1 := by
        apply home
        rw [← writing.addresses]
        exact List.mem_map_of_mem member
      rw [equal] at isHome
      exact not_home_logBlock inside isHome
    rw [bcache, Bcache.find_update, if_neg different]
    exact reads.keeps (writing.cached write member)
  · intro i write before isEntry
    rw [disk]
    by_cases now : i = tail
    · subst i
      rw [entry, Option.some.injEq] at isEntry
      rw [Function.update_self, ← isEntry]
    · have different : logBlock i ≠ logBlock tail := by
        unfold logBlock
        omega
      rw [Function.update_of_ne different]
      exact writing.logged i write (by omega) isEntry

/-- The header is written: the transaction is committed. -/
private theorem working_writeHead
    (home : ∀ blockno ∈ m.lh, Home blockno)
    (writing : Writing start history m writes tail)
    (all : writes.length ≤ tail) (fits : writes.length ≤ nlog - 1)
    {old : Block}
    (disk : after.disk =
      Function.update m.disk logstart (writeHeader m.lh old))
    (lh : after.lh = m.lh) :
    Working start ((m, .writeHead p) :: history) after
      (.installTrans 0) := by
  obtain ⟨past, final, split, heads, pending, same⟩ := writing.last
  have sameCommits : commits ((m, .writeHead p) :: history) =
      commits history := rfl
  have target : applyCommits (commits history) start =
      writes.apply (applyCommits past start) := by
    rw [split, applyCommits_concat, same]
  have now : redoLog.Pending after.disk writes
      (applyCommits (commits history) start) := by
    rw [target, disk, ← writing.addresses]
    refine pending.commit ?_ ?_ fits old
    · intro i write entry
      apply writing.logged i write _ entry
      have short := (List.getElem?_eq_some_iff.mp entry).1
      omega
    · intro write member
      apply home_iff.mpr
      apply home
      rw [← writing.addresses]
      exact List.mem_map_of_mem member
  refine .installTrans (writing.addresses.trans lh.symm) ?_ ?_ ?_
  · rw [sameCommits, split]
    simp [headWrites, Action.isWriteHead] at heads ⊢
    exact heads
  · rw [sameCommits]
    exact now
  · rw [sameCommits]
    exact now.start

/-- One block of a committed transaction goes home.  `install_trans` finds in
the cache or on the disk what its slot holds. -/
theorem installed_block {target : Nat → Block}
    (pending : redoLog.Pending m.disk writes target)
    (installed : redoLog.Installed m.disk writes tail target)
    (addresses : writes.map Prod.fst = m.lh)
    (found : m.lh[tail]? = some blockno)
    (clean : m.bcache.contents m.disk (logBlock tail) =
      m.disk (logBlock tail)) :
    let disk := Function.update m.disk blockno
      (m.bcache.contents m.disk (logBlock tail))
    redoLog.Pending disk writes target ∧
      redoLog.Installed disk writes (tail + 1) target := by
  rw [← addresses, List.getElem?_map, Option.map_eq_some_iff] at found
  obtain ⟨write, entry, rfl⟩ := found
  have slot : m.disk (logBlock tail) = write.2 :=
    pending.logged tail write entry
  simp only [clean, slot]
  exact ⟨pending.install (List.mem_of_getElem? entry),
    installed.next entry⟩

theorem slot_clean {blocks : Nat → Prop} {target : Nat → Block}
    (clean : Bcache.Clean blocks m.disk m.bcache)
    (covers : ∀ i, i < nlog - 1 → blocks (logBlock i))
    (pending : redoLog.Pending m.disk writes target)
    (addresses : writes.map Prod.fst = m.lh)
    (found : m.lh[tail]? = some blockno) :
    m.bcache.contents m.disk (logBlock tail) = m.disk (logBlock tail) := by
  apply clean.contents
  apply covers
  have short := (List.getElem?_eq_some_iff.mp found).1
  rw [← addresses, List.length_map] at short
  have fits : writes.length ≤ nlog - 1 := pending.fits
  omega

/-- What a commit keeps when the cache changes elsewhere. -/
private theorem working_frame {control : Control}
    (working : Working start history m control)
    (silent : Silent m action) (disk : after.disk = m.disk)
    (lh : after.lh = m.lh)
    (kept : ∀ blockno buf, m.bcache.find blockno = some buf →
      buf.dirty = true → after.bcache.find blockno = some buf) :
    Working start ((m, action) :: history) after control := by
  have writing : ∀ {writes tail}, Writing start history m writes tail →
      Writing start ((m, action) :: history) after writes tail := by
    intro writes tail writing
    constructor
    · rw [lh]
      exact writing.addresses
    · rw [silent.commit, silent.head, disk]
      exact writing.last
    · intro write member
      exact kept _ _ (writing.cached write member) rfl
    · rw [disk]
      exact writing.logged
  cases working with
  | writeLog before some fits => exact .writeLog (writing before) some fits
  | writeHead before all fits => exact .writeHead (writing before) all fits
  | installTrans addresses heads pending installed =>
      refine .installTrans (addresses.trans lh.symm) ?_ ?_ ?_
      · rw [silent.commit, silent.head]
        exact heads
      · rw [silent.commit, disk]
        exact pending
      · rw [silent.commit, disk]
        exact installed
  | clearHead heads pending done =>
      rw [← disk, ← silent.commit] at pending done
      refine .clearHead ?_ pending done
      rw [silent.commit, silent.head]
      exact heads
  | committed heads pending empty =>
      refine .committed ?_ ?_ (lh.trans empty)
      · rw [silent.commit, silent.head]
        exact heads
      · rw [silent.commit, disk]
        exact pending

/-! ## Runs without a crash -/

private theorem journal_resting (journal : Journal start history m)
    (resting : Resting start ((m, action) :: history) after)
    (free : after.committing = false)
    (recovery : after.recovery = m.recovery)
    (distinct : after.lh.Nodup) (home : ∀ blockno ∈ after.lh, Home blockno)
    (clean : Bcache.Clean (fun blockno => ¬ Home blockno) after.disk
      after.bcache) :
    Journal start ((m, action) :: history) after :=
  ⟨recovery.trans journal.up, distinct, home, clean, .resting free resting⟩

/-- Steps of readers, whose buffers nobody has changed. -/
private theorem journal_cache (journal : Journal start history m)
    (silent : Silent m action) (head : action.isWriteHead = false)
    (kept : ∀ blockno buf, m.bcache.find blockno = some buf →
      buf.dirty = true ∨ (∃ q, m.Holds q blockno) →
      cache.find blockno = some buf)
    (clean : Bcache.Clean (fun blockno => ¬ Home blockno) m.disk cache) :
    Journal start ((m, action) :: history) { m with bcache := cache } := by
  refine ⟨journal.up, journal.distinct, journal.home, clean, ?_⟩
  cases journal.phase with
  | resting free resting =>
      exact .resting free (resting_frame resting (silent.opens _)
        (silent.commit _) head rfl rfl (fun _ => Iff.rfl) kept)
  | working place nothing working =>
      refine .working place ((silent.opens _).trans nothing) ?_
      exact working_frame working silent rfl rfl
        fun blockno buf found dirty => kept blockno buf found (.inl dirty)

private theorem held_home (resting : Resting start history m)
    (holds : m.control p = .logWrite blockno) : Home blockno := by
  have isHeld : m.Holds p blockno := by
    unfold Machine.Holds
    rw [holds]
    rfl
  have member := (resting.logged blockno).mpr (.inr ⟨p, isHeld⟩)
  obtain ⟨write, inside, rfl⟩ := List.mem_map.mp member
  exact resting.home write inside

theorem Journal.boot (booted : m.Booted) : Journal m.disk [] m := by
  have pending : redoLog.Pending m.disk [] m.disk := by
    constructor
    · exact booted.header
    · intro i write entry
      simp at entry
    · simp
    · exact Nat.zero_le _
    · exact fun _ _ => rfl
  have resting : Resting m.disk [] m := by
    constructor
    · exact pending
    · rfl
    · simp [opened]
    · intro other
      simp [opened, booted.empty, Machine.Holds, booted.idle, Control.held]
    · simp [opened]
    · simp [booted.empty]
  refine ⟨booted.up, ?_, ?_, ?_, .resting booted.free resting⟩
  · simp [booted.empty]
  · simp [booted.empty]
  · intro other buf _ found
    exact booted.clean other buf trivial found

variable [DecidableEq Process]

private theorem journal_working (journal : Journal start history m)
    (control : after.control = Function.update m.control p value)
    (nothing : opened ((m, action) :: history) = [])
    (working : Working start ((m, action) :: history) after value)
    (recovery : after.recovery = m.recovery)
    (distinct : after.lh.Nodup) (home : ∀ blockno ∈ after.lh, Home blockno)
    (clean : Bcache.Clean (fun blockno => ¬ Home blockno) after.disk
      after.bcache) :
    Journal start ((m, action) :: history) after := by
  refine ⟨recovery.trans journal.up, distinct, home, clean, ?_⟩
  refine .working (p := p) ?_ nothing working
  rw [control, Function.update_self]

variable [Fintype Process]

private theorem clean_home {assign : Buf → Buf} {disk : Nat → Block}
    (clean : Bcache.Clean (fun blockno => ¬ Home blockno) disk cache)
    (home : Home blockno) :
    Bcache.Clean (fun blockno => ¬ Home blockno) disk
      (cache.update blockno assign) :=
  clean.update_away (fun away => away home) assign

/-- One step of an operation. -/
private theorem journal_operation (grouped : Grouped m)
    (journal : Journal start history m) (free : m.committing = false)
    (opens : opened ((m, action) :: history) = opened history)
    (commit : commits ((m, action) :: history) = commits history)
    (head : action.isWriteHead = false)
    (disk : after.disk = m.disk) (lh : after.lh = m.lh)
    (bcache : after.bcache = m.bcache)
    (committing : after.committing = m.committing)
    (recovery : after.recovery = m.recovery)
    (control : after.control = Function.update m.control p value)
    (held : value.held = (m.control p).held) :
    Journal start ((m, action) :: history) after := by
  have resting := journal.resting grouped free
  refine journal_resting journal ?_ (committing.trans free) recovery ?_ ?_ ?_
  · refine resting_frame resting opens commit head disk lh
      (holds_same control held) ?_
    intro other buf found _
    rw [bcache]
    exact found
  · rw [lh]
    exact journal.distinct
  · rw [lh]
    exact journal.home
  · rw [disk, bcache]
    exact journal.clean

/-- Every step but a crash keeps the journal. -/
theorem Effect.journal (grouped : Grouped m)
    (journal : Journal start history m) (effect : Effect m action after)
    (runs : action ≠ .crash) :
    Journal start ((m, action) :: history) after := by
  cases effect with
  | beginOp up idle free admitted =>
      exact journal_operation grouped journal free rfl rfl rfl rfl rfl rfl rfl
        rfl rfl (by rw [idle]; rfl)
  | @modify p blockno data cache inOp home unheld reads cached =>
      have free := grouped.free_of_inOp (p := p) (by rw [inOp]; rfl)
      have resting := journal.resting grouped free
      refine journal_resting journal ?_ free rfl journal.distinct journal.home
        (clean_home (journal.clean.reads reads) home)
      exact resting_modify resting inOp home reads cached rfl rfl rfl rfl
  | @logWrite p blockno holds small counted =>
      have free := grouped.free_of_inOp (p := p) (by rw [holds]; rfl)
      exact journal_operation grouped journal free rfl rfl rfl rfl rfl rfl rfl
        rfl rfl (by rw [holds]; rfl)
  | @absorb p blockno holds logged =>
      have free := grouped.free_of_inOp (p := p) (by rw [holds]; rfl)
      have resting := journal.resting grouped free
      have home := held_home resting holds
      refine journal_resting journal ?_ free rfl journal.distinct journal.home
        (clean_home journal.clean home)
      refine resting_logAppend resting holds ?_ rfl rfl rfl
      intro other
      constructor
      · exact .inl
      · rintro (before | rfl)
        · exact before
        · exact logged
  | @append p blockno holds fresh room =>
      have free := grouped.free_of_inOp (p := p) (by rw [holds]; rfl)
      have resting := journal.resting grouped free
      have home := held_home resting holds
      refine journal_resting journal ?_ free rfl ?_ ?_
        (clean_home journal.clean home)
      · exact resting_logAppend resting holds (fun other => by simp) rfl rfl
          rfl
      · exact List.nodup_append_comm.mp (journal.distinct.cons fresh)
      · intro other member
        rcases List.mem_append.mp member with before | now
        · exact journal.home other before
        · rw [List.mem_singleton] at now
          rw [now]
          exact home
  | endOp inOp free others =>
      refine journal_operation grouped journal free ?_ ?_ rfl rfl rfl rfl rfl
        rfl rfl (by rw [inOp]; rfl)
      · simp [opened, others]
      · simp [commits, startsCommit, others]
  | @commit p inOp free last =>
      have resting := journal.resting grouped free
      refine journal_working journal rfl ?_
        (working_commit grouped resting inOp last rfl rfl rfl) rfl
        journal.distinct journal.home journal.clean
      simp [opened, last]
  | @writeLog p tail blockno cache control found reads cached =>
      obtain ⟨nothing, working⟩ := journal.working grouped control rfl
      cases working with
      | writeLog writing some fits =>
          have small := fits_of_cached journal.distinct journal.home writing
            reads cached fits
          have silent : Silent m (.writeLog p) :=
            ⟨fun _ => rfl, fun _ => rfl, fun _ => rfl⟩
          refine journal_working journal rfl nothing ?_ rfl journal.distinct
            journal.home ((journal.clean.reads reads).bwrite _ _)
          refine .writeLog ?_ some fun _ => small
          exact writing_writeLog silent journal.home writing small found reads
            rfl rfl rfl
  | @writeLogDone p tail control ended =>
      obtain ⟨nothing, working⟩ := journal.working grouped control rfl
      cases working with
      | @writeLog _ writes writing some fits =>
          have all : writes.length ≤ tail := by
            rw [← writing.addresses] at ended
            simpa using ended
          have positive : 0 < writes.length := List.length_pos_iff.mpr some
          refine journal_working journal rfl nothing ?_ rfl journal.distinct
            journal.home journal.clean
          exact .writeHead
            ⟨writing.addresses, writing.last, writing.cached, writing.logged⟩
            all (fits (by omega))
  | @writeHead p cache old control reads cached =>
      obtain ⟨nothing, working⟩ := journal.working grouped control rfl
      cases working with
      | writeHead writing all fits =>
          exact journal_working journal rfl nothing
            (working_writeHead journal.home writing all fits rfl rfl) rfl
            journal.distinct journal.home
            ((journal.clean.reads reads).bwrite _ _)
  | @installTrans p tail blockno cache control found reads cached =>
      obtain ⟨nothing, working⟩ := journal.working grouped control rfl
      cases working with
      | installTrans addresses heads pending installed =>
          have clean := slot_clean journal.clean
            (fun i inside => not_home_logBlock inside) pending addresses found
          obtain ⟨pending', installed'⟩ :=
            installed_block pending installed addresses found clean
          refine journal_working journal rfl nothing ?_ rfl journal.distinct
            journal.home ((journal.clean.reads reads).bwrite _ _)
          exact .installTrans addresses heads pending' installed'
  | @installTransDone p tail control ended =>
      obtain ⟨nothing, working⟩ := journal.working grouped control rfl
      cases working with
      | @installTrans _ writes addresses heads pending installed =>
          have all : writes.length ≤ tail := by
            rw [← addresses] at ended
            simpa using ended
          refine journal_working journal rfl nothing ?_ rfl journal.distinct
            journal.home journal.clean
          exact .clearHead heads pending (installed.done all)
  | @clearHead p cache old control reads cached =>
      obtain ⟨nothing, working⟩ := journal.working grouped control rfl
      cases working with
      | clearHead heads pending done =>
          refine journal_working journal rfl nothing ?_ rfl List.nodup_nil
            (by simp) ((journal.clean.reads reads).bwrite _ _)
          exact .committed heads (RedoLog.pending_clear done old) rfl
  | @finishCommit p control =>
      obtain ⟨nothing, working⟩ := journal.working grouped control rfl
      cases working with
      | committed heads pending empty =>
          have running : m.committing = true :=
            grouped.committing_of (p := p) (by rw [control]; rfl)
          have unheld : ∀ other, ¬ ∃ q, m.Holds q other := by
            rintro other ⟨q, holds⟩
            have outside := grouped.quiet running q
            simp [Control.inOp_of_held holds] at outside
          refine journal_resting journal ⟨pending, heads, ?_, ?_, ?_, ?_⟩ rfl
            rfl journal.distinct journal.home journal.clean
          · simp [opened, nothing]
          · intro other
            rw [holds_same rfl (by rw [control]; rfl)]
            simp [opened, nothing, empty, unheld]
          · simp [opened, nothing]
          · simp [empty]
  | bread reads =>
      exact journal_cache journal ⟨fun _ => rfl, fun _ => rfl, fun _ => rfl⟩
        rfl (fun _ _ found _ => reads.keeps found)
        (journal.clean.reads reads)
  | @recycle blockno buf found clean unheld =>
      refine journal_cache journal ⟨fun _ => rfl, fun _ => rfl, fun _ => rfl⟩
        rfl ?_ (journal.clean.recycle blockno)
      intro other buf' found' pinned
      have different : other ≠ blockno := by
        rintro rfl
        rw [found, Option.some.injEq] at found'
        subst found'
        rcases pinned with dirty | ⟨q, holds⟩
        · simp [clean] at dirty
        · exact unheld q holds
      rw [Bcache.find_recycle, if_neg different]
      exact found'
  | crash => exact absurd rfl runs
  | recoverReadHead recovery | recoverInstallTrans recovery
  | recoverInstallTransDone recovery | recoverClearHead recovery =>
      simp [journal.up] at recovery

/-- The journal of every run without a crash. -/
theorem journal_of_run {first : Machine Process} (booted : first.Booted)
    (run : Run (system Process) first history m)
    (alive : ∀ entry ∈ history, entry.2 ≠ .crash) :
    Grouped m ∧ Journal first.disk history m := by
  let condition : Machine Process → Action Process → Prop :=
    fun _ action => action ≠ .crash
  have met : ∀ entry ∈ history, condition entry.1 entry.2 := alive
  apply run.invariant_of_forall met
  · exact ⟨.rest booted.idle booted.none booted.free, .boot booted⟩
  · intro past before action after _ taken runs ⟨grouped, journal⟩
    have effect := Machine.step_effect taken
    exact ⟨effect.grouped grouped, effect.journal grouped journal runs⟩

end Xv6.Log
