import Xv6.Lib.LinkedQueue
import Xv6.Lib.Levels
import Xv6.Proc.Table
import Mathlib.Data.Fintype.Card

/-!
# The pointer queues refine first-in first-out lists

`Queues table levels` relates the links and end pointers of the process
table to one list of processes for each level.  `enqueue`, `dequeue` and
`priority_boost` are the corresponding operations on these lists: they never
fault from a related table, and the result is related again.

Everything a process carries besides its link is its `view`.  Each operation
has one lemma that says what it does to the views of all processes, so that
results about states, parents or ticks never look at links.
-/

namespace Xv6

open Lib

/-- A process without its queue link. -/
def Proc.unlinked (process : Proc) : Proc := { process with nextProc := none }

namespace PTable

/-- The links of all processes. -/
def next (table : PTable) (p : ProcId) : Option ProcId :=
  (table.proc p).nextProc

/-- All that a process carries besides its link. -/
def view (table : PTable) (p : ProcId) : Proc := (table.proc p).unlinked

section Updates

variable (table : PTable) (p : ProcId)

@[simp] theorem view_state : (table.view p).state = (table.proc p).state := rfl

@[simp] theorem view_pid : (table.view p).pid = (table.proc p).pid := rfl

@[simp] theorem view_parent :
    (table.view p).parent = (table.proc p).parent := rfl

@[simp] theorem view_context :
    (table.view p).context = (table.proc p).context := rfl

@[simp] theorem view_chan : (table.view p).chan = (table.proc p).chan := rfl

@[simp] theorem view_killed :
    (table.view p).killed = (table.proc p).killed := rfl

@[simp] theorem view_priority :
    (table.view p).priority = (table.proc p).priority := rfl

@[simp] theorem view_ticksRunning :
    (table.view p).ticksRunning = (table.proc p).ticksRunning := rfl

@[simp] theorem update_queueFirst (assign : Proc → Proc) :
    (table.update p assign).queueFirst = table.queueFirst := rfl

@[simp] theorem update_queueLast (assign : Proc → Proc) :
    (table.update p assign).queueLast = table.queueLast := rfl

/-- Assignments that leave the link alone act on the view. -/
theorem view_update {assign : Proc → Proc}
    (commutes : ∀ entry, (assign entry).unlinked = assign entry.unlinked) :
    (table.update p assign).view =
      Function.update table.view p (assign (table.view p)) := by
  funext q
  by_cases same : q = p
  · subst q
    simp [view, update, commutes]
  · simp [view, update, same]

theorem next_update {assign : Proc → Proc}
    (keeps : ∀ entry, (assign entry).nextProc = entry.nextProc) :
    (table.update p assign).next = table.next := by
  funext q
  by_cases same : q = p
  · subst q
    simp [next, update, keeps]
  · simp [next, update, same]

theorem next_update_link (link : Option ProcId) :
    (table.update p fun entry => { entry with nextProc := link }).next =
      Function.update table.next p link := by
  funext q
  by_cases same : q = p
  · subst q
    simp [next, update]
  · simp [next, update, same]

theorem view_update_link (link : Option ProcId) :
    (table.update p fun entry => { entry with nextProc := link }).view =
      table.view := by
  funext q
  by_cases same : q = p
  · subst q
    simp [view, update, Proc.unlinked]
  · simp [view, update, same]

end Updates

section Fields

variable {α : Type*} {table before : PTable} {p : ProcId} {entry : Proc}

/-- What is read from a process after assignments to one slot. -/
theorem read_update (read : Proc → α)
    (views : table.view = Function.update before.view p entry) (q : ProcId) :
    read (table.view q) =
      if q = p then read entry else read (before.view q) := by
  rw [views]
  by_cases same : q = p
  · subst q
    simp
  · simp [same]

theorem read_same (read : Proc → α)
    (views : table.view = Function.update before.view p entry)
    (same : read entry = read (before.view p)) (q : ProcId) :
    read (table.view q) = read (before.view q) := by
  rw [read_update read views]
  split
  · rename_i here
    rw [here, same]
  · rfl

theorem read_update_twice {other : ProcId} {otherEntry : Proc}
    (read : Proc → α)
    (views : table.view = Function.update
      (Function.update before.view p entry) other otherEntry)
    (same : read entry = read (before.view p)) (q : ProcId) :
    read (table.view q) =
      if q = other then read otherEntry else read (before.view q) := by
  rw [views]
  by_cases here : q = other
  · subst q
    rw [Function.update_self, if_pos rfl]
  · rw [Function.update_of_ne here, if_neg here]
    by_cases there : q = p
    · subst q
      rw [Function.update_self, same]
    · rw [Function.update_of_ne there]

theorem read_same_twice {other : ProcId} {otherEntry : Proc}
    (read : Proc → α)
    (views : table.view = Function.update
      (Function.update before.view p entry) other otherEntry)
    (same : read entry = read (before.view p))
    (otherSame : read otherEntry = read (before.view other)) (q : ProcId) :
    read (table.view q) = read (before.view q) := by
  rw [read_update_twice read views same]
  by_cases here : q = other
  · subst q
    rw [if_pos rfl, otherSame]
  · rw [if_neg here]

end Fields

end PTable

/-- The processes met by following `nextProc` from `queueFirst`. -/
def PTable.queue (table : PTable) (level : Nat) : List ProcId :=
  walk table.next nproc (table.queueFirst level)

/-- The pointers of the table represent one list of processes for each level,
and a queued process has the priority of its level. -/
structure Queues (table : PTable) (levels : Levels ProcId) : Prop where
  queue : ∀ level < nprio, LinkedQueue table.next (table.queueFirst level)
    (table.queueLast level) (levels level)
  priority : ∀ level < nprio, ∀ p ∈ levels level,
    (table.proc p).priority = level
  bounded : ∀ p, (table.proc p).priority < nprio
  empty : ∀ level, nprio ≤ level → levels level = []

/-- A queue holds at most as many processes as there are slots. -/
private theorem length_le_nproc {nodes : List ProcId} (nodup : nodes.Nodup) :
    nodes.length ≤ nproc := by
  simpa using nodup.length_le_card

namespace Queues

variable {table : PTable} {levels other : Levels ProcId} {p : ProcId}

theorem below (queues : Queues table levels) {level : Nat}
    (member : p ∈ levels level) : level < nprio := by
  by_contra high
  rw [queues.empty level (by omega)] at member
  simp at member

theorem disjoint (queues : Queues table levels) {left right : Nat}
    (leftBelow : left < nprio) (rightBelow : right < nprio)
    (different : left ≠ right) :
    (levels left).Disjoint (levels right) := by
  intro candidate inLeft inRight
  apply different
  rw [← queues.priority left leftBelow candidate inLeft,
    queues.priority right rightBelow candidate inRight]

theorem queue_eq (queues : Queues table levels) {level : Nat}
    (low : level < nprio) : table.queue level = levels level :=
  (queues.queue level low).chain.walk_eq
    (length_le_nproc (queues.queue level low).nodup)

/-- A process is queued at most at the level of its priority. -/
theorem mem_iff (queues : Queues table levels) {level : Nat} :
    p ∈ levels level ↔
      level = (table.proc p).priority ∧
        p ∈ levels (table.proc p).priority := by
  constructor
  · intro member
    have same := queues.priority level (queues.below member) p member
    rw [same]
    exact ⟨rfl, member⟩
  · rintro ⟨rfl, member⟩
    exact member

theorem mem_order (queues : Queues table levels) :
    p ∈ Levels.order nprio levels ↔
      p ∈ levels (table.proc p).priority := by
  rw [Levels.mem_order]
  constructor
  · rintro ⟨level, _, member⟩
    exact (queues.mem_iff.mp member).2
  · intro member
    exact ⟨_, queues.bounded p, member⟩

theorem nodup_order (queues : Queues table levels) :
    (Levels.order nprio levels).Nodup :=
  Levels.nodup_order (fun level low => (queues.queue level low).nodup)
    fun _ leftBelow _ rightBelow different =>
      queues.disjoint leftBelow rightBelow different

/-- Assignments that change neither links nor priorities keep the lists. -/
theorem update (queues : Queues table levels) {assign : Proc → Proc}
    (links : ∀ entry, (assign entry).nextProc = entry.nextProc)
    (priorities : ∀ entry, (assign entry).priority = entry.priority) :
    Queues (table.update p assign) levels := by
  have samePriority : ∀ q, ((table.update p assign).proc q).priority =
      (table.proc q).priority := by
    intro q
    by_cases same : q = p
    · subst q
      simp [PTable.update, priorities]
    · simp [PTable.update, same]
  constructor
  · intro level low
    rw [table.next_update p links]
    exact queues.queue level low
  · intro level low q member
    rw [samePriority]
    exact queues.priority level low q member
  · intro q
    rw [samePriority]
    exact queues.bounded q
  · exact queues.empty

/-- A process that is in no queue may change its priority. -/
theorem update_absent (queues : Queues table levels) {assign : Proc → Proc}
    (absent : p ∉ levels (table.proc p).priority)
    (links : ∀ entry, (assign entry).nextProc = entry.nextProc)
    (priority : (assign (table.proc p)).priority < nprio) :
    Queues (table.update p assign) levels := by
  constructor
  · intro level low
    rw [table.next_update p links]
    exact queues.queue level low
  · intro level low q member
    have different : q ≠ p := by
      rintro rfl
      exact absent (queues.mem_iff.mp member).2
    simpa [PTable.update, different] using
      queues.priority level low q member
  · intro q
    by_cases same : q = p
    · subst q
      simpa [PTable.update] using priority
    · simpa [PTable.update, same] using queues.bounded q
  · exact queues.empty

end Queues

/-! ## `enqueue` -/

section Enqueue

variable {table : PTable} {levels : Levels ProcId} {p : ProcId}

/-- The links after `p` is hung behind `last`. -/
private def linkBehind (next : ProcId → Option ProcId) (last : Option ProcId)
    (p : ProcId) : ProcId → Option ProcId :=
  Function.update
    (last.elim next fun node => Function.update next node (some p)) p none

private theorem linkedQueue_push
    {next : ProcId → Option ProcId} {first last : Option ProcId}
    {nodes : List ProcId} (queue : LinkedQueue next first last nodes)
    (absent : p ∉ nodes) :
    LinkedQueue (linkBehind next last p) (last.elim (some p) fun _ => first)
      (some p) (nodes ++ [p]) := by
  have alone : LinkedQueue (Function.update next p none) (some p) (some p)
      [p] := .singleton (by simp)
  cases last with
  | none =>
      have emptyNodes : nodes = [] := queue.last_eq_none_iff.mp rfl
      subst nodes
      exact alone
  | some node =>
      have nodeMember : node ∈ nodes := by
        obtain ⟨front, rfl⟩ := queue.eq_append_last rfl
        simp
      have different : node ≠ p := fun same => absent (same ▸ nodeMember)
      have framed : LinkedQueue (Function.update next p none) first
          (some node) nodes := queue.update_of_not_mem absent
      have spliced := framed.splice alone (by simp) (by simpa using absent)
      rw [Function.update_comm different.symm] at spliced
      exact spliced

/-- `enqueue` succeeds for a priority inside the array bounds; all it changes
are links, end pointers and the state of the process. -/
private theorem enqueue_eq (low : (table.proc p).priority < nprio) :
    ∃ result, table.enqueue p = .ok result ∧
      result.next =
        linkBehind table.next (table.queueLast (table.proc p).priority) p ∧
      result.queueFirst = (table.queueLast (table.proc p).priority).elim
        (Function.update table.queueFirst (table.proc p).priority (some p))
        (fun _ => table.queueFirst) ∧
      result.queueLast =
        Function.update table.queueLast (table.proc p).priority (some p) ∧
      result.view = Function.update table.view p
        { table.view p with state := .runnable } := by
  unfold PTable.enqueue linkBehind
  rw [if_neg (Nat.not_le.mpr low)]
  cases lastEq : table.queueLast (table.proc p).priority with
  | none =>
      refine ⟨_, rfl, ?_, rfl, rfl, ?_⟩
      · funext q
        by_cases same : q = p
        · subst q
          simp [PTable.next, PTable.update]
        · simp [PTable.next, PTable.update, same]
      · funext q
        by_cases same : q = p
        · subst q
          simp [PTable.view, PTable.update, Proc.unlinked]
        · simp [PTable.view, PTable.update, same]
  | some last =>
      refine ⟨_, rfl, ?_, rfl, rfl, ?_⟩
      · funext q
        by_cases same : q = p
        · subst q
          simp [PTable.next, PTable.update]
        · by_cases isLast : q = last
          · subst q
            simp [PTable.next, PTable.update, same]
          · simp [PTable.next, PTable.update, same, isLast]
      · funext q
        by_cases same : q = p
        · subst q
          by_cases isLast : p = last
          · subst last
            simp [PTable.view, PTable.update, Proc.unlinked]
          · simp [PTable.view, PTable.update, Proc.unlinked, isLast]
        · by_cases isLast : q = last
          · subst q
            simp [PTable.view, PTable.update, Proc.unlinked, same]
          · simp [PTable.view, PTable.update, Proc.unlinked, same, isLast]

/-- `enqueue` of a process that is in no queue appends it to the list of its
priority. -/
theorem enqueue_refines (queues : Queues table levels)
    (absent : p ∉ levels (table.proc p).priority) :
    ∃ result, table.enqueue p = .ok result ∧
      Queues result (levels.push (table.proc p).priority p) ∧
      result.view = Function.update table.view p
        { table.view p with state := .runnable } := by
  obtain ⟨result, success, nextEq, firstEq, lastEq, viewEq⟩ :=
    enqueue_eq (queues.bounded p)
  refine ⟨result, success, ?_, viewEq⟩
  have samePriority : ∀ q, (result.proc q).priority =
      (table.proc q).priority := by
    intro q
    rw [← PTable.view_priority, viewEq, ← PTable.view_priority]
    by_cases same : q = p
    · subst q
      simp
    · simp [same]
  constructor
  · intro level low
    by_cases same : level = (table.proc p).priority
    · subst level
      have pushed := linkedQueue_push (queues.queue _ low) absent
      rw [nextEq, firstEq, lastEq]
      simp only [Levels.push, Function.update_self]
      cases lastCase : table.queueLast (table.proc p).priority with
      | none => simpa [lastCase] using pushed
      | some last => simpa [lastCase] using pushed
    · have pAbsent : p ∉ levels level := fun member =>
        same (queues.mem_iff.mp member).1
      have framed : LinkedQueue result.next (table.queueFirst level)
          (table.queueLast level) (levels level) := by
        rw [nextEq]
        apply LinkedQueue.update_of_not_mem pAbsent
        cases lastCase : table.queueLast (table.proc p).priority with
        | none => exact queues.queue level low
        | some last =>
            have lastMember : last ∈ levels (table.proc p).priority := by
              obtain ⟨front, equality⟩ :=
                (queues.queue _ (queues.bounded p)).eq_append_last lastCase
              simp [equality]
            apply (queues.queue level low).update_of_not_mem
            intro member
            exact queues.disjoint low (queues.bounded p) same member
              lastMember
      have firstSame : result.queueFirst level = table.queueFirst level := by
        rw [firstEq]
        cases table.queueLast (table.proc p).priority <;> simp [same]
      have lastSame : result.queueLast level = table.queueLast level := by
        rw [lastEq]
        simp [same]
      rw [firstSame, lastSame]
      simpa [Levels.push, same] using framed
  · intro level low q member
    rw [samePriority]
    by_cases same : level = (table.proc p).priority
    · subst level
      simp only [Levels.push, Function.update_self, List.mem_append,
        List.mem_singleton] at member
      rcases member with old | new
      · exact queues.priority _ low q old
      · rw [new]
    · simp only [Levels.push, ne_eq, same, not_false_eq_true,
        Function.update_of_ne] at member
      exact queues.priority level low q member
  · intro q
    rw [samePriority]
    exact queues.bounded q
  · intro level high
    have different : level ≠ (table.proc p).priority := by
      have bound := queues.bounded p
      omega
    simpa [Levels.push, different] using queues.empty level high

end Enqueue

/-! ## `dequeue` -/

section Dequeue

variable {table : PTable} {levels : Levels ProcId} {p : ProcId}

/-- The search loop stops at the node in front of `p`. -/
private theorem searchPrevious_eq {front back : List ProcId}
    {previous : ProcId} {start : Option ProcId} {fuel : Nat}
    (segment : Segment table.next start (front ++ previous :: p :: back) none)
    (nodup : (front ++ previous :: p :: back).Nodup)
    (enough : front.length < fuel) :
    table.searchPrevious p fuel start = .ok previous := by
  induction front generalizing start fuel with
  | nil =>
      obtain ⟨rest, rfl⟩ : ∃ rest, fuel = rest + 1 :=
        ⟨fuel - 1, by simp at enough; omega⟩
      obtain ⟨rfl, link, _⟩ := segment
      exact if_pos link
  | cons node front induction =>
      obtain ⟨rest, rfl⟩ : ∃ rest, fuel = rest + 1 :=
        ⟨fuel - 1, by simp at enough; omega⟩
      obtain ⟨rfl, tail⟩ := segment
      have tailNodup := (List.nodup_cons.mp nodup).2
      have notYet : table.next node ≠ some p := by
        intro link
        rw [link] at tail
        cases front with
        | nil =>
            have same : p = previous := Option.some.inj tail.1
            simp [same] at tailNodup
        | cons second front =>
            have same : p = second := Option.some.inj tail.1
            simp [same] at tailNodup
      calc
        table.searchPrevious p (rest + 1) (some node) =
            table.searchPrevious p rest (table.next node) := if_neg notYet
        _ = .ok previous :=
          induction tail tailNodup (by simp at enough; omega)

private theorem erase_middle {front back : List ProcId} {previous : ProcId}
    (nodup : (front ++ previous :: p :: back).Nodup) :
    (front ++ previous :: p :: back).erase p = front ++ previous :: back := by
  have reshaped : front ++ previous :: p :: back =
      (front ++ [previous]) ++ p :: back := by simp
  have absent : p ∉ front ++ [previous] := by
    rw [reshaped] at nodup
    intro member
    exact (List.nodup_append.mp nodup).2.2 p member p (by simp) rfl
  rw [reshaped, List.erase_append_right _ absent]
  simp

/-- `dequeue` of the head of a queue. -/
private theorem dequeue_head_eq (low : (table.proc p).priority < nprio)
    (head : table.queueFirst (table.proc p).priority = some p) :
    table.dequeue p = .ok
      { table with
        queueFirst := Function.update table.queueFirst
          (table.proc p).priority (table.next p)
        queueLast := Function.update table.queueLast
          (table.proc p).priority
          (if table.queueLast (table.proc p).priority = some p then none
            else table.queueLast (table.proc p).priority) } := by
  unfold PTable.dequeue
  rw [if_neg (Nat.not_le.mpr low), if_pos head]
  by_cases last : table.queueLast (table.proc p).priority = some p
  · simp [last, PTable.next, bind, Except.bind]
  · simp [last, PTable.next, bind, Except.bind]

/-- `dequeue` of a process behind `previous`. -/
private theorem dequeue_after_eq {previous : ProcId}
    (low : (table.proc p).priority < nprio)
    (notHead : table.queueFirst (table.proc p).priority ≠ some p)
    (found : table.searchPrevious p nproc
      (table.queueFirst (table.proc p).priority) = .ok previous) :
    table.dequeue p = .ok
      { table.update previous fun entry =>
          { entry with nextProc := table.next p } with
        queueLast := Function.update table.queueLast
          (table.proc p).priority
          (if table.queueLast (table.proc p).priority = some p
            then some previous
            else table.queueLast (table.proc p).priority) } := by
  unfold PTable.dequeue
  rw [if_neg (Nat.not_le.mpr low), if_neg notHead, found]
  by_cases last : table.queueLast (table.proc p).priority = some p
  · simp [last, PTable.next, bind, Except.bind]
  · simp [last, PTable.next, bind, Except.bind]
    rfl

/-- A table that differs from a related one only in the queue of one level,
which lost some of its processes. -/
private theorem queues_shrink {result : PTable} {level : Nat}
    {nodes : List ProcId} (queues : Queues table levels)
    (low : level < nprio)
    (queue : LinkedQueue result.next (result.queueFirst level)
      (result.queueLast level) nodes)
    (subset : nodes ⊆ levels level)
    (frame : ∀ index < nprio, index ≠ level →
      result.queueFirst index = table.queueFirst index ∧
        result.queueLast index = table.queueLast index ∧
        ∀ q ∈ levels index, result.next q = table.next q)
    (views : result.view = table.view) :
    Queues result (Function.update levels level nodes) := by
  have samePriority : ∀ q, (result.proc q).priority =
      (table.proc q).priority := by
    intro q
    rw [← PTable.view_priority, views, PTable.view_priority]
  constructor
  · intro index indexLow
    by_cases same : index = level
    · subst index
      simpa using queue
    · obtain ⟨firstEq, lastEq, links⟩ := frame index indexLow same
      rw [firstEq, lastEq]
      simpa [same] using (queues.queue index indexLow).congr links
  · intro index indexLow q member
    rw [samePriority]
    by_cases same : index = level
    · subst index
      exact queues.priority level low q (subset (by simpa using member))
    · exact queues.priority index indexLow q (by simpa [same] using member)
  · intro q
    rw [samePriority]
    exact queues.bounded q
  · intro index high
    have different : index ≠ level := by omega
    simpa [different] using queues.empty index high

private theorem dequeue_head_refines {rest : List ProcId}
    (queues : Queues table levels)
    (nodes : levels (table.proc p).priority = p :: rest) :
    ∃ result, table.dequeue p = .ok result ∧
      Queues result (Function.update levels (table.proc p).priority rest) ∧
      result.view = table.view := by
  have low := queues.bounded p
  have queue := queues.queue _ low
  rw [nodes] at queue
  have head : table.queueFirst (table.proc p).priority = some p := by
    simpa using queue.first_eq
  refine ⟨_, dequeue_head_eq low head, ?_, rfl⟩
  apply queues_shrink queues low
  · change LinkedQueue table.next _ _ rest
    simpa using queue.unlink_head
  · rw [nodes]
    exact List.subset_cons_self p rest
  · intro index _ different
    refine ⟨?_, ?_, fun q _ => rfl⟩
    · simp [different]
    · simp [different]
  · rfl

private theorem dequeue_after_refines {front back : List ProcId}
    {previous : ProcId} (queues : Queues table levels)
    (nodes : levels (table.proc p).priority =
      front ++ previous :: p :: back) :
    ∃ result, table.dequeue p = .ok result ∧
      Queues result (Function.update levels (table.proc p).priority
        (front ++ previous :: back)) ∧
      result.view = table.view := by
  have low := queues.bounded p
  have queue := queues.queue _ low
  rw [nodes] at queue
  have notHead : table.queueFirst (table.proc p).priority ≠ some p := by
    intro head
    have nodup := queue.nodup
    rw [queue.first_eq] at head
    cases front with
    | nil =>
        have same : previous = p := by simpa using head
        simp [same] at nodup
    | cons node front =>
        have same : node = p := by simpa using head
        simp [same] at nodup
  have short : front.length < nproc := by
    have bound := length_le_nproc queue.nodup
    simp at bound
    omega
  have found := searchPrevious_eq queue.chain queue.nodup short
  refine ⟨_, dequeue_after_eq low notHead found, ?_, ?_⟩
  · apply queues_shrink queues low
    · have unlinked := queue.unlink_after
      rw [← table.next_update_link previous (table.next p)] at unlinked
      simp only [Function.update_self]
      exact unlinked.congr fun q _ => rfl
    · rw [nodes]
      intro q member
      simp only [List.mem_append, List.mem_cons] at member ⊢
      tauto
    · intro index indexLow different
      refine ⟨rfl, ?_, ?_⟩
      · simp [different]
      · intro q member
        have notPrevious : q ≠ previous := by
          rintro rfl
          apply queues.disjoint indexLow low different member
          simp [nodes]
        exact (congrFun (table.next_update_link previous (table.next p)) q).trans
          (by simp [notPrevious])
    · exact table.view_update_link previous (table.next p)
  · exact table.view_update_link previous (table.next p)

/-- `dequeue` of a queued process, at whatever place, removes just that
process from its list. -/
theorem dequeue_refines (queues : Queues table levels)
    (member : p ∈ levels (table.proc p).priority) :
    ∃ result, table.dequeue p = .ok result ∧
      Queues result (levels.remove (table.proc p).priority p) ∧
      result.view = table.view := by
  have nodup := (queues.queue _ (queues.bounded p)).nodup
  obtain ⟨before, back, nodes⟩ := List.append_of_mem member
  unfold Levels.remove
  rcases List.eq_nil_or_concat before with atHead | ⟨front, previous, behind⟩
  · subst before
    rw [nodes]
    simpa using dequeue_head_refines queues nodes
  · have reshaped : levels (table.proc p).priority =
        front ++ previous :: p :: back := by
      rw [nodes, behind]
      simp
    rw [reshaped] at nodup ⊢
    rw [erase_middle nodup]
    exact dequeue_after_refines queues reshaped

end Dequeue

/-! ## `priority_boost` -/

section Boost

variable {table : PTable} {levels : Levels ProcId}

/-- The search for the first non-empty queue stops at the first level whose
list is not empty. -/
private theorem firstNonEmptyQueue_spec (table : PTable)
    (remaining level : Nat) :
    let first := table.firstNonEmptyQueue remaining level
    level ≤ first ∧ first ≤ level + remaining ∧
      (∀ index, level ≤ index → index < first →
        table.queueFirst index = none) ∧
      (first < level + remaining → table.queueFirst first ≠ none) := by
  induction remaining generalizing level with
  | zero =>
      refine ⟨Nat.le_refl _, Nat.le_refl _, ?_, ?_⟩
      · intro index lower upper
        simp only [PTable.firstNonEmptyQueue] at upper
        omega
      · simp [PTable.firstNonEmptyQueue]
  | succ remaining induction =>
      unfold PTable.firstNonEmptyQueue
      by_cases nothing : table.queueFirst level = none
      · rw [if_pos nothing]
        obtain ⟨lower, upper, empty, stop⟩ := induction (level + 1)
        refine ⟨by omega, by omega, ?_, fun bound => stop (by omega)⟩
        intro index indexLower indexUpper
        by_cases same : index = level
        · rw [same]
          exact nothing
        · exact empty index (by omega) indexUpper
      · rw [if_neg nothing]
        refine ⟨Nat.le_refl _, by omega, ?_, fun _ => nothing⟩
        intro index lower upper
        omega

/-- The splicing loop appends the lists of the remaining levels. -/
private theorem spliceQueues_spec {start : Option ProcId}
    (disjoint : ∀ left < nprio, ∀ right < nprio, left ≠ right →
      (levels left).Disjoint (levels right)) :
    ∀ {remaining level : Nat} {table : PTable} {process : ProcId},
      level + remaining ≤ nprio →
      LinkedQueue table.next start (some process)
        (Levels.order level levels) →
      (∀ index, level ≤ index → index < level + remaining →
        LinkedQueue table.next (table.queueFirst index)
          (table.queueLast index) (levels index)) →
      ∃ result last,
        PTable.spliceQueues remaining level (some process) table =
          .ok (result, some last) ∧
        LinkedQueue result.next start (some last)
          (Levels.order (level + remaining) levels) ∧
        result.queueFirst = table.queueFirst ∧
        result.queueLast = table.queueLast ∧
        result.view = table.view := by
  intro remaining
  induction remaining with
  | zero =>
      intro level table process _ queue _
      exact ⟨table, process, rfl, queue, rfl, rfl, rfl⟩
  | succ remaining induction =>
      intro level table process bound queue rest
      have here := rest level (Nat.le_refl _) (by omega)
      unfold PTable.spliceQueues
      by_cases nothing : table.queueFirst level = none
      · rw [if_pos nothing]
        have emptyHere : levels level = [] := here.first_eq_none_iff.mp nothing
        have further : LinkedQueue table.next start (some process)
            (Levels.order (level + 1) levels) := by
          rw [Levels.order_succ, emptyHere, List.append_nil]
          exact queue
        have done := induction (by omega) further
          fun index lower upper => rest index (by omega) (by omega)
        rwa [Nat.add_right_comm level 1 remaining] at done
      · rw [if_neg nothing]
        have nonempty : levels level ≠ [] := fun isEmpty =>
          nothing (here.first_eq_none_iff.mpr isEmpty)
        obtain ⟨last, lastEq⟩ : ∃ last, table.queueLast level = some last :=
          Option.ne_none_iff_exists'.mp fun isNone =>
            nonempty (here.last_eq_none_iff.mp isNone)
        have apart : (Levels.order level levels).Disjoint (levels level) := by
          intro candidate early late
          obtain ⟨index, indexLow, member⟩ := Levels.mem_order.mp early
          exact disjoint index (by omega) level (by omega) (by omega)
            member late
        have processMember : process ∈ Levels.order level levels := by
          obtain ⟨front, equality⟩ := queue.eq_append_last rfl
          simp [equality]
        have spliced := queue.splice here nonempty apart
        rw [lastEq, ← Levels.order_succ] at spliced
        simp only [lastEq]
        rw [← table.next_update_link] at spliced
        have further : ∀ index, level + 1 ≤ index →
            index < level + 1 + remaining →
            LinkedQueue
              (table.update process fun entry =>
                { entry with nextProc := table.queueFirst level }).next
              (table.queueFirst index) (table.queueLast index)
              (levels index) := by
          intro index lower upper
          rw [PTable.next_update_link]
          apply (rest index (by omega) (by omega)).update_of_not_mem
          intro member
          obtain ⟨small, smallLow, smallMember⟩ :=
            Levels.mem_order.mp processMember
          exact disjoint small (by omega) index (by omega) (by omega)
            smallMember member
        obtain ⟨result, final, success, whole, firsts, lasts, views⟩ :=
          induction (by omega) spliced further
        refine ⟨result, final, success, ?_, firsts, lasts, ?_⟩
        · rwa [Nat.add_right_comm level 1 remaining] at whole
        · rw [views, PTable.view_update_link]

/-- A table whose only queue is that of level 0. -/
private theorem queues_collapse {result : PTable}
    (queue : LinkedQueue result.next (result.queueFirst 0)
      (result.queueLast 0) (Levels.order nprio levels))
    (zero : ∀ p, (result.proc p).priority = 0) :
    Queues result.clearQueues (levels.collapse nprio) := by
  constructor
  · intro level low
    by_cases first : level = 0
    · subst level
      have cleared : LinkedQueue result.clearQueues.next
          (result.queueFirst 0) (result.queueLast 0)
          (Levels.order nprio levels) := queue.congr fun _ _ => rfl
      simpa [PTable.clearQueues, Levels.collapse] using cleared
    · have upper : 1 ≤ level ∧ level < nprio := ⟨by omega, low⟩
      simpa [PTable.clearQueues, Levels.collapse, first, upper] using
        LinkedQueue.nil
  · intro level _ p member
    by_cases first : level = 0
    · rw [first]
      exact zero p
    · simp [Levels.collapse, first] at member
  · intro p
    have priority := zero p
    change (result.proc p).priority < nprio
    rw [priority]
    exact nprio_pos
  · intro level high
    have first : level ≠ 0 := by
      have positive := nprio_pos
      omega
    simp [Levels.collapse, first]

/-- `priority_boost` when every queue is empty. -/
private theorem priorityBoost_empty (queues : Queues table levels)
    (nothing : ∀ level < nprio, table.queueFirst level = none) :
    Queues
      (PTable.clearQueues
        { table with proc := fun p => { table.proc p with priority := 0 } })
      (levels.collapse nprio) := by
  have emptyLevels : ∀ level < nprio, levels level = [] := fun level low =>
    (queues.queue level low).first_eq_none_iff.mp (nothing level low)
  have queue := queues.queue 0 nprio_pos
  apply queues_collapse
  · rw [Levels.order_eq_nil emptyLevels]
    rw [emptyLevels 0 nprio_pos] at queue
    exact queue
  · intro p
    rfl

/-- `priority_boost` concatenates the lists at level 0. -/
theorem priorityBoost_refines (queues : Queues table levels) :
    ∃ result, table.priorityBoost = .ok result ∧
      Queues result (levels.collapse nprio) ∧
      result.view = fun p => { table.view p with priority := 0 } := by
  let zeroed : PTable :=
    { table with proc := fun p => { table.proc p with priority := 0 } }
  let first := zeroed.firstNonEmptyQueue nprio 0
  obtain ⟨_, upper, before, stop⟩ :=
    firstNonEmptyQueue_spec zeroed nprio 0
  by_cases found : first < nprio
  · have here := queues.queue first found
    have nonempty : levels first ≠ [] := fun isEmpty =>
      stop (by simpa using found) (here.first_eq_none_iff.mpr isEmpty)
    obtain ⟨process, lastEq⟩ :
        ∃ process, table.queueLast first = some process :=
      Option.ne_none_iff_exists'.mp fun isNone =>
        nonempty (here.last_eq_none_iff.mp isNone)
    have emptyBefore : Levels.order first levels = [] := by
      apply Levels.order_eq_nil
      intro level low
      exact (queues.queue level (by omega)).first_eq_none_iff.mp
        (before level (by omega) low)
    let started : PTable :=
      { zeroed with
        queueFirst :=
          Function.update table.queueFirst 0 (table.queueFirst first) }
    have queue : LinkedQueue started.next (table.queueFirst first)
        (some process) (Levels.order (first + 1) levels) := by
      rw [Levels.order_succ, emptyBefore, List.nil_append, ← lastEq]
      exact here
    have rest : ∀ level, first + 1 ≤ level →
        level < first + 1 + (nprio - (first + 1)) →
        LinkedQueue started.next (started.queueFirst level)
          (started.queueLast level) (levels level) := by
      intro level lower upper
      have notFirst : level ≠ 0 := by omega
      have same : started.queueFirst level = table.queueFirst level := by
        simp [started, notFirst]
      rw [same]
      exact queues.queue level (by omega)
    obtain ⟨spliced, last, success, whole, firsts, lasts, views⟩ :=
      spliceQueues_spec
        (fun left leftLow right rightLow different =>
          queues.disjoint leftLow rightLow different)
        (by omega) queue rest
    have total : first + 1 + (nprio - (first + 1)) = nprio := by omega
    rw [total] at whole
    have started_success : table.priorityBoost =
        .ok (PTable.clearQueues
          { spliced with
            queueLast := Function.update spliced.queueLast 0
              (some last) }) := by
      calc
        table.priorityBoost =
            (PTable.spliceQueues (nprio - (first + 1)) (first + 1)
              (table.queueLast first) started).bind fun pair =>
                .ok (PTable.clearQueues
                  { pair.1 with
                    queueLast := Function.update pair.1.queueLast 0
                      pair.2 }) := if_pos found
        _ = _ := by
          rw [lastEq, success]
          rfl
    refine ⟨_, started_success, ?_, ?_⟩
    · apply queues_collapse
      · have firstEq : spliced.queueFirst 0 = table.queueFirst first := by
          rw [firsts]
          simp [started]
        simp only [Function.update_self]
        rw [firstEq]
        exact whole
      · intro p
        have same := congrFun views p
        have priority := congrArg Proc.priority same
        exact priority
    · funext p
      have same := congrFun views p
      exact same
  · have nothing : ∀ level < nprio, table.queueFirst level = none := by
      intro level low
      exact before level (by omega) (by omega)
    refine ⟨_, ?_, priorityBoost_empty queues nothing, rfl⟩
    unfold PTable.priorityBoost
    simp only [bind, Except.bind]
    exact if_neg found

end Boost

/-! ## Refinement of the abstract scheduler -/

theorem queues_zero : Queues .zero fun _ => [] := by
  constructor
  · intro level _
    exact LinkedQueue.nil
  · intro level _ p member
    simp at member
  · intro p
    exact nprio_pos
  · intro level _
    rfl

/-- The pointer queues refine the scheduler that keeps one first-in first-out
list for each level.  None of the three operations faults, and in particular
the search loop of `dequeue` ends without following a null pointer. -/
theorem queue_operations_refine_levels
    {table : PTable} {levels : Levels ProcId}
    (queues : Queues table levels) :
    (∀ p, (∀ level, p ∉ levels level) →
      ∃ result, table.enqueue p = .ok result ∧
        Queues result (levels.push (table.proc p).priority p)) ∧
    (∀ level p, p ∈ levels level →
      ∃ result, table.dequeue p = .ok result ∧
        Queues result (levels.remove level p)) ∧
    ∃ result, table.priorityBoost = .ok result ∧
      Queues result (levels.collapse nprio) ∧
      ∀ p, (result.proc p).priority = 0 := by
  refine ⟨?_, ?_, ?_⟩
  · intro p absent
    obtain ⟨result, success, related, _⟩ :=
      enqueue_refines queues (absent (table.proc p).priority)
    exact ⟨result, success, related⟩
  · intro level p member
    obtain ⟨rfl, member⟩ := queues.mem_iff.mp member
    obtain ⟨result, success, related, _⟩ := dequeue_refines queues member
    exact ⟨result, success, related⟩
  · obtain ⟨result, success, related, views⟩ := priorityBoost_refines queues
    refine ⟨result, success, related, ?_⟩
    intro p
    rw [← PTable.view_priority, views]

/-- Two processes enter an empty queue and the second one leaves it. -/
theorem queue_operations_refine_levels_two_processes :
    ∃ first second third : PTable,
      PTable.zero.enqueue 0 = .ok first ∧
      first.enqueue 1 = .ok second ∧
      second.dequeue 1 = .ok third ∧
      Queues second (Levels.push (Levels.push (fun _ => []) 0 0) 0 1) := by
  obtain ⟨first, firstSuccess, firstQueues⟩ :=
    (queue_operations_refine_levels queues_zero).1 0 (by simp)
  have priorities : (first.proc 1).priority = 0 := by
    have equality := (Except.ok.inj firstSuccess).symm
    subst equality
    rfl
  obtain ⟨second, secondSuccess, secondQueues⟩ :=
    (queue_operations_refine_levels firstQueues).1 1 (by
      intro level member
      by_cases zero : level = 0
      · subst level
        simp [Levels.push, PTable.zero, nproc] at member
      · simp [Levels.push, PTable.zero, zero] at member)
  rw [priorities] at secondQueues
  obtain ⟨third, thirdSuccess, _⟩ :=
    (queue_operations_refine_levels secondQueues).2.1 0 1
      (by simp [Levels.push])
  exact ⟨first, second, third, firstSuccess, secondSuccess, thirdSuccess,
    secondQueues⟩

end Xv6
