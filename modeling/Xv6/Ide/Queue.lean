import Mathlib.Data.Fintype.EquivFin
import Xv6.Ide.Driver

/-!
# Requests are completed in order

The buffers whose requests are pending form a list through `qnext`, and the
drive works on the first of them.  Whoever waits in `iderw` holds the lock of
its buffer, so that a buffer is never queued twice and nobody else changes its
flags: they say whether the request is completed.
-/

namespace Xv6.Ide

open Lib

variable {Process Data : Type}
  {m after : Machine Process Data} {nodes : List (Fin nbuf)}
  {p q : Process} {b c : Fin nbuf} {n : Nat}

/-- `B_VALID` is set and `B_DIRTY` is not. -/
def Machine.Synced (m : Machine Process Data) (b : Fin nbuf) : Prop :=
  (m.buf b).valid = true ∧ (m.buf b).dirty = false

/-- A process waits for the request with a number. -/
structure Waits (m : Machine Process Data) (p : Process) (b : Fin nbuf)
    (n : Nat) : Prop where
  lock : (m.buf b).lock = some p
  request : m.arrived[n]? = some b
  flags : m.Synced b ↔ n < m.completed.length

/-- What always holds, for the list of the pending buffers. -/
structure Queued (m : Machine Process Data) (nodes : List (Fin nbuf)) :
    Prop where
  chain : Segment m.qnext m.idequeue nodes none
  nodup : nodes.Nodup
  order : m.arrived = m.completed ++ nodes
  head : m.drive.map Request.buf = nodes.head?
  raised : m.raised = true → nodes ≠ []
  waits : ∀ p b n, m.control p = .iderw b n → Waits m p b n
  waiting : ∀ b ∈ nodes, ∃ p n, m.control p = .iderw b n ∧
    m.completed.length ≤ n

theorem Machine.Initial.queued (initial : m.Initial) : Queued m [] where
  chain := initial.idequeue
  nodup := List.nodup_nil
  order := by rw [initial.arrived, initial.completed, List.append_nil]
  head := by
    rw [initial.drive]
    rfl
  raised := by
    rw [initial.raised]
    exact nofun
  waits := by
    intro p b n waits
    rw [initial.control] at waits
    cases waits
  waiting := nofun

/-- A process that is not in `iderw` has no buffer in the queue. -/
theorem Queued.not_mem (queued : Queued m nodes) (idle : m.control p = .idle)
    (lock : (m.buf b).lock = some p) : b ∉ nodes := by
  intro member
  obtain ⟨q, n, waits, _⟩ := queued.waiting b member
  have same := (queued.waits q b n waits).lock
  rw [lock] at same
  cases same
  rw [idle] at waits
  cases waits

/-! ## Actions outside the queue -/

/-- Changes to the buffers that nobody waits for. -/
theorem Queued.congr (queued : Queued m nodes)
    (qnext : after.qnext = m.qnext) (idequeue : after.idequeue = m.idequeue)
    (drive : after.drive = m.drive)
    (raised : after.raised = true → nodes ≠ [])
    (control : after.control = m.control)
    (arrived : after.arrived = m.arrived)
    (completed : after.completed = m.completed)
    (buf : ∀ p b n, m.control p = .iderw b n → after.buf b = m.buf b) :
    Queued after nodes where
  chain := by
    rw [qnext, idequeue]
    exact queued.chain
  nodup := queued.nodup
  order := by rw [arrived, completed, queued.order]
  head := by rw [drive, queued.head]
  raised := raised
  waits := by
    intro p b n waits
    rw [control] at waits
    obtain ⟨lock, request, flags⟩ := queued.waits p b n waits
    have same := buf p b n waits
    refine ⟨by rw [same, lock], by rw [arrived, request], ?_⟩
    unfold Machine.Synced
    rw [same, completed]
    exact flags
  waiting := by
    rw [control, completed]
    exact queued.waiting

/-- One buffer changes that nobody waits for. -/
theorem Queued.setBuf (queued : Queued m nodes)
    (free : ∀ p n, m.control p ≠ .iderw b n) (buf : Buf Process Data) :
    Queued (m.setBuf b buf) nodes := by
  refine queued.congr rfl rfl rfl queued.raised rfl rfl rfl ?_
  intro p c n waits
  have different : c ≠ b := by
    rintro rfl
    exact free p n waits
  exact m.buf_setBuf_of_ne buf different

theorem Queued.quiet (queued : Queued m nodes) (quiet : m.quiet b = true) :
    ∀ p n, m.control p ≠ .iderw b n := by
  intro p n waits
  unfold Machine.quiet at quiet
  rw [(queued.waits p b n waits).lock] at quiet
  dsimp only at quiet
  rw [waits] at quiet
  cases quiet

/-- The drive ends its command. -/
theorem Queued.finish (queued : Queued m nodes)
    (success : m.finish = some after) : Queued after nodes := by
  unfold Machine.finish at success
  split at success
  case h_1 request busy ready =>
      cases success
      have head := queued.head
      rw [busy] at head
      refine queued.congr rfl rfl rfl ?_ rfl rfl rfl (fun _ _ _ _ => rfl)
      rintro - rfl
      cases head
  case h_2 => cases success

/-! ## Appending -/

theorem lastFrom_eq {qnext : Fin nbuf → Option (Fin nbuf)} {fuel : Nat}
    (chain : Segment qnext (some b) nodes none)
    (enough : nodes.length ≤ fuel) :
    Machine.lastFrom qnext fuel b = nodes.getLast? := by
  induction nodes generalizing b fuel with
  | nil => cases chain
  | cons first nodes ih =>
      obtain ⟨same, rest⟩ := chain
      cases same
      obtain ⟨fuel, rfl⟩ : ∃ more, fuel = more + 1 :=
        ⟨fuel - 1, by rw [List.length_cons] at enough; omega⟩
      rw [Machine.lastFrom]
      cases next : qnext first with
      | none =>
          rw [next] at rest
          cases nodes with
          | nil => rfl
          | cons second nodes => cases rest.1
      | some second =>
          rw [next] at rest
          dsimp only
          rw [ih rest (Nat.le_of_succ_le_succ enough)]
          cases nodes with
          | nil => cases rest
          | cons third nodes => rfl

/-- The buffer goes to the end of the list. -/
theorem append_spec (m : Machine Process Data)
    (chain : Segment m.qnext m.idequeue nodes none)
    (nodup : nodes.Nodup) (absent : b ∉ nodes) :
    ∃ qnext first,
      m.append b = .ok { m with qnext := qnext, idequeue := first } ∧
      Segment qnext first (nodes ++ [b]) none := by
  have chain' :
      Segment (Function.update m.qnext b none) m.idequeue nodes none :=
    chain.update_of_not_mem absent
  have ends : Function.update m.qnext b none b = none :=
    Function.update_self b none m.qnext
  unfold Machine.append
  dsimp only
  cases start : m.idequeue with
  | none =>
      rw [start] at chain
      cases nodes with
      | nil => exact ⟨_, _, rfl, rfl, ends⟩
      | cons first nodes => cases chain.1
  | some first =>
      rw [start] at chain'
      have few : nodes.length ≤ nbuf := by
        have bound := nodup.length_le_card
        rwa [Fintype.card_fin] at bound
      dsimp only
      rw [lastFrom_eq chain' few]
      rcases List.eq_nil_or_concat nodes with rfl | ⟨front, last, rfl⟩
      · cases chain'
      · rw [List.concat_eq_append] at *
        obtain ⟨absent', different⟩ :=
          not_or.mp (mt List.mem_append.mpr absent)
        have before : last ∉ front := by
          intro member
          exact List.disjoint_of_nodup_append nodup member
            (List.mem_singleton_self last)
        rw [List.getLast?_concat]
        refine ⟨_, _, rfl, segment_append.mpr ⟨some b, ?_, rfl, ?_⟩⟩
        · exact chain'.redirect_last before
        · have other : b ≠ last := fun same =>
            different (List.mem_singleton.mpr same)
          rw [Function.update_of_ne other, Function.update_self]
          rfl

/-- A command for the drive. -/
theorem idestart_cases (success : m.idestart b = .ok after) :
    ∃ request : Request Data, request.buf = b ∧
      after = { m with drive := some request } := by
  unfold Machine.idestart at success
  dsimp only at success
  split at success
  · cases success
  · cases success
    exact ⟨_, rfl, rfl⟩

section Steps

variable [DecidableEq Process]

/-- The test behind a `sleep`. -/
theorem Queued.test (queued : Queued m nodes) (p : Process) :
    Queued (m.test p) nodes := by
  unfold Machine.test
  split
  · exact queued
  · rename_i b n waits
    split
    case isFalse => exact queued
    case isTrue ready =>
        have synced : m.Synced b := ⟨ready.1, Bool.eq_false_iff.mpr ready.2⟩
        have done := (queued.waits p b n waits).flags.mp synced
        refine { queued with waits := ?_, waiting := ?_ }
        · intro q c k waits'
          by_cases same : q = p
          · subst same
            rw [m.control_setControl_self] at waits'
            cases waits'
          · rw [m.control_setControl_of_ne .idle same] at waits'
            have others := queued.waits q c k waits'
            exact ⟨others.lock, others.request, others.flags⟩
        · intro c member
          obtain ⟨q, k, waits', pending⟩ := queued.waiting c member
          have different : q ≠ p := by
            rintro rfl
            rw [waits] at waits'
            cases waits'
            omega
          refine ⟨q, k, ?_, pending⟩
          rw [m.control_setControl_of_ne .idle different]
          exact waits'

/-- What the first part of `iderw` does. -/
theorem Queued.iderw_cases (queued : Queued m nodes)
    (idle : m.control p = .idle) (success : m.iderw p b = .ok after) :
    (m.buf b).lock = some p ∧ ¬ m.Synced b ∧ b ∉ nodes ∧
    ∃ qnext first drive,
      Segment qnext first (nodes ++ [b]) none ∧
      drive.map Request.buf = (nodes ++ [b]).head? ∧
      after = Machine.setControl
        { m with
          arrived := m.arrived ++ [b]
          qnext := qnext
          idequeue := first
          drive := drive } p (.iderw b m.arrived.length) := by
  unfold Machine.iderw at success
  split at success
  · cases success
  · rename_i locked
    have locked : (m.buf b).lock = some p := Decidable.not_not.mp locked
    have absent := queued.not_mem idle locked
    split at success
    · cases success
    · rename_i unsynced
      split at success
      · cases success
      · obtain ⟨qnext, first, appended, chain⟩ :=
          append_spec { m with arrived := m.arrived ++ [b] } queued.chain
            queued.nodup absent
        obtain ⟨queue, same, success⟩ := ok_of_bind success
        rw [appended] at same
        cases same
        obtain ⟨started, start, done⟩ := ok_of_bind success
        cases done
        refine ⟨locked, ?_, absent, ?_⟩
        · intro synced
          exact unsynced ⟨synced.1, Bool.eq_false_iff.mp synced.2⟩
        · have head := chain.start_eq_head
          unfold Machine.startFirst at start
          dsimp only at start
          split at start
          case isTrue only =>
              obtain ⟨request, buf, rfl⟩ := idestart_cases start
              refine ⟨qnext, first, some request, chain, ?_, rfl⟩
              rw [← head, only, ← buf]
              rfl
          case isFalse other =>
              cases start
              refine ⟨qnext, first, m.drive, chain, ?_, rfl⟩
              cases nodes with
              | nil => exact (other head).elim
              | cons c nodes =>
                  rw [queued.head]
                  rfl

/-- `iderw` queues its buffer. -/
theorem Queued.iderw (queued : Queued m nodes) (idle : m.control p = .idle)
    (success : m.iderw p b = .ok after) : Queued after (nodes ++ [b]) := by
  obtain ⟨locked, unsynced, absent, qnext, first, drive, chain, head, rfl⟩ :=
    queued.iderw_cases idle success
  have length := congrArg List.length queued.order
  rw [List.length_append] at length
  constructor
  case chain => exact chain
  case nodup =>
      exact List.nodup_append.mpr ⟨queued.nodup, List.nodup_singleton b, by
        rintro c member _ single rfl
        cases List.mem_singleton.mp single
        exact absent member⟩
  case order =>
      change m.arrived ++ [b] = m.completed ++ (nodes ++ [b])
      rw [queued.order, List.append_assoc]
  case head => exact head
  case raised => exact fun _ => List.append_ne_nil_of_right_ne_nil _ nofun
  case waits =>
      intro q c k waits
      by_cases same : q = p
      · subst same
        rw [Machine.control_setControl_self] at waits
        cases waits
        refine ⟨locked, List.getElem?_concat_length, ?_⟩
        constructor
        · exact fun synced => (unsynced synced).elim
        · intro done
          change m.arrived.length < m.completed.length at done
          omega
      · rw [Machine.control_setControl_of_ne _ _ same] at waits
        obtain ⟨lock, request, flags⟩ := queued.waits q c k waits
        refine ⟨lock, ?_, flags⟩
        change (m.arrived ++ [b])[k]? = some c
        obtain ⟨inside, _⟩ := List.getElem?_eq_some_iff.mp request
        rw [List.getElem?_append_left inside, request]
  case waiting =>
      intro c member
      rcases List.mem_append.mp member with old | new
      · obtain ⟨q, k, waits, pending⟩ := queued.waiting c old
        have different : q ≠ p := by
          rintro rfl
          rw [idle] at waits
          cases waits
        refine ⟨q, k, ?_, pending⟩
        rw [Machine.control_setControl_of_ne _ _ different]
        exact waits
      · cases List.mem_singleton.mp new
        refine ⟨p, m.arrived.length, Machine.control_setControl_self _ _ _, ?_⟩
        change m.completed.length ≤ m.arrived.length
        omega

end Steps

/-! ## Completing -/

/-- The request at the head of the queue is the next one to complete. -/
theorem Queued.number_head (queued : Queued m (b :: nodes)) (q : Process)
    (waits : m.control q = .iderw b n) : n = m.completed.length := by
  obtain ⟨lock, request, _⟩ := queued.waits q b n waits
  obtain ⟨p, k, waits', pending⟩ := queued.waiting b List.mem_cons_self
  have lock' := (queued.waits p b k waits').lock
  rw [lock] at lock'
  cases lock'
  rw [waits] at waits'
  cases waits'
  rw [queued.order, List.getElem?_append_right pending] at request
  cases distance : n - m.completed.length with
  | zero => omega
  | succ more =>
      rw [distance, List.getElem?_cons_succ] at request
      exact ((List.nodup_cons.mp queued.nodup).1
        (List.mem_of_getElem? request)).elim

/-- Requests for other buffers have other numbers. -/
theorem Queued.number_other (queued : Queued m (b :: nodes)) (q : Process)
    (waits : m.control q = .iderw c n) (other : c ≠ b) :
    n ≠ m.completed.length := by
  rintro rfl
  have request := (queued.waits q c _ waits).request
  rw [queued.order, List.getElem?_append_right (Nat.le_refl _), Nat.sub_self]
    at request
  cases request
  exact other rfl

/-- What the interrupt handler does: it completes the request of the head, and
gives the next one to the drive. -/
theorem Queued.ideintr_cases (queued : Queued m (b :: nodes)) {failed : Bool}
    (success : m.ideintr failed = .ok after) :
    ∃ data drive,
      drive.map Request.buf = nodes.head? ∧
      after = { m with
        buf := Function.update m.buf b
          { m.buf b with data := data, valid := true, dirty := false }
        idequeue := m.qnext b
        raised := false
        drive := drive
        completed := m.completed ++ [b] } := by
  have head := queued.chain.2.start_eq_head
  unfold Machine.ideintr at success
  rw [queued.chain.1] at success
  dsimp only at success
  split at success
  case h_1 last =>
      cases success
      rw [last] at head
      exact ⟨_, none, head, rfl⟩
  case h_2 next more =>
      obtain ⟨request, buf, rfl⟩ := idestart_cases success
      refine ⟨_, some request, ?_, rfl⟩
      rw [← head, more, ← buf]
      rfl

/-- The interrupt handler takes the head off the queue. -/
theorem Queued.ideintr (queued : Queued m (b :: nodes)) {failed : Bool}
    (success : m.ideintr failed = .ok after) : Queued after nodes := by
  obtain ⟨data, drive, head, rfl⟩ := queued.ideintr_cases success
  obtain ⟨absent, nodup⟩ := List.nodup_cons.mp queued.nodup
  constructor
  case chain => exact queued.chain.2
  case nodup => exact nodup
  case order =>
      change m.arrived = m.completed ++ [b] ++ nodes
      rw [queued.order, List.append_assoc]
      rfl
  case head => exact head
  case raised => exact nofun
  case waits =>
      intro q c k waits
      change m.control q = .iderw c k at waits
      obtain ⟨lock, request, flags⟩ := queued.waits q c k waits
      by_cases same : c = b
      · subst same
        have number := queued.number_head q waits
        constructor
        case lock =>
            dsimp only
            rw [Function.update_self]
            exact lock
        case request => exact request
        case flags =>
            unfold Machine.Synced
            dsimp only
            rw [Function.update_self, List.length_append, number]
            exact iff_of_true ⟨rfl, rfl⟩ (Nat.lt_succ_self _)
      · have number := queued.number_other q waits same
        constructor
        case lock =>
            dsimp only
            rw [Function.update_of_ne same]
            exact lock
        case request => exact request
        case flags =>
            unfold Machine.Synced at flags ⊢
            dsimp only
            rw [Function.update_of_ne same, flags, List.length_append,
              List.length_singleton]
            omega
  case waiting =>
      intro c member
      obtain ⟨q, k, waits, pending⟩ :=
        queued.waiting c (List.mem_cons_of_mem b member)
      have other : c ≠ b := by
        rintro rfl
        exact absent member
      have number := queued.number_other q waits other
      refine ⟨q, k, waits, ?_⟩
      dsimp only
      rw [List.length_append, List.length_singleton]
      omega

/-! ## Runs -/

section Runs

variable [DecidableEq Process]

/-- What a step does to the requests, when the given buffers are pending. -/
def Serves (m : Machine Process Data) (nodes : List (Fin nbuf)) :
    Action Process Data → Machine Process Data → Prop
  | .iderw p b, after =>
      b ∉ nodes ∧ after.arrived = m.arrived ++ [b] ∧
      after.completed = m.completed ∧
      after.control p = .iderw b m.arrived.length
  | .ideintr _, after =>
      after.arrived = m.arrived ∧
      ∃ b rest, nodes = b :: rest ∧ after.completed = m.completed ++ [b]
  | .test p, after =>
      after.arrived = m.arrived ∧ after.completed = m.completed ∧
      ∀ b n, m.control p = .iderw b n → after.control p = .idle →
        m.completed[n]? = some b ∧ after.Synced b
  | _, after => after.arrived = m.arrived ∧ after.completed = m.completed

/-- Whoever returns from `iderw` waited for a completed request. -/
theorem Queued.serves_test (queued : Queued m nodes) (p : Process) :
    Serves m nodes (.test p) (m.test p) := by
  unfold Serves Machine.test
  cases control : m.control p with
  | idle =>
      refine ⟨rfl, rfl, ?_⟩
      intro _ _ waits
      rw [control] at waits
      cases waits
  | iderw b n =>
      dsimp only
      obtain ⟨_, request, flags⟩ := queued.waits p b n control
      split
      case isFalse =>
          refine ⟨rfl, rfl, ?_⟩
          intro _ _ _ idle
          rw [control] at idle
          cases idle
      case isTrue ready =>
          have synced : m.Synced b := ⟨ready.1, Bool.eq_false_iff.mpr ready.2⟩
          refine ⟨rfl, rfl, ?_⟩
          intro _ _ waits _
          rw [control] at waits
          cases waits
          rw [queued.order, List.getElem?_append_left (flags.mp synced)]
            at request
          exact ⟨request, synced⟩

/-- One step: the queue stays a queue, and the requests are served in
order. -/
theorem Queued.next (queued : Queued m nodes) {action : Action Process Data}
    (taken : m.next action = some after) :
    (∃ nodes', Queued after nodes') ∧ Serves m nodes action after := by
  cases action with
  | acquiresleep p b =>
      simp only [Machine.next] at taken
      split at taken
      case isFalse => cases taken
      case isTrue free =>
          cases taken
          refine ⟨⟨nodes, queued.setBuf ?_ _⟩, rfl, rfl⟩
          intro q n waits
          have lock := (queued.waits q b n waits).lock
          rw [free.2] at lock
          cases lock
  | releasesleep p b =>
      simp only [Machine.next] at taken
      split at taken
      case isFalse => cases taken
      case isTrue holds =>
          cases taken
          refine ⟨⟨nodes, queued.setBuf (queued.quiet ?_) _⟩, rfl, rfl⟩
          unfold Machine.quiet
          rw [holds.2]
          exact decide_eq_true holds.1
  | change b valid dirty dev blockno data =>
      simp only [Machine.next] at taken
      split at taken
      case isFalse => cases taken
      case isTrue quiet =>
          cases taken
          exact ⟨⟨nodes, queued.setBuf (queued.quiet quiet) _⟩, rfl, rfl⟩
  | iderw p b =>
      simp only [Machine.next] at taken
      split at taken
      case isFalse => cases taken
      case isTrue idle =>
          have success := ok_of_toOption taken
          obtain ⟨_, _, absent, qnext, first, drive, _, _, rfl⟩ :=
            queued.iderw_cases idle success
          exact ⟨⟨_, queued.iderw idle success⟩, absent, rfl, rfl,
            Machine.control_setControl_self _ _ _⟩
  | test p =>
      cases taken
      exact ⟨⟨nodes, queued.test p⟩, queued.serves_test p⟩
  | finish =>
      refine ⟨⟨nodes, queued.finish taken⟩, ?_⟩
      change m.finish = some after at taken
      unfold Machine.finish at taken
      split at taken
      · cases taken
        exact ⟨rfl, rfl⟩
      · cases taken
  | ideintr failed =>
      simp only [Machine.next] at taken
      split at taken
      case isFalse => cases taken
      case isTrue raised =>
          have success := ok_of_toOption taken
          cases nodes with
          | nil => exact (queued.raised raised rfl).elim
          | cons b nodes =>
              refine ⟨⟨nodes, queued.ideintr success⟩, ?_⟩
              obtain ⟨data, drive, _, rfl⟩ := queued.ideintr_cases success
              exact ⟨rfl, b, nodes, rfl, rfl⟩

/-- The loop of `iderw` finds the end of the queue. -/
theorem Queued.iderw_ne_hang (queued : Queued m nodes)
    (idle : m.control p = .idle) : m.iderw p b ≠ .error .hang := by
  intro hangs
  unfold Machine.iderw at hangs
  split at hangs
  · cases hangs
  · rename_i locked
    split at hangs
    · cases hangs
    · split at hangs
      · cases hangs
      · obtain ⟨qnext, first, appended, _⟩ :=
          append_spec { m with arrived := m.arrived ++ [b] } queued.chain
            queued.nodup
            (queued.not_mem idle (Decidable.not_not.mp locked))
        rw [appended] at hangs
        change (Machine.startFirst _ b >>= fun _ => _) = _ at hangs
        unfold Machine.startFirst Machine.idestart at hangs
        dsimp only at hangs
        split at hangs
        · split at hangs
          · cases hangs
          · cases hangs
        · cases hangs

/-- In every state the buffers in the queue are those whose requests are
pending, in the order in which they came.  The drive works on the first of
them, each interrupt completes that one, and `iderw` returns when its own
request is completed. -/
theorem requests_in_order {start : Machine Process Data}
    {history : History (Machine Process Data) (Action Process Data)}
    (initial : start.Initial)
    (run : Run (driver Process Data) start history m) :
    ∃ nodes,
      Segment m.qnext m.idequeue nodes none ∧ nodes.Nodup ∧
      m.arrived = m.completed ++ nodes ∧
      m.drive.map Request.buf = nodes.head? ∧
      (∀ p b, m.control p = .idle → m.iderw p b ≠ .error .hang) ∧
      ∀ action after, (driver Process Data).step m action after →
        Serves m nodes action after := by
  have reached : ∃ nodes, Queued m nodes := by
    apply run.invariant
    · exact ⟨[], initial.queued⟩
    · rintro before action after taken ⟨nodes, queued⟩
      exact (queued.next taken).1
  obtain ⟨nodes, queued⟩ := reached
  refine ⟨nodes, queued.chain, queued.nodup, queued.order, queued.head, ?_, ?_⟩
  · exact fun p b idle => queued.iderw_ne_hang idle
  · exact fun action after taken => (queued.next taken).2

/-- A driver with two processes, for blocks that hold a number. -/
def small : Machine Bool Nat where
  buf _ := ⟨false, false, 0, 0, none, 0⟩
  qnext _ := none
  idequeue := none
  havedisk1 := false
  drive := none
  raised := false
  disk _ _ := 7
  control _ := .idle
  arrived := []
  completed := []

def left : Fin nbuf := ⟨3, by decide⟩

def right : Fin nbuf := ⟨5, by decide⟩

/-- Two processes ask for two buffers, and the first one is served. -/
theorem requests_in_order_two :
    ∃ history m, Run (driver Bool Nat) small history m ∧
      m.arrived = [left, right] ∧ m.completed = [left] ∧
      (m.buf left).data = 7 ∧ m.idequeue = some right ∧
      m.drive.map Request.buf = some right := by
  have initial : small.Initial := ⟨rfl, rfl, rfl, fun _ => rfl, rfl, rfl⟩
  have run : Run (driver Bool Nat) small _ _ :=
    .step (.step (.step (.step (.step (.step .refl
      (show small.next (.acquiresleep true left) = some _ from rfl))
      (show Machine.next _ (.acquiresleep false right) = some _ from rfl))
      (show Machine.next _ (.iderw true left) = some _ from rfl))
      (show Machine.next _ (.iderw false right) = some _ from rfl))
      (show Machine.next _ .finish = some _ from rfl))
      (show Machine.next _ (.ideintr false) = some _ from rfl)
  obtain ⟨nodes, chain, _, order, head, _, _⟩ := requests_in_order initial run
  have pending : nodes = [right] := (List.append_cancel_left order).symm
  refine ⟨_, _, run, rfl, rfl, rfl, ?_, ?_⟩
  · rw [chain.start_eq_head, pending]
    rfl
  · rw [head, pending]
    rfl

end Runs

end Xv6.Ide
