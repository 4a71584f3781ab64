import Xv6.Pipe.Steps

/-!
# Pipes are first in, first out

The history of a run says which bytes were stored and which were returned.  A
`piperead` that is still copying has taken bytes out that it has not returned
yet; only one process can be there, the holder of the lock.
-/

namespace Xv6.Pipe

open Lib

variable {Process : Type} [DecidableEq Process]

/-- The byte that a step stores. -/
def storedBy (m : Machine Process) : Action Process → List UInt8
  | .run p =>
      match m.control p with
      | .write (byte :: _) _ => if m.pipe.Full then [] else [byte]
      | _ => []
  | _ => []

/-- The bytes of a `piperead` that returns in a step. -/
def returnedBy (m : Machine Process) : Action Process → List UInt8
  | .run p =>
      match m.control p with
      | .copy n got => if n = 0 ∨ m.pipe.Empty then got else []
      | _ => []
  | _ => []

/-- The bytes stored by the `pipewrite`s of a run, oldest first. -/
def stored : History (Machine Process) (Action Process) → List UInt8
  | [] => []
  | (m, action) :: past => stored past ++ storedBy m action

/-- The bytes returned by the `piperead`s of a run, oldest first. -/
def returned : History (Machine Process) (Action Process) → List UInt8
  | [] => []
  | (m, action) :: past => returned past ++ returnedBy m action

/-- What a `piperead` that holds the lock has copied. -/
def inFlight (m : Machine Process) : List UInt8 :=
  match m.lock with
  | some p => (m.control p).copied
  | none => []

/-- The buffer is in order. -/
def Ordered (pipe : Pipe) : Prop :=
  shape.Represents pipe.data pipe.nread pipe.nwrite pipe.buffered

theorem Ordered.of_represents {pipe : Pipe} {queue : List UInt8}
    (represents : shape.Represents pipe.data pipe.nread pipe.nwrite queue) :
    Ordered pipe ∧ pipe.buffered = queue := by
  have same : pipe.buffered = queue := represents.contents_eq
  refine ⟨?_, same⟩
  unfold Ordered
  rw [same]
  exact represents

theorem uintAdd_eq (left right : Nat) :
    uintAdd left right = (left + right) % shape.modulus := rfl

theorem Ordered.full_iff {pipe : Pipe} (ordered : Ordered pipe) :
    pipe.Full ↔ pipe.buffered.length = pipeSize := by
  have represents : shape.Represents _ _ _ _ := ordered
  exact represents.put_eq_full_iff

theorem Ordered.empty_iff {pipe : Pipe} (ordered : Ordered pipe) :
    pipe.Empty ↔ pipe.buffered = [] := by
  have represents : shape.Represents _ _ _ _ := ordered
  exact represents.taken_eq_put_iff

theorem Ordered.store {pipe : Pipe} {byte : UInt8} (ordered : Ordered pipe)
    (room : ¬ pipe.Full) :
    shape.Represents (pipe.store byte).data (pipe.store byte).nread
      (pipe.store byte).nwrite (pipe.buffered ++ [byte]) := by
  have represents : shape.Represents _ _ _ _ := ordered
  have short : pipe.buffered.length < shape.capacity :=
    lt_of_le_of_ne represents.fits fun full => room (ordered.full_iff.mpr full)
  have pushed := represents.push short byte
  rw [← uintAdd_eq] at pushed
  exact pushed

theorem Ordered.advance {pipe : Pipe} (ordered : Ordered pipe)
    (some : ¬ pipe.Empty) :
    ∃ queue, pipe.buffered = pipe.front :: queue ∧
      shape.Represents pipe.advance.data pipe.advance.nread
        pipe.advance.nwrite queue := by
  have represents : shape.Represents _ _ _ _ := ordered
  have nonempty : pipe.buffered ≠ [] :=
    fun nothing => some (ordered.empty_iff.mpr nothing)
  obtain ⟨first, queue, split⟩ := List.exists_cons_of_ne_nil nonempty
  rw [split] at represents
  obtain ⟨front, rest⟩ := represents.pop
  rw [← uintAdd_eq] at rest
  refine ⟨queue, ?_, rest⟩
  rw [split, ← front]
  rfl

/-- The bytes in `data` and how a step moves them: from a writer into the
buffer, from the buffer to a reader, from the reader to its caller. -/
structure Moves (m : Machine Process) (action : Action Process)
    (after : Machine Process) (queue : List UInt8) : Prop where
  represents : shape.Represents after.pipe.data after.pipe.nread
    after.pipe.nwrite queue
  balance : inFlight m ++ m.pipe.buffered ++ storedBy m action =
    returnedBy m action ++ (inFlight after ++ queue)

section Bytes

variable {m after : Machine Process} {action : Action Process} {p : Process}

omit [DecidableEq Process]

theorem inFlight_of_holder (holder : m.lock = some p) :
    inFlight m = (m.control p).copied := by
  unfold inFlight
  rw [holder]

theorem inFlight_of_free (free : m.lock = none) : inFlight m = [] := by
  unfold inFlight
  rw [free]

theorem inFlight_stay (alone : Alone p m after) (lock : after.lock = m.lock)
    (copied : (after.control p).copied = (m.control p).copied) :
    inFlight after = inFlight m := by
  cases holder : m.lock with
  | none =>
      rw [inFlight_of_free holder, inFlight_of_free (lock.trans holder)]
  | some q =>
      rw [inFlight_of_holder holder, inFlight_of_holder (lock.trans holder)]
      by_cases same : q = p
      · rw [same, copied]
      · exact alone.copied same

theorem Moves.refl {pipe : Pipe} (ordered : Ordered m.pipe)
    (data : pipe.data = m.pipe.data) (nread : pipe.nread = m.pipe.nread)
    (nwrite : pipe.nwrite = m.pipe.nwrite) (same : after.pipe = pipe)
    (silent : storedBy m action = [])
    (flight : inFlight m = returnedBy m action ++ inFlight after) :
    ∃ queue, Moves m action after queue := by
  refine ⟨m.pipe.buffered, ?_, ?_⟩
  · rw [same, data, nread, nwrite]
    exact ordered
  · rw [silent, flight]
    simp

/-- A step that moves no byte. -/
theorem Moves.stay (ordered : Ordered m.pipe) (alone : Alone p m after)
    (pipe : after.pipe = m.pipe) (lock : after.lock = m.lock)
    (copied : (after.control p).copied = (m.control p).copied)
    (silent : storedBy m action = []) (mute : returnedBy m action = []) :
    ∃ queue, Moves m action after queue := by
  refine Moves.refl ordered rfl rfl rfl pipe silent ?_
  rw [mute, List.nil_append, inFlight_stay alone lock copied]

/-- A step that gives up the lock. -/
theorem Moves.unlock {pipe : Pipe} (exclusive : Exclusive m)
    (ordered : Ordered m.pipe)
    (locked : (m.control p).locked = true) (free : after.lock = none)
    (data : pipe.data = m.pipe.data) (nread : pipe.nread = m.pipe.nread)
    (nwrite : pipe.nwrite = m.pipe.nwrite) (same : after.pipe = pipe)
    (silent : storedBy m action = [])
    (copied : (m.control p).copied = returnedBy m action) :
    ∃ queue, Moves m action after queue := by
  refine Moves.refl ordered data nread nwrite same silent ?_
  have holder := (exclusive.lock p).mp locked
  rw [inFlight_of_holder holder, inFlight_of_free free, copied]
  simp

end Bytes

section Step

variable {m after : Machine Process} {action : Action Process}

private theorem moves_store {p : Process} {byte : UInt8} {rest : List UInt8}
    {fresh : Nat} (exclusive : Exclusive m) (ordered : Ordered m.pipe)
    (place : m.control p = .write (byte :: rest) fresh)
    (room : ¬ m.pipe.Full) :
    ∃ queue, Moves m (.run p)
      { m.setControl p (.write rest (fresh + 1)) with
        pipe := m.pipe.store byte } queue := by
  refine ⟨m.pipe.buffered ++ [byte], ordered.store room, ?_⟩
  have holder : m.lock = some p := by
    apply (exclusive.lock p).mp
    rw [place]
    rfl
  have stores : storedBy m (.run p) = [byte] := by
    simp [storedBy, place, room]
  have mute : returnedBy m (.run p) = [] := by
    simp [returnedBy, place]
  have before : inFlight m = [] := by
    simp [inFlight, holder, place, Control.copied]
  have now : inFlight
      { m.setControl p (.write rest (fresh + 1)) with
        pipe := m.pipe.store byte } = [] := by
    simp [inFlight, holder, Control.copied]
  rw [stores, mute, before, now, List.nil_append, List.nil_append,
    List.nil_append]

private theorem moves_copy {p : Process} {n : Nat} {got : List UInt8}
    (exclusive : Exclusive m) (ordered : Ordered m.pipe)
    (place : m.control p = .copy n got)
    (more : ¬ (n = 0 ∨ m.pipe.Empty)) :
    ∃ queue, Moves m (.run p)
      { m.setControl p (.copy (n - 1) (got ++ [m.pipe.front])) with
        pipe := m.pipe.advance } queue := by
  obtain ⟨queue, split, rest⟩ :=
    ordered.advance (fun empty => more (.inr empty))
  refine ⟨queue, rest, ?_⟩
  have holder : m.lock = some p := by
    apply (exclusive.lock p).mp
    rw [place]
    rfl
  simp [inFlight, storedBy, returnedBy, holder, place, more, split,
    Control.copied]

/-- Every step moves the bytes in order. -/
theorem Effect.moves (effect : Effect m action after)
    (exclusive : Exclusive m) (ordered : Ordered m.pipe) :
    ∃ queue, Moves m action after queue := by
  cases effect with
  | call idle starts =>
      refine Moves.stay ordered (Alone.setControl rfl) rfl rfl ?_ ?_ ?_
      · cases starts <;> simp [idle, Control.copied]
      · cases starts <;> rfl
      · cases starts <;> rfl
  | kill free =>
      refine Moves.stay ordered (Alone.setControl rfl) rfl rfl ?_ rfl rfl
      simp [Machine.kill]
  | acquire place enters free =>
      refine Moves.refl ordered rfl rfl rfl rfl ?_ ?_
      · cases enters <;> simp [storedBy, place]
      · rw [inFlight_of_free free, inFlight_of_holder rfl]
        cases enters <;> simp [returnedBy, place, Control.copied]
  | fallAsleep place falls =>
      refine Moves.stay ordered (Alone.setControl rfl) rfl rfl ?_ ?_ ?_
      · cases falls <;> simp [Machine.sched, place, Control.copied]
      · cases falls <;> simp [storedBy, place]
      · cases falls <;> simp [returnedBy, place]
  | store place room => exact moves_store exclusive ordered place room
  | waitWrite place full =>
      refine Moves.stay ordered (Alone.setControl rfl) rfl rfl ?_ ?_ ?_
      · simp [place, Control.copied]
      · simp [storedBy, place, full]
      · simp [returnedBy, place]
  | waitRead place | startCopy place =>
      refine Moves.stay ordered (Alone.setControl rfl) rfl rfl ?_ ?_ ?_
      · simp [place, Control.copied]
      · simp [storedBy, place]
      · simp [returnedBy, place]
  | @giveUpWrite p _ _ _ place reason | @copied p _ _ place reason =>
      refine Moves.unlock exclusive ordered (p := p) ?_ rfl rfl rfl rfl rfl
        ?_ ?_
      · rw [place]
        rfl
      · simp [storedBy, place, reason]
      · simp [returnedBy, place, reason, Control.copied]
  | @written p _ place | @sleepWrite p _ place | @giveUpRead p _ place
  | @sleepRead p _ place =>
      refine Moves.unlock exclusive ordered (p := p) ?_ rfl rfl rfl rfl rfl
        ?_ ?_
      · rw [place]
        rfl
      · simp [storedBy, place]
      · simp [returnedBy, place, Control.copied]
  | copy place more => exact moves_copy exclusive ordered place more
  | @close p writable place _ =>
      have shut : (m.pipeclose p writable).pipe = m.pipe.shut writable := rfl
      refine Moves.unlock exclusive ordered (p := p) ?_ rfl ?_ ?_ ?_ shut
        ?_ ?_
      · rw [place]
        rfl
      · cases writable <;> rfl
      · cases writable <;> rfl
      · cases writable <;> rfl
      · simp [storedBy, place]
      · simp [returnedBy, place, Control.copied]

end Step

/-- The state of the pipe, told from the history. -/
structure Fifo (history : History (Machine Process) (Action Process))
    (m : Machine Process) : Prop where
  exclusive : Exclusive m
  ordered : Ordered m.pipe
  bytes : stored history =
    returned history ++ (inFlight m ++ m.pipe.buffered)

variable {start finish : Machine Process}
  {history : History (Machine Process) (Action Process)}

omit [DecidableEq Process] in
theorem Machine.Allocated.fifo (allocated : start.Allocated) :
    Fifo [] start := by
  have represents : shape.Represents start.pipe.data start.pipe.nread
      start.pipe.nwrite [] := by
    rw [allocated.nread, allocated.nwrite]
    exact RingShape.Represents.empty _ (by decide)
  obtain ⟨ordered, nothing⟩ := Ordered.of_represents represents
  refine ⟨⟨?_, ?_⟩, ordered, ?_⟩
  · intro p
    simp [allocated.idle p, allocated.unlocked, Control.locked]
  · intro p
    simp [allocated.idle p, allocated.unscheduled, Control.scheds]
  · rw [inFlight_of_free allocated.unlocked, nothing]
    rfl

theorem Fifo.step {m after : Machine Process} {action : Action Process}
    (fifo : Fifo history m) (effect : Effect m action after) :
    Fifo ((m, action) :: history) after := by
  obtain ⟨queue, moves⟩ := effect.moves fifo.exclusive fifo.ordered
  obtain ⟨ordered, same⟩ := Ordered.of_represents moves.represents
  refine ⟨effect.exclusive fifo.exclusive, ordered, ?_⟩
  calc
    stored history ++ storedBy m action
        = returned history ++
            (inFlight m ++ m.pipe.buffered ++ storedBy m action) := by
          rw [fifo.bytes, List.append_assoc]
    _ = returned history ++
            (returnedBy m action ++ (inFlight after ++ queue)) := by
          rw [moves.balance]
    _ = returned history ++ returnedBy m action ++
            (inFlight after ++ after.pipe.buffered) := by
          rw [same, List.append_assoc]

theorem fifo_of_run (allocated : start.Allocated)
    (run : Run (system Process) start history finish) :
    Fifo history finish := by
  apply run.invariant_history allocated.fifo
  intro past before action after _ taken fifo
  exact fifo.step (step_effect taken)

/-- At any time the buffer holds at most `PIPESIZE` bytes, and what has been
stored is what has been returned, then what a `piperead` is copying, then what
is in the buffer. -/
theorem pipe_fifo (allocated : start.Allocated)
    (run : Run (system Process) start history finish) :
    (finish.pipe.nwrite + 2 ^ 32 - finish.pipe.nread) % 2 ^ 32 ≤ pipeSize ∧
      finish.pipe.buffered.length =
        (finish.pipe.nwrite + 2 ^ 32 - finish.pipe.nread) % 2 ^ 32 ∧
      returned history <+: stored history ∧
      stored history =
        returned history ++ (inFlight finish ++ finish.pipe.buffered) ∧
      (finish.lock = none →
        stored history = returned history ++ finish.pipe.buffered) := by
  have fifo := fifo_of_run allocated run
  have represents : shape.Represents _ _ _ _ := fifo.ordered
  have length : (finish.pipe.nwrite + 2 ^ 32 - finish.pipe.nread) % 2 ^ 32 =
      finish.pipe.buffered.length := represents.length_eq
  refine ⟨?_, length.symm, ?_, fifo.bytes, ?_⟩
  · rw [length]
    exact represents.fits
  · rw [fifo.bytes]
    exact List.prefix_append _ _
  · intro free
    rw [fifo.bytes, inFlight_of_free free, List.nil_append]

/-- A writer stores three bytes, and a reader gets two of them. -/
theorem pipe_fifo_three_bytes :
    ∃ history finish,
      Run (system Bool) (.zeroed Bool) history finish ∧
      returned history = [1, 2] ∧ finish.pipe.buffered = [3] ∧
      stored history = returned history ++ finish.pipe.buffered := by
  have passed : (replay Machine.next [] (.zeroed Bool)
      [.pipewrite true [1, 2, 3], .run true, .run true, .run true, .run true,
        .run true, .piperead false 2, .run false, .run false, .run false,
        .run false, .run false]).any
      (fun result => decide (
        returned result.1 = [1, 2] ∧ result.2.pipe.buffered = [3] ∧
        result.2.lock = none)) = true := by
    decide +kernel
  obtain ⟨history, finish, run, facts⟩ :=
    Run.of_replay Machine.step_of_next passed
  obtain ⟨returns, holds, free⟩ := of_decide_eq_true facts
  exact ⟨history, finish, run, returns, holds,
    (pipe_fifo Machine.zeroed_allocated run).2.2.2.2 free⟩

end Xv6.Pipe
