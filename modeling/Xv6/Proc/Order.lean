import Xv6.Lib.Multilevel
import Xv6.Proc.Invariant

/-!
# The scheduling rules over whole runs

The runs of the kernel refine the runs of a multilevel scheduler.  The rules
of the scheduler carry over: a dispatch takes the first process in the order
of priority and queue position, waiting processes never change places, and a
process that is `RUNNABLE` at a boost is dispatched before any process that
was behind it.
-/

namespace Xv6

open Lib

variable {ncpu : Nat}

/-- The order of priority and position in the queue. -/
def PTable.Precedes (table : PTable) (p q : ProcId) : Prop :=
  (table.proc p).priority < (table.proc q).priority ∨
    (table.proc p).priority = (table.proc q).priority ∧
      (table.queue (table.proc p).priority).idxOf p <
        (table.queue (table.proc q).priority).idxOf q

instance (table : PTable) (p q : ProcId) : Decidable (table.Precedes p q) :=
  inferInstanceAs (Decidable (_ ∨ _ ∧ _))

/-- The process that an action dispatches. -/
def Kernel.dispatched (k : Kernel ncpu) : Action ncpu → Option ProcId
  | .schedule _ => k.ptable.chosen
  | _ => none

/-- The processes dispatched along a history, the last one first. -/
def dispatches (history : History (Kernel ncpu) (Action ncpu)) :
    List ProcId :=
  history.filterMap fun entry => entry.1.dispatched entry.2

/-! ## Refinement of the multilevel scheduler -/

namespace Kernel

variable {k after finish : Kernel ncpu} {levels next : Levels ProcId}

/-- Every effect is a step of the multilevel scheduler that serves the
dispatched process. -/
theorem Effect.step (ready : Ready k.ptable levels)
    {action : Action ncpu} (readyAfter : Ready after.ptable next)
    (effect : Effect k levels action after next) :
    Levels.Step nprio levels (k.dispatched action) next := by
  have nodup := readyAfter.toQueues.nodup_order
  have unchanged : Levels.Grows levels levels := Levels.Grows.refl levels
  cases effect with
  | idle nothing =>
      simp only [dispatched, nothing]
      exact .grow unchanged nodup
  | dispatch free control chosen head views =>
      obtain ⟨rest, _, empty⟩ := ready.chosen_some chosen
      simp only [dispatched, chosen]
      exact .serve (ready.bounded _) head empty
  | boost => exact .collapse
  | userinitEnqueue => exact .grow (Levels.grows_push _ _ _) nodup
  | yield => exact .grow (Levels.grows_push _ _ _) nodup
  | forkEnqueue => exact .grow (Levels.grows_push _ _ _) nodup
  | exit _ _ _ _ _ grows => exact .grow grows nodup
  | kill _ _ grows => exact .grow grows nodup
  | wakeup _ grows => exact .grow grows nodup
  | waitReaped _ starts =>
      cases starts <;> exact .grow unchanged nodup
  | waitFailed _ starts =>
      cases starts <;> exact .grow unchanged nodup
  | waitSleeps _ starts =>
      cases starts <;> exact .grow unchanged nodup
  | forkFail _ _ failed =>
      rcases failed with ⟨rfl, _⟩ | ⟨rfl, _⟩ <;>
        exact .grow unchanged nodup
  | _ => exact .grow unchanged nodup

/-- A run of the kernel refines a run of the multilevel scheduler that serves
the processes the kernel dispatches. -/
theorem run_refines {history : History (Kernel ncpu) (Action ncpu)}
    (invariant : k.Invariant levels)
    (run : Run (kernel ncpu) k history finish) :
    ∃ final abstract, finish.Invariant final ∧
      Run (multilevel nprio) levels abstract final ∧
      served abstract = dispatches history := by
  induction run with
  | refl => exact ⟨levels, [], invariant, .refl, rfl⟩
  | @step history before after action previous taken induction =>
      obtain ⟨middle, abstract, invariantBefore, abstractRun, same⟩ :=
        induction
      obtain ⟨final, invariantAfter, effect⟩ := invariantBefore.step taken
      have step := effect.step invariantBefore.ready invariantAfter.ready
      refine ⟨final, (middle, before.dispatched action) :: abstract,
        invariantAfter, .step abstractRun step, ?_⟩
      rw [Levels.served_cons, same]
      cases dispatched : before.dispatched action with
      | none => simp [dispatches, dispatched]
      | some p => simp [dispatches, dispatched]

end Kernel

/-! ## Service order -/

namespace Ready

variable {table : PTable} {levels : Levels ProcId} {p q : ProcId}

/-- `Precedes` compares places in the service order. -/
theorem precedes_iff (ready : Ready table levels)
    (first : (table.proc p).state = .runnable)
    (second : (table.proc q).state = .runnable) :
    table.Precedes p q ↔ (Levels.order nprio levels).idxOf p <
      (Levels.order nprio levels).idxOf q := by
  rw [Levels.idxOf_order_lt_iff
    (fun _ leftBelow _ rightBelow different =>
      ready.toQueues.disjoint leftBelow rightBelow different)
    (ready.bounded p) (ready.bounded q) ((ready.runnable p).mp first)
    ((ready.runnable q).mp second)]
  unfold PTable.Precedes
  rw [ready.toQueues.queue_eq (ready.bounded p),
    ready.toQueues.queue_eq (ready.bounded q)]

/-- The chosen process precedes every other `RUNNABLE` process. -/
theorem chosen_precedes (ready : Ready table levels)
    (chosen : table.chosen = some p)
    (waiting : (table.proc q).state = .runnable) (different : q ≠ p) :
    table.Precedes p q := by
  obtain ⟨rest, head, empty⟩ := ready.chosen_some chosen
  rw [ready.precedes_iff (ready.chosen_runnable chosen) waiting,
    Levels.order_eq_cons (ready.bounded p) empty head]
  rw [List.idxOf_cons_self, List.idxOf_cons_ne _ different.symm]
  exact Nat.succ_pos _

theorem exists_chosen (ready : Ready table levels)
    (waiting : (table.proc q).state = .runnable) :
    ∃ p, table.chosen = some p := by
  cases chosen : table.chosen with
  | none => exact absurd waiting (ready.chosen_none chosen q)
  | some p => exact ⟨p, rfl⟩

end Ready

/-- The scheduling rules along a run.  When a process is `RUNNABLE`, an
iteration of `scheduler` dispatches the least one in the order of priority and
queue position.  Processes that are `RUNNABLE` and are not dispatched stay
`RUNNABLE`, and each two of them keep their order. -/
theorem scheduling_rules {k : Kernel ncpu}
    {history : History (Kernel ncpu) (Action ncpu)}
    (run : Run (kernel ncpu) (.boot ncpu) history k) :
    (∀ c q, k.lock = none → k.control c = .scheduler →
      (k.ptable.proc q).state = .runnable →
      ∃ p after, (kernel ncpu).step k (.schedule c) after ∧
        (k.ptable.proc p).state = .runnable ∧
        after.cpuProc c = some p ∧
        (after.ptable.proc p).state = .running ∧
        ∀ r, (k.ptable.proc r).state = .runnable → r ≠ p →
          k.ptable.Precedes p r) ∧
    (∀ later finish p q, Run (kernel ncpu) k later finish →
      (k.ptable.proc p).state = .runnable →
      (k.ptable.proc q).state = .runnable →
      p ∉ dispatches later → q ∉ dispatches later →
      (finish.ptable.proc p).state = .runnable ∧
        (finish.ptable.proc q).state = .runnable ∧
        (k.ptable.Precedes p q ↔ finish.ptable.Precedes p q)) := by
  obtain ⟨levels, invariant⟩ := Kernel.invariant_of_run run
  have ready := invariant.ready
  constructor
  · intro c q free control waiting
    obtain ⟨p, chosen⟩ := ready.exists_chosen waiting
    obtain ⟨table, rest, success, head, _, views⟩ := ready.dispatch chosen
    have isRunning : (table.proc p).state = .running := by
      rw [← PTable.view_state, views]
      simp
    refine ⟨p,
      { k with
        ptable := table
        lock := some c
        cpuProc := Function.update k.cpuProc c (some p)
        control := Function.update k.control c .resumed },
      ?_, ready.chosen_runnable chosen, by simp, isRunning, ?_⟩
    · constructor
      · simp [Kernel.enabled, free, control]
      · simp only [Kernel.exec, Kernel.schedule, chosen, success]
        rfl
    · intro r isRunnable different
      exact ready.chosen_precedes chosen isRunnable different
  · intro later finish p q continued first second firstWaits secondWaits
    obtain ⟨final, abstract, invariantAfter, abstractRun, same⟩ :=
      Kernel.run_refines invariant continued
    rw [← same] at firstWaits secondWaits
    obtain ⟨firstStill, secondStill, order⟩ :=
      Levels.run_keeps_order nprio_pos ready.toQueues.nodup_order abstractRun
        (ready.mem_order.mpr first) (ready.mem_order.mpr second)
        firstWaits secondWaits
    have firstAfter := invariantAfter.ready.mem_order.mp firstStill
    have secondAfter := invariantAfter.ready.mem_order.mp secondStill
    refine ⟨firstAfter, secondAfter, ?_⟩
    rw [ready.precedes_iff first second, order,
      invariantAfter.ready.precedes_iff firstAfter secondAfter]

/-- Two forked children wait while their parent sleeps.  The first of them is
dispatched, and a boost keeps their order. -/
theorem scheduling_rules_two_children :
    ∃ history k, Run (kernel 1) (.boot 1) history k ∧
      (∃ p after, (kernel 1).step k (.schedule 0) after ∧
        after.cpuProc 0 = some p) ∧
      ∃ finish, Run (kernel 1) k [(k, .boost 0)] finish ∧
        finish.ptable.Precedes 1 2 := by
  have passed : (replay Kernel.next [] (.boot 1)
      (Kernel.bootActions 0 ++ Kernel.forkActions 0 ++
        Kernel.forkActions 0 ++ [.sleep 0 0, .switchBack 0])).any
        (fun result => decide (result.2.lock = none ∧
          result.2.control 0 = .scheduler ∧
          (result.2.ptable.proc 1).state = .runnable ∧
          (result.2.ptable.proc 2).state = .runnable ∧
          result.2.ptable.Precedes 1 2 ∧
          (result.2.next (.boost 0)).isSome = true)) = true := by
    decide +kernel
  obtain ⟨history, k, run, facts⟩ := Run.of_replay Kernel.step_of_next passed
  obtain ⟨free, control, first, second, before, enabled⟩ :=
    of_decide_eq_true facts
  obtain ⟨dispatch, keeps⟩ := scheduling_rules run
  obtain ⟨finish, boosted⟩ := Option.isSome_iff_exists.mp enabled
  have continued : Run (kernel 1) k [(k, .boost 0)] finish :=
    .one (Kernel.step_of_next boosted)
  obtain ⟨p, after, step, _, current, _⟩ := dispatch 0 1 free control first
  obtain ⟨_, _, same⟩ := keeps _ finish 1 2 continued first second
    (by simp [dispatches, Kernel.dispatched])
    (by simp [dispatches, Kernel.dispatched])
  exact ⟨history, k, run, ⟨p, after, step, current⟩, finish, continued,
    same.mp before⟩

/-! ## Starvation -/

/-- The `RUNNABLE` processes before `p` in the order of priority and queue
position. -/
def PTable.predecessors (table : PTable) (p : ProcId) : Finset ProcId :=
  Finset.univ.filter fun q =>
    (table.proc q).state = .runnable ∧ table.Precedes q p

namespace Ready

variable {table : PTable} {levels : Levels ProcId} {p : ProcId}

theorem card_predecessors (ready : Ready table levels)
    (waiting : (table.proc p).state = .runnable) :
    (table.predecessors p).card = (Levels.order nprio levels).idxOf p := by
  have nodup := ready.toQueues.nodup_order
  have place : (Levels.order nprio levels).idxOf p ≤
      (Levels.order nprio levels).length := List.idxOf_le_length
  have prior : table.predecessors p =
      ((Levels.order nprio levels).take
        ((Levels.order nprio levels).idxOf p)).toFinset := by
    ext q
    simp only [PTable.predecessors, Finset.mem_filter, Finset.mem_univ,
      true_and, List.mem_toFinset]
    constructor
    · rintro ⟨isRunnable, precedes⟩
      rw [ready.precedes_iff isRunnable waiting] at precedes
      exact (List.mem_take_iff_idxOf_lt
        (ready.mem_order.mpr isRunnable)).mpr precedes
    · intro member
      have waits := List.mem_of_mem_take member
      have isRunnable := ready.mem_order.mp waits
      refine ⟨isRunnable, ?_⟩
      rw [ready.precedes_iff isRunnable waiting]
      exact (List.mem_take_iff_idxOf_lt waits).mp member
  rw [prior, List.toFinset_card_of_nodup (nodup.sublist
    (List.take_sublist _ _)), List.length_take, Nat.min_eq_left place]

end Ready

/-- A boost rules out starvation: a process that is `RUNNABLE` at a boost with
`m` processes before it, at most `nproc - 1`, is dispatched by the time of the
dispatch `m + 1` after the boost. -/
theorem boost_bounds_waiting {k boosted finish : Kernel ncpu}
    {history later : History (Kernel ncpu) (Action ncpu)} {c : Fin ncpu}
    {p : ProcId}
    (run : Run (kernel ncpu) (.boot ncpu) history k)
    (boost : (kernel ncpu).step k (.boost c) boosted)
    (waiting : (k.ptable.proc p).state = .runnable)
    (continued : Run (kernel ncpu) boosted later finish) :
    (k.ptable.predecessors p).card ≤ nproc - 1 ∧
      ((k.ptable.predecessors p).card + 1 ≤ (dispatches later).length →
        p ∈ dispatches later) := by
  obtain ⟨levels, invariant⟩ := Kernel.invariant_of_run run
  have waits := invariant.ready.mem_order.mpr waiting
  have rank := invariant.ready.card_predecessors waiting
  constructor
  · have short : (Levels.order nprio levels).length ≤ nproc := by
      simpa using invariant.ready.toQueues.nodup_order.length_le_card
    have place := List.idxOf_lt_length_of_mem waits
    omega
  · intro enough
    obtain ⟨next, invariantAfter, effect⟩ := invariant.step boost
    have merged : next 0 = Levels.order nprio levels := by
      cases effect with
      | boost => rfl
      | waitReaped _ starts => cases starts
      | waitFailed _ starts => cases starts
      | waitSleeps _ starts => cases starts
      | forkFail _ _ failed => simp at failed
    obtain ⟨final, abstract, _, abstractRun, same⟩ :=
      Kernel.run_refines invariantAfter continued
    rw [← same] at enough ⊢
    apply Levels.run_serves nprio_pos abstractRun
    · rw [merged]
      exact waits
    · rw [merged]
      omega

/-- The second of two waiting children is dispatched by the second dispatch
after a boost. -/
theorem boost_bounds_waiting_two_children :
    ∃ history k boosted later finish,
      Run (kernel 1) (.boot 1) history k ∧
      (kernel 1).step k (.boost 0) boosted ∧
      Run (kernel 1) boosted later finish ∧
      (k.ptable.predecessors 2).card = 1 ∧
      (dispatches later).length = 2 ∧ 2 ∈ dispatches later := by
  have passed : (replay Kernel.next [] (.boot 1)
      (Kernel.bootActions 0 ++ Kernel.forkActions 0 ++
        Kernel.forkActions 0 ++ [.sleep 0 0, .switchBack 0])).any
        (fun result =>
          decide ((result.2.ptable.proc 2).state = .runnable ∧
            (result.2.ptable.predecessors 2).card = 1) &&
          (result.2.next (.boost 0)).any fun boosted =>
            (replay Kernel.next [] boosted
              [.schedule 0, .resume 0, .sleep 0 0, .switchBack 0,
                .schedule 0]).any fun final =>
              decide ((dispatches final.1).length = 2)) = true := by
    decide +kernel
  obtain ⟨history, k, run, facts⟩ := Run.of_replay Kernel.step_of_next passed
  rw [Bool.and_eq_true, Option.any_eq_true] at facts
  obtain ⟨here, boosted, success, continuation⟩ := facts
  obtain ⟨waiting, rank⟩ := of_decide_eq_true here
  have boost := Kernel.step_of_next success
  obtain ⟨later, finish, continued, two⟩ :=
    Run.of_replay Kernel.step_of_next continuation
  have two : (dispatches later).length = 2 := of_decide_eq_true two
  refine ⟨history, k, boosted, later, finish, run, boost, continued, rank,
    two, ?_⟩
  apply (boost_bounds_waiting run boost waiting continued).2
  rw [two]
  exact Nat.succ_le_succ rank.le

end Xv6
