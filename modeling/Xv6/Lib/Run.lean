import Mathlib.Data.List.Basic

/-!
# Labelled transition systems and their finite runs

A run keeps its whole history, newest step first.  Every entry records the
state in which a label fired, so that a property of a run can speak about
the order of its steps, about the values a step observed and about the part
of the run between two of its states.
-/

namespace Xv6.Lib

universe u v

/-- A labelled transition system over arbitrary states and labels. -/
structure System (State : Type u) (Label : Type v) where
  step : State → Label → State → Prop

variable {State : Type u} {Label : Type v}

/-- The steps of a run, newest first, each with the state it started from. -/
abbrev History (State : Type u) (Label : Type v) := List (State × Label)

/-- `Run system start history finish`: firing the labels of `history`, oldest
first, leads from `start` to `finish`. -/
inductive Run (system : System State Label) (start : State) :
    History State Label → State → Prop where
  | refl : Run system start [] start
  | step {history : History State Label} {before after : State}
      {label : Label} :
      Run system start history before →
      system.step before label after →
      Run system start ((before, label) :: history) after

/-- A step behind a guard is taken when the guard holds, and ends where it
says. -/
theorem some_of_guard {guard : Prop} [Decidable guard] {result after : State}
    (taken : (if guard then some result else none) = some after) :
    guard ∧ result = after := by
  obtain ⟨holds, same⟩ := Option.ite_none_right_eq_some.mp taken
  exact ⟨holds, Option.some.inj same⟩

namespace Run

variable {system : System State Label} {start middle finish : State}
  {history earlier later : History State Label}

theorem one {before after : State} {label : Label}
    (taken : system.step before label after) :
    Run system before [(before, label)] after :=
  .step .refl taken

theorem trans (first : Run system start earlier middle)
    (second : Run system middle later finish) :
    Run system start (later ++ earlier) finish := by
  induction second with
  | refl => exact first
  | step _ taken induction => exact .step induction taken

/-- A run can be cut at every point of its history. -/
theorem split (run : Run system start (later ++ earlier) finish) :
    ∃ middle, Run system start earlier middle ∧
      Run system middle later finish := by
  induction later generalizing finish with
  | nil => exact ⟨finish, run, .refl⟩
  | cons entry later induction =>
      cases run with
      | step previous taken =>
          obtain ⟨middle, first, second⟩ := induction previous
          exact ⟨middle, first, .step second taken⟩

/-- Cutting a run just before one of its steps exposes that step. -/
theorem split_at {before : State} {label : Label}
    (run : Run system start (later ++ (before, label) :: earlier) finish) :
    ∃ after, Run system start earlier before ∧
      system.step before label after ∧ Run system after later finish := by
  obtain ⟨after, first, second⟩ := run.split
  cases first with
  | step previous taken => exact ⟨after, previous, taken, second⟩

/-- Invariant rule: what holds at the start and is kept by every step holds
at the end of every run. -/
theorem invariant {property : State → Prop}
    (run : Run system start history finish) (initial : property start)
    (preserved : ∀ {before label after}, system.step before label after →
      property before → property after) :
    property finish := by
  induction run with
  | refl => exact initial
  | step _ taken induction => exact preserved taken induction

/-- Invariant rule for properties of the state and the history together. -/
theorem invariant_history
    {property : History State Label → State → Prop}
    (run : Run system start history finish) (initial : property [] start)
    (preserved : ∀ {past before label after},
      Run system start past before → system.step before label after →
      property past before → property ((before, label) :: past) after) :
    property history finish := by
  induction run with
  | refl => exact initial
  | step previous taken induction =>
      exact preserved previous taken induction

/-- Invariant rule for the runs all of whose steps meet a condition. -/
theorem invariant_of_forall
    {property : History State Label → State → Prop}
    {condition : State → Label → Prop}
    (run : Run system start history finish)
    (met : ∀ entry ∈ history, condition entry.1 entry.2)
    (initial : property [] start)
    (preserved : ∀ {past before label after},
      Run system start past before → system.step before label after →
      condition before label →
      property past before → property ((before, label) :: past) after) :
    property history finish := by
  induction run with
  | refl => exact initial
  | step previous taken induction =>
      exact preserved previous taken (met _ List.mem_cons_self)
        (induction fun entry member =>
          met entry (List.mem_cons_of_mem _ member))

/-- The same for properties of the state alone. -/
theorem invariant_of_met {property : State → Prop}
    {condition : State → Label → Prop}
    (run : Run system start history finish)
    (met : ∀ entry ∈ history, condition entry.1 entry.2)
    (initial : property start)
    (preserved : ∀ {before label after}, system.step before label after →
      condition before label → property before → property after) :
    property finish := by
  induction run with
  | refl => exact initial
  | step _ taken induction =>
      apply preserved taken (met _ List.mem_cons_self)
      exact induction fun entry member =>
        met entry (List.mem_cons_of_mem _ member)

end Run

/-- Fire labels, oldest first, with a function that computes the next state,
and keep the history. -/
def replay (next : State → Label → Option State) :
    History State Label → State → List Label →
      Option (History State Label × State)
  | history, state, [] => some (history, state)
  | history, state, label :: labels =>
      match next state label with
      | none => none
      | some after => replay next ((state, label) :: history) after labels

section Replay

variable {system : System State Label} {start : State}
  {next : State → Label → Option State}

/-- What is replayed with a sound function is a run. -/
theorem Run.replay
    (sound : ∀ {before label after}, next before label = some after →
      system.step before label after)
    {labels : List Label} {history : History State Label} {state : State}
    {result : History State Label × State}
    (run : Run system start history state)
    (replayed : replay next history state labels = some result) :
    Run system start result.1 result.2 := by
  induction labels generalizing history state with
  | nil =>
      cases replayed
      exact run
  | cons label labels induction =>
      cases fired : next state label with
      | none => simp [Lib.replay, fired] at replayed
      | some after =>
          simp only [Lib.replay, fired] at replayed
          exact induction (.step run (sound fired)) replayed

/-- A run whose history and last state pass a test, found by replaying. -/
theorem Run.of_replay
    (sound : ∀ {before label after}, next before label = some after →
      system.step before label after)
    {labels : List Label} {test : History State Label × State → Bool}
    (passed : (Lib.replay next [] start labels).any test = true) :
    ∃ history finish, Run system start history finish ∧
      test (history, finish) = true := by
  cases replayed : Lib.replay next [] start labels with
  | none => simp [replayed] at passed
  | some result =>
      simp only [replayed, Option.any_some] at passed
      exact ⟨result.1, result.2, Run.refl.replay sound replayed, passed⟩

end Replay

end Xv6.Lib
