import Mathlib.Logic.Basic

/-!
# Programs with a state and faults

`wp program post fault state`: started in `state`, the program returns a value
and a state that satisfy `post`, or stops with a fault that satisfies `fault`.
With a `fault` that never holds the program is known to return.
-/

namespace Xv6.Lib

/-- Programs over a state that may stop with a fault. -/
abbrev Program (State Fault α : Type) := StateT State (Except Fault) α

section Rules

variable {State Fault α β : Type}

def wp (program : Program State Fault α) (post : α → State → Prop)
    (fault : Fault → Prop) (state : State) : Prop :=
  match program.run state with
  | .ok (value, after) => post value after
  | .error reason => fault reason

variable {program : Program State Fault α} {post post' : α → State → Prop}
  {fault fault' : Fault → Prop} {state after : State} {value : α}

theorem wp_of_ok (success : program.run state = .ok (value, after))
    (holds : post value after) : wp program post fault state := by
  unfold wp
  rw [success]
  exact holds

theorem wp.ok (holds : wp program post fault state)
    (success : program.run state = .ok (value, after)) :
    post value after := by
  unfold wp at holds
  rw [success] at holds
  exact holds

theorem wp.error {reason : Fault} (holds : wp program post fault state)
    (failure : program.run state = .error reason) : fault reason := by
  unfold wp at holds
  rw [failure] at holds
  exact holds

/-- A program that has no fault returns. -/
theorem wp.returns (holds : wp program post (fun _ => False) state) :
    ∃ value after, program.run state = .ok (value, after) ∧
      post value after := by
  unfold wp at holds
  split at holds
  · rename_i value after success
    exact ⟨value, after, success, holds⟩
  · exact holds.elim

theorem wp.mono (holds : wp program post fault state)
    (weaker : ∀ value after, post value after → post' value after)
    (weakerFault : ∀ reason, fault reason → fault' reason) :
    wp program post' fault' state := by
  unfold wp at holds ⊢
  split at holds
  · exact weaker _ _ holds
  · exact weakerFault _ holds

theorem wp.imp (holds : wp program post fault state)
    (weaker : ∀ value after, post value after → post' value after) :
    wp program post' fault state :=
  holds.mono weaker fun _ => id

/-- A program that has no fault has none that matters. -/
theorem wp.safe (holds : wp program post (fun _ => False) state) :
    wp program post fault state :=
  holds.mono (fun _ _ => id) fun _ => False.elim

/-- The outcome comes from the run. -/
theorem wp.traced (holds : wp program post fault state) :
    wp program (fun value after => post value after ∧
      program.run state = .ok (value, after))
      (fun reason => fault reason ∧ program.run state = .error reason)
      state := by
  unfold wp at holds ⊢
  split at holds
  · exact ⟨holds, by assumption⟩
  · exact ⟨holds, by assumption⟩

theorem wp_pure : wp (pure value) post fault state ↔ post value state :=
  Iff.rfl

theorem wp_bind {rest : α → Program State Fault β}
    {post : β → State → Prop} :
    wp (program >>= rest) post fault state ↔
      wp program (fun value => wp (rest value) post fault) fault state := by
  unfold wp
  rw [StateT.run_bind]
  cases program.run state with
  | error reason => exact Iff.rfl
  | ok result => exact Iff.rfl

/-- First one program, then the rest. -/
theorem wp.bind {rest : α → Program State Fault β} {middle : α → State → Prop}
    {post : β → State → Prop} (first : wp program middle fault state)
    (second : ∀ value after, middle value after →
      wp (rest value) post fault after) :
    wp (program >>= rest) post fault state :=
  wp_bind.mpr (first.imp second)

theorem wp_get {post : State → State → Prop} :
    wp get post fault state ↔ post state state :=
  Iff.rfl

theorem wp_set {new : State} {post : PUnit → State → Prop} :
    wp (set new) post fault state ↔ post ⟨⟩ new :=
  Iff.rfl

theorem wp_modify {change : State → State} {post : PUnit → State → Prop} :
    wp (modify change) post fault state ↔ post ⟨⟩ (change state) :=
  Iff.rfl

theorem wp_throw {reason : Fault} :
    wp (throw reason : Program State Fault α) post fault state ↔
      fault reason :=
  Iff.rfl

/-- A program over a part of the state. -/
def inPart {Whole : Type} (read : Whole → State)
    (write : State → Whole → Whole) (program : Program State Fault α) :
    Program Whole Fault α := fun whole => do
  let (value, part) ← program.run (read whole)
  pure (value, write part whole)

theorem wp_inPart {Whole : Type} {read : Whole → State}
    {write : State → Whole → Whole} {post : α → Whole → Prop}
    {whole : Whole} :
    wp (inPart read write program) post fault whole ↔
      wp program (fun value part => post value (write part whole)) fault
        (read whole) := by
  unfold wp inPart
  rw [StateT.run]
  cases program.run (read whole) with
  | error reason => exact Iff.rfl
  | ok result => exact Iff.rfl

attribute [irreducible] wp

end Rules

end Xv6.Lib
