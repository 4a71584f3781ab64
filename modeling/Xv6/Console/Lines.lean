import Mathlib.Data.List.Count
import Xv6.Console.Buffer

/-!
# Reading lines from the console

The log of what was taken out of the buffer is the beginning of what was
committed.  A call of `consoleread` returns the characters that it took, or
nothing when it took an end of file.

A call that sleeps with characters of a line goes on with whatever is in the
buffer when it wakes up.  It stays within the line as long as nobody else takes
the end of the line in the meantime.
-/

namespace Xv6.Console

open Lib

/-! ## Places in the log -/

/-- The characters have these places in the log, and none of them is an end of
file. -/
structure Placed (log : List UInt8) (places : List Nat) (bytes : List UInt8) :
    Prop where
  found : places.map (log[·]?) = bytes.map some
  marks : endOfFile ∉ bytes

/-- The number of the line that a place belongs to. -/
def line (log : List UInt8) (i : Nat) : Nat := (log.take i).count newline

section Log

variable {log more : List UInt8} {places : List Nat} {bytes : List UInt8}
  {c : UInt8} {i : Nat}

theorem Placed.nil : Placed log [] [] := ⟨rfl, List.not_mem_nil⟩

theorem Placed.length_eq (placed : Placed log places bytes) :
    places.length = bytes.length := by
  have same := congrArg List.length placed.found
  rwa [List.length_map, List.length_map] at same

theorem Placed.lt_length (placed : Placed log places bytes)
    (member : i ∈ places) : i < log.length := by
  have found : log[i]? ∈ places.map (log[·]?) := List.mem_map_of_mem member
  rw [placed.found] at found
  obtain ⟨c, _, same⟩ := List.mem_map.mp found
  exact (List.getElem?_eq_some_iff.mp same.symm).1

theorem Placed.append (placed : Placed log places bytes) (more : List UInt8) :
    Placed (log ++ more) places bytes := by
  refine ⟨?_, placed.marks⟩
  rw [← placed.found]
  refine List.map_congr_left ?_
  intro i member
  exact List.getElem?_append_left (placed.lt_length member)

/-- One more character is taken. -/
theorem Placed.take (placed : Placed log places bytes)
    (ordinary : c ≠ endOfFile) :
    Placed (log ++ [c]) (places ++ [log.length]) (bytes ++ [c]) where
  found := by
    rw [List.map_append, List.map_append, (placed.append [c]).found,
      List.map_singleton, List.getElem?_concat_length]
    rfl
  marks := by
    intro member
    rcases List.mem_append.mp member with old | new
    · exact placed.marks old
    · exact ordinary (List.mem_singleton.mp new).symm

theorem line_append (inside : i ≤ log.length) :
    line (log ++ more) i = line log i := by
  unfold line
  rw [List.take_append_of_le_length inside]

/-- The line is not over. -/
theorem line_of_open (unfinished : newline ∉ log.drop i) :
    line log i = line log log.length := by
  unfold line
  rw [List.take_length]
  conv => rhs; rw [← List.take_append_drop i log, List.count_append,
    List.count_eq_zero.mpr unfinished]
  rfl

/-- All places are in one line. -/
def OneLine (log : List UInt8) (places : List Nat) : Prop :=
  ∀ i ∈ places, ∀ j ∈ places, line log i = line log j

theorem OneLine.append (oneLine : OneLine log places)
    (inside : ∀ i ∈ places, i < log.length) :
    OneLine (log ++ more) places := by
  intro i left j right
  rw [line_append (Nat.le_of_lt (inside i left)),
    line_append (Nat.le_of_lt (inside j right))]
  exact oneLine i left j right

/-- No line ends behind the places. -/
def Unfinished (log : List UInt8) (places : List Nat) : Prop :=
  ∀ i ∈ places, i ≤ log.length ∧ newline ∉ log.drop i

theorem Unfinished.oneLine (unfinished : Unfinished log places) :
    OneLine log places := by
  intro i left j right
  rw [line_of_open (unfinished i left).2, line_of_open (unfinished j right).2]

/-- The newest place is in the same line. -/
theorem Unfinished.take (unfinished : Unfinished log places) (c : UInt8) :
    OneLine (log ++ [c]) (places ++ [log.length]) := by
  have same : ∀ i ∈ places ++ [log.length],
      line (log ++ [c]) i = line log log.length := by
    intro i member
    rcases List.mem_append.mp member with old | new
    · obtain ⟨inside, rest⟩ := unfinished i old
      rw [line_append inside, line_of_open rest]
    · cases List.mem_singleton.mp new
      rw [line_append (Nat.le_refl _)]
  intro i left j right
  rw [same i left, same j right]

theorem Unfinished.append (unfinished : Unfinished log places)
    (ordinary : c ≠ newline) : Unfinished (log ++ [c]) places := by
  intro i member
  obtain ⟨inside, rest⟩ := unfinished i member
  rw [List.length_append, List.drop_append_of_le_length inside]
  refine ⟨Nat.le_add_right_of_le inside, ?_⟩
  intro found
  rcases List.mem_append.mp found with old | new
  · exact rest old
  · exact ordinary (List.mem_singleton.mp new).symm

theorem Unfinished.newest (unfinished : Unfinished log places)
    (ordinary : c ≠ newline) :
    Unfinished (log ++ [c]) (places ++ [log.length]) := by
  intro i member
  rcases List.mem_append.mp member with old | new
  · exact unfinished.append ordinary i old
  · cases List.mem_singleton.mp new
    rw [List.length_append, List.drop_left]
    refine ⟨Nat.le_add_right _ _, ?_⟩
    exact fun found => ordinary (List.mem_singleton.mp found).symm

end Log

/-! ## Steps -/

theorem Types.advance {input : Input} {typed : Typed} {taken : Nat}
    (types : Types input typed taken) (some : input.r ≠ input.w) :
    typed.committed[taken]? = .some input.front ∧
      Types input.advance typed (taken + 1) := by
  obtain ⟨holds, few, inside⟩ := types
  cases unread : typed.committed.drop taken with
  | nil => exact (some (holds.read_eq_write_iff.mpr unread)).elim
  | cons c rest =>
      rw [unread] at holds
      obtain ⟨front, advanced⟩ := holds.advance
      have found : typed.committed[taken]? = .some c := by
        rw [← List.head?_drop, unread]
        rfl
      have tail : typed.committed.drop (taken + 1) = rest := by
        rw [← List.tail_drop, unread]
        rfl
      rw [front]
      refine ⟨found, ?_, ?_, inside⟩
      · rw [tail]
        exact advanced
      · have shorter := congrArg List.length unread
        rw [List.length_drop, List.length_cons] at shorter
        omega

section Machines

variable {Process : Type} {m after : Machine Process} {p : Process}
  {call : Call}

/-- The calls of the processes. -/
def Machine.current (m : Machine Process) (p : Process) : Option Call :=
  (m.control p).call?

theorem Machine.current_of_running (runs : m.control p = .running call) :
    m.current p = some call := by
  unfold Machine.current
  rw [runs]
  rfl

/-- A call that has not returned. -/
structure Active (log : List UInt8) (call : Call) : Prop where
  placed : Placed log call.places call.dst
  count : call.n + call.dst.length = call.target

/-- What always holds. -/
structure Sound (m : Machine Process) : Prop where
  types : Types m.input m.typed m.log.length
  log : m.log = m.typed.committed.take m.log.length
  active : ∀ p call, m.current p = some call → Active m.log call
  returned : ∀ entry ∈ m.returned, Placed m.log entry.1 entry.2

/-- Nobody has taken characters of two lines, and the line of a call that has
not returned is not over. -/
structure Whole (m : Machine Process) : Prop where
  active : ∀ p call, m.current p = some call → Unfinished m.log call.places
  returned : ∀ entry ∈ m.returned, OneLine m.log entry.1

theorem Machine.Initial.sound (initial : m.Initial) : Sound m ∧ Whole m := by
  have idle : ∀ p, m.current p = none := by
    intro p
    unfold Machine.current
    rw [initial.control]
    rfl
  have nobody : ∀ p call, m.current p ≠ some call := by
    intro p call runs
    rw [idle] at runs
    cases runs
  refine ⟨⟨?_, ?_, fun p call runs => (nobody p call runs).elim, ?_⟩,
    fun p call runs => (nobody p call runs).elim, ?_⟩
  · rw [initial.typed, initial.log]
    refine ⟨⟨?_, ?_⟩, Nat.le_refl _, List.not_mem_nil⟩
    · rw [initial.e]
      exact .empty _ initial.small
    · rw [initial.w]
      exact (Nat.mod_eq_of_lt initial.small).symm
  · rw [initial.typed, initial.log]
    rfl
  · rw [initial.returned]
    exact nofun
  · rw [initial.returned]
    exact nofun

theorem Active.append (active : Active m.log call) (c : UInt8) :
    Active (m.log ++ [c]) call :=
  ⟨active.placed.append [c], active.count⟩

/-- The oldest character leaves the buffer. -/
theorem Sound.take (sound : Sound m) (some : m.input.r ≠ m.input.w) :
    Sound (m.take m.input.front) where
  types := by
    change Types m.input.advance m.typed (m.log ++ [_]).length
    rw [List.length_append]
    exact (sound.types.advance some).2
  log := by
    change m.log ++ [m.input.front] =
      m.typed.committed.take (m.log ++ [m.input.front]).length
    rw [List.length_append, List.length_singleton, List.take_add_one,
      (sound.types.advance some).1, ← sound.log]
    rfl
  active p call runs := (sound.active p call runs).append _
  returned entry member := (sound.returned entry member).append _

theorem Whole.take (whole : Whole m) (sound : Sound m) {c : UInt8}
    (ordinary : c ≠ newline) : Whole (m.take c) where
  active p call runs := (whole.active p call runs).append ordinary
  returned entry member := (whole.returned entry member).append
    fun _ => (sound.returned entry member).lt_length

variable [DecidableEq Process]

theorem Machine.current_setControl (m : Machine Process) (p : Process)
    (control : Control) :
    (m.setControl p control).current =
      Function.update m.current p control.call? := by
  funext q
  exact Function.apply_update (fun _ => Control.call?) m.control p control q

theorem Sound.setControl (sound : Sound m) (p : Process) (control : Control)
    (active : ∀ call, control.call? = some call → Active m.log call) :
    Sound (m.setControl p control) where
  types := sound.types
  log := sound.log
  active := by
    rw [m.current_setControl]
    exact (Function.forall_update_iff m.current fun _ found =>
      ∀ call, found = some call → Active m.log call).mpr
      ⟨active, fun q _ => sound.active q⟩
  returned := sound.returned

theorem Sound.finish (sound : Sound m) (p : Process)
    (active : Active m.log call) : Sound (m.finish p call) where
  types := sound.types
  log := sound.log
  active := (sound.setControl p .idle nofun).active
  returned := by
    intro entry member
    rcases List.mem_append.mp member with old | new
    · exact sound.returned entry old
    · cases List.mem_singleton.mp new
      exact active.placed

/-- What the calls of the other processes have taken stays in one line. -/
theorem Whole.setControl (active : ∀ q call, q ≠ p → m.current q = some call →
      Unfinished m.log call.places)
    (returned : ∀ entry ∈ m.returned, OneLine m.log entry.1)
    (control : Control) (own : ∀ call, control.call? = some call →
      Unfinished m.log call.places) : Whole (m.setControl p control) where
  active := by
    rw [m.current_setControl]
    exact (Function.forall_update_iff m.current fun _ found =>
      ∀ call, found = some call → Unfinished m.log call.places).mpr
      ⟨own, fun q different call => active q call different⟩
  returned := returned

theorem Whole.finish (active : ∀ q call, q ≠ p → m.current q = some call →
      Unfinished m.log call.places)
    (returned : ∀ entry ∈ m.returned, OneLine m.log entry.1)
    (own : OneLine m.log call.places) : Whole (m.finish p call) where
  active := (Whole.setControl active returned .idle nofun).active
  returned := by
    intro entry member
    rcases List.mem_append.mp member with old | new
    · exact returned entry old
    · cases List.mem_singleton.mp new
      exact own

/-- What a turn of the loop of `consoleread` does. -/
theorem Sound.turn_cases (sound : Sound m) (runs : m.current p = some call) :
    m.turn p call = m.finish p call ∨
    m.turn p call = { m.setControl p (.asleep call) with lock := none } ∨
    m.input.r ≠ m.input.w ∧
    (m.input.front = endOfFile ∧ call.dst = [] ∧
      m.turn p call = (m.take m.input.front).finish p call ∨
    ∃ call', m.input.front ≠ endOfFile ∧ call.n ≠ 0 ∧
      Active (m.log ++ [m.input.front]) call' ∧
      call'.places = call.places ++ [m.log.length] ∧
      (m.input.front = newline ∧
        m.turn p call = (m.take m.input.front).finish p call' ∨
      m.input.front ≠ newline ∧
        m.turn p call =
          (m.take m.input.front).setControl p (.running call'))) := by
  obtain ⟨placed, count⟩ := sound.active p call runs
  unfold Machine.turn
  by_cases none : call.n = 0
  · exact .inl (if_pos none)
  rw [if_neg none]
  by_cases empty : m.input.r = m.input.w
  · exact .inr (.inl (if_pos empty))
  rw [if_neg empty]
  dsimp only
  by_cases mark : m.input.front = endOfFile
  · rw [if_pos mark]
    by_cases less : call.n < call.target
    · rw [if_pos less, sound.types.holds.retreat_advance]
      exact .inl rfl
    · have nothing : call.dst = [] :=
        List.eq_nil_of_length_eq_zero (by omega)
      exact .inr (.inr ⟨empty, .inl ⟨mark, nothing, if_neg less⟩⟩)
  · rw [if_neg mark]
    refine .inr (.inr ⟨empty, .inr ⟨⟨call.n - 1, call.target,
      call.dst ++ [m.input.front], call.places ++ [m.log.length]⟩, mark, none,
      ⟨placed.take mark, ?_⟩, rfl, ?_⟩⟩)
    · dsimp only
      rw [List.length_append, List.length_singleton]
      omega
    · by_cases ends : m.input.front = newline
      · exact .inl ⟨ends, if_pos ends⟩
      · exact .inr ⟨ends, if_neg ends⟩

theorem Sound.turn (sound : Sound m) (runs : m.current p = some call) :
    Sound (m.turn p call) := by
  have active := sound.active p call runs
  rcases sound.turn_cases runs with same | same | ⟨some, rest⟩
  · rw [same]
    exact sound.finish p active
  · rw [same]
    have kept := sound.setControl p (.asleep call) (by
      rintro _ ⟨⟩
      exact active)
    exact ⟨kept.types, kept.log, kept.active, kept.returned⟩
  · have took := sound.take some
    rcases rest with ⟨_, _, same⟩ |
      ⟨call', _, _, active', _, ⟨_, same⟩ | ⟨_, same⟩⟩
    · rw [same]
      exact took.finish p (active.append _)
    · rw [same]
      exact took.finish p active'
    · rw [same]
      refine took.setControl p _ ?_
      rintro _ ⟨⟩
      exact active'

/-- A process that takes the end of a line is the only one that reads in the
line. -/
def Alone (m : Machine Process) : Action Process → Prop
  | .run p => ∀ call, m.control p = .running call → call.n ≠ 0 →
      m.input.r ≠ m.input.w → m.input.front = newline →
      ∀ q other, q ≠ p → m.current q = some other → other.dst = []
  | _ => True

/-- A turn of the loop, if it does not take the end of a line that others
read. -/
theorem Whole.turn (whole : Whole m) (sound : Sound m)
    (runs : m.control p = .running call) (alone : Alone m (.run p)) :
    Whole (m.turn p call) := by
  have current := Machine.current_of_running runs
  have unfinished := whole.active p call current
  have others : ∀ q other, q ≠ p → m.current q = some other →
      Unfinished m.log other.places := fun q other _ => whole.active q other
  rcases sound.turn_cases current with same | same | ⟨some, rest⟩
  · rw [same]
    exact .finish others whole.returned unfinished.oneLine
  · rw [same]
    have kept := Whole.setControl others whole.returned (.asleep call) (by
      rintro _ ⟨⟩
      exact unfinished)
    exact ⟨kept.active, kept.returned⟩
  · rcases rest with ⟨mark, _, same⟩ |
      ⟨call', _, more, _, places, ⟨ends, same⟩ | ⟨ordinary, same⟩⟩
    · have took := whole.take sound (c := m.input.front) (by
        rw [mark]
        decide)
      rw [same]
      exact .finish (fun q other _ => took.active q other) took.returned
        (took.active p call current).oneLine
    · rw [same]
      refine .finish ?_ ?_ ?_
      · intro q other different runs'
        have nothing := alone call runs more some ends q other different runs'
        have length := (sound.active q other runs').placed.length_eq
        rw [nothing] at length
        rw [List.eq_nil_of_length_eq_zero length]
        exact nofun
      · intro entry member
        exact (whole.returned entry member).append
          fun _ => (sound.returned entry member).lt_length
      · rw [places]
        exact unfinished.take _
    · have took := whole.take sound ordinary
      rw [same]
      refine .setControl (fun q other _ => took.active q other) took.returned _
        ?_
      rintro _ ⟨⟩
      rw [places]
      exact unfinished.newest ordinary

/-! ## Runs -/

/-- One step.  It keeps the lines apart if it is allowed to. -/
theorem Sound.next (sound : Sound m) {action : Action Process}
    (taken : m.next action = some after) :
    Sound after ∧ (Alone m action → Whole m → Whole after) := by
  cases action with
  | consoleintr c =>
      obtain ⟨_, same⟩ := Option.ite_none_right_eq_some.mp taken
      cases same
      obtain ⟨more, grown⟩ := m.typed.prefix_press m.log.length c
      refine ⟨⟨sound.types.consoleintr c, ?_, sound.active, sound.returned⟩,
        fun _ whole => ⟨whole.active, whole.returned⟩⟩
      dsimp only
      rw [← grown, List.take_append_of_le_length sound.types.taken_le]
      exact sound.log
  | consoleread p n =>
      simp only [Machine.next] at taken
      split at taken
      · obtain ⟨_, same⟩ := Option.ite_none_right_eq_some.mp taken
        cases same
        have kept := sound.setControl p (.running ⟨n, n, [], []⟩) (by
          rintro _ ⟨⟩
          exact ⟨.nil, rfl⟩)
        refine ⟨⟨kept.types, kept.log, kept.active, kept.returned⟩, ?_⟩
        intro _ whole
        have apart := Whole.setControl (p := p)
          (fun q other _ => whole.active q other) whole.returned
          (.running ⟨n, n, [], []⟩) (by
            rintro _ ⟨⟩
            exact nofun)
        exact ⟨apart.active, apart.returned⟩
      · cases taken
  | run p =>
      simp only [Machine.next] at taken
      split at taken
      · rename_i call runs
        obtain ⟨_, same⟩ := Option.ite_none_right_eq_some.mp taken
        cases same
        exact ⟨sound.turn (Machine.current_of_running runs),
          fun alone whole => whole.turn sound runs alone⟩
      · cases taken
  | wake p =>
      simp only [Machine.next] at taken
      split at taken
      · rename_i call sleeps
        obtain ⟨_, same⟩ := Option.ite_none_right_eq_some.mp taken
        cases same
        have current : m.current p = some call := by
          unfold Machine.current
          rw [sleeps]
          rfl
        have kept := sound.setControl p (.running call) (by
          rintro _ ⟨⟩
          exact sound.active p call current)
        refine ⟨⟨kept.types, kept.log, kept.active, kept.returned⟩, ?_⟩
        intro _ whole
        have apart := Whole.setControl (p := p)
          (fun q other _ => whole.active q other) whole.returned
          (.running call) (by
            rintro _ ⟨⟩
            exact whole.active p call current)
        exact ⟨apart.active, apart.returned⟩
      · cases taken

/-- An end of file stops a call.  If the call has characters, it stays in the
buffer; otherwise it is taken, and the call returns nothing. -/
theorem Sound.stops (sound : Sound m) (runs : m.current p = some call)
    (more : call.n ≠ 0) (some : m.input.r ≠ m.input.w)
    (mark : m.input.front = endOfFile) :
    m.turn p call =
      if call.dst = [] then (m.take endOfFile).finish p call
      else m.finish p call := by
  have count := (sound.active p call runs).count
  unfold Machine.turn
  rw [if_neg more, if_neg some]
  dsimp only
  rw [if_pos mark, sound.types.holds.retreat_advance, mark]
  by_cases nothing : call.dst = []
  · rw [nothing, List.length_nil] at count
    rw [if_neg (by omega), if_pos nothing]
  · have positive := List.length_pos_of_ne_nil nothing
    rw [if_pos (by omega), if_neg nothing]

end Machines

/-- A console whose indices are about to wrap. -/
def quiet (Process : Type) : Machine Process where
  input := ⟨fun _ => 0, 2 ^ 32 - 1, 2 ^ 32 - 1, 2 ^ 32 - 1⟩
  lock := none
  control _ := .idle
  typed := ⟨[], []⟩
  log := []
  returned := []

end Xv6.Console
