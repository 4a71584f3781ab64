import Mathlib.Data.List.Induction
import Xv6.Console.Machine

/-!
# The indices of the console

The characters between the read and the edit index are those that nobody has
read, and behind them those that can still be edited; the write index stands
between the two.
-/

namespace Xv6.Console

open Lib

variable {input : Input} {unread editing : List UInt8} {c : UInt8}

/-- The buffer holds characters to be read and characters to be edited. -/
structure Holds (input : Input) (unread editing : List UInt8) : Prop where
  ring : shape.Represents input.buf input.r input.e (unread ++ editing)
  write : input.w = uintAdd input.r unread.length

theorem distance_uintAdd {low n : Nat} (small : low < 2 ^ 32)
    (few : n < 2 ^ 32) : distance low (uintAdd low n) = n := by
  unfold distance uintAdd
  omega

namespace Holds

theorem small (holds : Holds input unread editing) : input.r < 2 ^ 32 :=
  holds.ring.wrapped

theorem fits (holds : Holds input unread editing) :
    unread.length + editing.length ≤ inputBuf := by
  rw [← List.length_append]
  exact holds.ring.fits

theorem edit (holds : Holds input unread editing) :
    input.e = uintAdd input.r (unread.length + editing.length) := by
  rw [← List.length_append]
  exact holds.ring.put_eq

theorem distance_write (holds : Holds input unread editing) :
    distance input.r input.w = unread.length := by
  have fits := holds.fits
  unfold inputBuf at fits
  rw [holds.write]
  exact distance_uintAdd holds.small (by omega)

theorem distance_edit (holds : Holds input unread editing) :
    distance input.r input.e = unread.length + editing.length := by
  have fits := holds.fits
  unfold inputBuf at fits
  rw [holds.edit]
  exact distance_uintAdd holds.small (by omega)

theorem distance_editing (holds : Holds input unread editing) :
    distance input.w input.e = editing.length := by
  have fits := holds.fits
  have small := holds.small
  unfold inputBuf at fits
  rw [holds.write, holds.edit]
  unfold distance uintAdd
  omega

theorem read_eq_write_iff (holds : Holds input unread editing) :
    input.r = input.w ↔ unread = [] := by
  have few := holds.distance_write
  constructor
  · intro same
    rw [← same] at few
    unfold distance at few
    exact List.eq_nil_of_length_eq_zero (by omega)
  · intro nothing
    have small := holds.small
    rw [holds.write, nothing]
    exact (Nat.mod_eq_of_lt small).symm

theorem edit_eq_write_iff (holds : Holds input unread editing) :
    input.e = input.w ↔ editing = [] := by
  have few := holds.distance_editing
  constructor
  · intro same
    rw [← same] at few
    unfold distance at few
    exact List.eq_nil_of_length_eq_zero (by omega)
  · intro nothing
    rw [holds.edit, holds.write, nothing]
    rfl

/-- The last character that can be edited goes. -/
theorem back (holds : Holds input unread (editing ++ [c])) :
    input.last = c ∧ Holds input.back unread editing := by
  obtain ⟨ring, write⟩ := holds
  rw [← List.append_assoc] at ring
  obtain ⟨last, rest⟩ := ring.unpush
  have previous : (input.e + (shape.modulus - 1)) % shape.modulus =
      uintAdd input.e (2 ^ 32 - 1) := by
    unfold uintAdd
    have modulus : shape.modulus = 2 ^ 32 := rfl
    rw [modulus]
  rw [previous] at last rest
  unfold Input.last Input.back
  refine ⟨?_, ?_, ?_⟩
  · exact last
  · exact rest
  · exact write

theorem insert (holds : Holds input unread editing)
    (room : unread.length + editing.length < inputBuf) (c : UInt8) :
    Holds (input.insert c) unread (editing ++ [c]) := by
  refine ⟨?_, holds.write⟩
  rw [← List.append_assoc]
  rw [← List.length_append] at room
  exact holds.ring.push room c

/-- `input.w = input.e`. -/
theorem commit (holds : Holds input unread editing) :
    Holds { input with w := input.e } (unread ++ editing) [] := by
  refine ⟨?_, ?_⟩
  · rw [List.append_nil]
    exact holds.ring
  · dsimp only
    rw [holds.edit, List.length_append]

/-- The oldest character is read. -/
theorem advance (holds : Holds input (c :: unread) editing) :
    input.front = c ∧ Holds input.advance unread editing := by
  obtain ⟨front, rest⟩ := holds.ring.pop
  refine ⟨front, rest, ?_⟩
  have small := holds.small
  have write := holds.write
  rw [List.length_cons] at write
  change input.w = uintAdd (uintAdd input.r 1) unread.length
  rw [write]
  unfold uintAdd
  omega

/-- `input.r++` and `input.r--`. -/
theorem retreat_advance (holds : Holds input unread editing) :
    input.advance.retreat = input := by
  have small := holds.small
  have same : uintAdd (uintAdd input.r 1) (2 ^ 32 - 1) = input.r := by
    unfold uintAdd
    omega
  change { input with r := uintAdd (uintAdd input.r 1) (2 ^ 32 - 1) } = input
  rw [same]

/-- `C('U')` takes back all that can be edited. -/
theorem kill (holds : Holds input unread editing)
    (inside : newline ∉ editing) :
    Holds (input.kill editing.length) unread [] := by
  induction editing using List.reverseRecOn generalizing input with
  | nil => exact holds
  | append_singleton editing c ih =>
      obtain ⟨last, rest⟩ := holds.back
      have more : input.e ≠ input.w := by
        intro same
        have nothing := holds.edit_eq_write_iff.mp same
        simp at nothing
      have ordinary : input.last ≠ newline := by
        intro same
        rw [last] at same
        apply inside
        exact List.mem_append_right _ (List.mem_singleton.mpr same.symm)
      rw [List.length_append, List.length_singleton, Input.kill,
        if_pos ⟨more, ordinary⟩]
      exact ih rest fun member => inside (List.mem_append_left _ member)

end Holds

/-! ## One character -/

/-- What the buffer and the characters that were typed have in common, when
readers have taken a number of characters. -/
structure Types (input : Input) (typed : Typed) (taken : Nat) : Prop where
  holds : Holds input (typed.committed.drop taken) typed.editing
  taken_le : taken ≤ typed.committed.length
  inside : newline ∉ typed.editing

variable {typed : Typed} {taken : Nat}

/-- `consoleintr` does to the buffer what the key does to the characters. -/
theorem Types.consoleintr (types : Types input typed taken) (c : UInt8) :
    Types (input.consoleintr c) (typed.press taken c) taken := by
  obtain ⟨holds, few, inside⟩ := types
  have length : (typed.committed.drop taken).length =
      typed.committed.length - taken := List.length_drop
  unfold Input.consoleintr Typed.press
  split
  · exact ⟨holds, few, inside⟩
  split
  · refine ⟨?_, few, List.not_mem_nil⟩
    rw [holds.distance_editing]
    exact holds.kill inside
  split
  · rcases List.eq_nil_or_concat typed.editing with
      nothing | ⟨editing, last, some⟩
    · rw [if_neg (by rw [holds.edit_eq_write_iff.mpr nothing]; simp), nothing]
      rw [nothing] at holds
      exact ⟨holds, few, List.not_mem_nil⟩
    · rw [List.concat_eq_append] at some
      have more : input.e ≠ input.w := by
        intro same
        have nothing := holds.edit_eq_write_iff.mp same
        simp [some] at nothing
      rw [if_pos more, some, List.dropLast_concat]
      rw [some] at holds inside
      exact ⟨holds.back.2, few,
        fun member => inside (List.mem_append_left _ member)⟩
  · rw [holds.distance_edit, length]
    split
    case isFalse => exact ⟨holds, few, inside⟩
    case isTrue room =>
        dsimp only
        generalize (if c = 13 then newline else c) = key
        have inserted := holds.insert (by rw [length]; exact room.2) key
        have full : (input.insert key).e =
              uintAdd (input.insert key).r inputBuf ↔
            typed.committed.length - taken + (typed.editing ++ [key]).length =
              inputBuf := by
          have whole := inserted.ring.put_eq_full_iff
          rw [List.length_append, length] at whole
          exact whole
        simp only [full]
        split
        · refine ⟨?_, ?_, List.not_mem_nil⟩
          · rw [List.drop_append_of_le_length few]
            exact inserted.commit
          · rw [List.length_append]
            omega
        · rename_i ordinary
          refine ⟨inserted, few, ?_⟩
          intro member
          rcases List.mem_append.mp member with old | new
          · exact inside old
          · exact ordinary (.inl (List.mem_singleton.mp new).symm)

/-- What is committed stays. -/
theorem Typed.prefix_press (typed : Typed) (taken : Nat) (c : UInt8) :
    typed.committed <+: (typed.press taken c).committed := by
  unfold Typed.press
  split
  · exact List.prefix_rfl
  split
  · exact List.prefix_rfl
  split
  · exact List.prefix_rfl
  split
  · dsimp only
    generalize (if c = 13 then newline else c) = key
    split
    · exact List.prefix_append ..
    · exact List.prefix_rfl
  · exact List.prefix_rfl

end Xv6.Console
