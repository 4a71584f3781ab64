import Mathlib.Data.List.Basic
import Mathlib.Data.Fin.Basic
import Mathlib.Data.Nat.ModEq

/-!
# Ring buffers with counters that wrap

A buffer of fixed capacity and two counters, of what was taken out and of what
was put in.  The counters are never reset; they wrap at a modulus that the
capacity divides, and are reduced by the capacity to find a cell.
-/

namespace Xv6.Lib

universe u

/-- A capacity, and the modulus at which the counters wrap. -/
structure RingShape where
  capacity : Nat
  modulus : Nat
  positive : 0 < capacity
  divides : capacity ∣ modulus
  smaller : capacity < modulus

namespace RingShape

variable {α : Type u} (shape : RingShape)

/-- The cell that a counter points to. -/
def cell (counter : Nat) : Fin shape.capacity :=
  ⟨counter % shape.capacity, Nat.mod_lt _ shape.positive⟩

/-- The values between the two counters, oldest first. -/
def contents (data : Fin shape.capacity → α) (taken put : Nat) : List α :=
  (List.range ((put + shape.modulus - taken) % shape.modulus)).map fun i =>
    data (shape.cell (taken + i))

/-- The buffer holds `queue`, oldest first. -/
structure Represents (data : Fin shape.capacity → α) (taken put : Nat)
    (queue : List α) : Prop where
  wrapped : taken < shape.modulus
  put_eq : put = (taken + queue.length) % shape.modulus
  fits : queue.length ≤ shape.capacity
  cell_eq : ∀ i (inside : i < queue.length),
    data (shape.cell (taken + i)) = queue[i]

variable {shape} {data : Fin shape.capacity → α} {taken put : Nat}
  {queue : List α}

theorem cell_mod (counter : Nat) :
    shape.cell (counter % shape.modulus) = shape.cell counter := by
  apply Fin.ext
  exact Nat.mod_mod_of_dvd counter shape.divides

/-- Two counters less than a capacity apart point to different cells. -/
theorem cell_ne {counter i j : Nat} (apart : i < j)
    (near : j - i < shape.capacity) :
    shape.cell (counter + i) ≠ shape.cell (counter + j) := by
  intro same
  have residues : (counter + i) % shape.capacity =
      (counter + j) % shape.capacity := congrArg Fin.val same
  have divides : shape.capacity ∣ counter + j - (counter + i) :=
    (Nat.modEq_iff_dvd' (by omega)).mp residues
  have distance : counter + j - (counter + i) = j - i := by omega
  rw [distance] at divides
  exact absurd (Nat.le_of_dvd (by omega) divides) (by omega)

namespace Represents

theorem empty (data : Fin shape.capacity → α) (wrapped : taken < shape.modulus) :
    shape.Represents data taken taken [] where
  wrapped := wrapped
  put_eq := (Nat.mod_eq_of_lt wrapped).symm
  fits := Nat.zero_le _
  cell_eq := by
    intro i inside
    cases inside

/-- The difference of the counters is the number of values. -/
theorem length_eq (represents : shape.Represents data taken put queue) :
    (put + shape.modulus - taken) % shape.modulus = queue.length := by
  have wrapped := represents.wrapped
  have fits := represents.fits
  have smaller := shape.smaller
  rw [represents.put_eq]
  by_cases inside : taken + queue.length < shape.modulus
  · rw [Nat.mod_eq_of_lt inside]
    have distance : taken + queue.length + shape.modulus - taken =
        queue.length + shape.modulus := by omega
    rw [distance, Nat.add_mod_right, Nat.mod_eq_of_lt (by omega)]
  · have once : (taken + queue.length) % shape.modulus =
        taken + queue.length - shape.modulus := by
      rw [Nat.mod_eq_sub_mod (by omega), Nat.mod_eq_of_lt (by omega)]
    have distance : taken + queue.length - shape.modulus + shape.modulus -
        taken = queue.length := by omega
    rw [once, distance, Nat.mod_eq_of_lt (by omega)]

theorem contents_eq (represents : shape.Represents data taken put queue) :
    shape.contents data taken put = queue := by
  unfold contents
  rw [represents.length_eq]
  apply List.ext_getElem
  · simp
  · intro i _ inside
    simp [represents.cell_eq i inside]

theorem taken_eq_put_iff (represents : shape.Represents data taken put queue) :
    taken = put ↔ queue = [] := by
  constructor
  · intro same
    have none : (put + shape.modulus - taken) % shape.modulus = 0 := by
      rw [same, Nat.add_sub_cancel_left, Nat.mod_self]
    rw [represents.length_eq] at none
    exact List.length_eq_zero_iff.mp none
  · intro nothing
    rw [represents.put_eq, nothing]
    exact (Nat.mod_eq_of_lt represents.wrapped).symm

theorem put_eq_full_iff (represents : shape.Represents data taken put queue) :
    put = (taken + shape.capacity) % shape.modulus ↔
      queue.length = shape.capacity := by
  constructor
  · intro same
    have wrapped := represents.wrapped
    have fits := represents.fits
    have smaller := shape.smaller
    rw [represents.put_eq] at same
    have residues : Nat.ModEq shape.modulus queue.length shape.capacity :=
      Nat.ModEq.add_left_cancel' taken same
    exact residues.eq_of_lt_of_lt (by omega) smaller
  · intro full
    rw [represents.put_eq, full]

/-- Put a value in, if there is room. -/
theorem push (represents : shape.Represents data taken put queue)
    (room : queue.length < shape.capacity) (value : α) :
    shape.Represents (Function.update data (shape.cell put) value) taken
      ((put + 1) % shape.modulus) (queue ++ [value]) := by
  have place : shape.cell put = shape.cell (taken + queue.length) := by
    rw [represents.put_eq, cell_mod]
  refine ⟨represents.wrapped, ?_, ?_, ?_⟩
  · rw [represents.put_eq, Nat.mod_add_mod, List.length_append]
    rfl
  · simp only [List.length_append, List.length_cons, List.length_nil]
    omega
  · intro i inside
    simp only [List.length_append, List.length_cons, List.length_nil] at inside
    by_cases last : i = queue.length
    · subst last
      rw [place, Function.update_self]
      simp
    · have old : i < queue.length := by omega
      rw [place, Function.update_of_ne (cell_ne old (by omega)),
        represents.cell_eq i old, List.getElem_append_left old]

/-- Take the oldest value out. -/
theorem pop {value : α}
    (represents : shape.Represents data taken put (value :: queue)) :
    data (shape.cell taken) = value ∧
      shape.Represents data ((taken + 1) % shape.modulus) put queue := by
  have positive := shape.positive
  have smaller := shape.smaller
  have fits := represents.fits
  simp only [List.length_cons] at fits
  refine ⟨?_, Nat.mod_lt _ (by omega), ?_, by omega, ?_⟩
  · exact represents.cell_eq 0 (by simp)
  · rw [represents.put_eq, Nat.mod_add_mod]
    congr 1
    simp only [List.length_cons]
    omega
  · intro i inside
    have next := represents.cell_eq (i + 1) (by simpa using inside)
    have same : shape.cell ((taken + 1) % shape.modulus + i) =
        shape.cell (taken + (i + 1)) := by
      rw [← cell_mod, Nat.mod_add_mod, cell_mod]
      congr 1
      omega
    rw [same, next]
    rfl

/-- Take the newest value back. -/
theorem unpush {value : α}
    (represents : shape.Represents data taken put (queue ++ [value])) :
    data (shape.cell ((put + (shape.modulus - 1)) % shape.modulus)) = value ∧
      shape.Represents data taken ((put + (shape.modulus - 1)) % shape.modulus)
        queue := by
  have smaller := shape.smaller
  have fits := represents.fits
  have length : (queue ++ [value]).length = queue.length + 1 :=
    List.length_append
  have previous : (put + (shape.modulus - 1)) % shape.modulus =
      (taken + queue.length) % shape.modulus := by
    have sum : taken + (queue.length + 1) + (shape.modulus - 1) =
        taken + queue.length + shape.modulus := by omega
    rw [represents.put_eq, length, Nat.mod_add_mod, sum, Nat.add_mod_right]
  rw [previous]
  refine ⟨?_, represents.wrapped, rfl, by omega, ?_⟩
  · rw [cell_mod, represents.cell_eq queue.length (by omega)]
    exact List.getElem_concat_length rfl _
  · intro i inside
    rw [represents.cell_eq i (by omega)]
    exact List.getElem_append_left inside

end Represents

end RingShape

end Xv6.Lib
