import Mathlib.Data.List.Nodup
import Mathlib.Data.List.Infix
import Mathlib.Logic.Function.Basic

/-!
# Multi-level first-in first-out queues

The abstract scheduler keeps one list for each level.  A new item joins the
end of a level, an item may leave its level from any place, and collapsing
appends all levels, in order, into level zero.  `order` is the sequence in
which the items would be served.
-/

namespace Xv6.Lib

universe u

/-- One first-in first-out list for each level. -/
abbrev Levels (Item : Type u) := Nat → List Item

namespace Levels

variable {Item : Type u} {levels grown : Levels Item} {count level : Nat}
  {item other : Item}

/-- The items of the first `count` levels in service order. -/
def order (count : Nat) (levels : Levels Item) : List Item :=
  (List.range count).flatMap levels

/-- Append an item at the end of a level. -/
def push (levels : Levels Item) (level : Nat) (item : Item) : Levels Item :=
  Function.update levels level (levels level ++ [item])

/-- Remove an item from a level and keep the order of the others. -/
def remove [DecidableEq Item] (levels : Levels Item) (level : Nat)
    (item : Item) : Levels Item :=
  Function.update levels level ((levels level).erase item)

/-- Move every item to level zero in service order. -/
def collapse (count : Nat) (levels : Levels Item) : Levels Item :=
  fun level => if level = 0 then order count levels else []

/-- Every level is extended at its end only. -/
def Grows (levels grown : Levels Item) : Prop :=
  ∀ level, levels level <+: grown level

theorem Grows.refl (levels : Levels Item) : Grows levels levels :=
  fun _ => List.prefix_refl _

theorem Grows.trans {middle : Levels Item} (first : Grows levels middle)
    (second : Grows middle grown) : Grows levels grown :=
  fun level => (first level).trans (second level)

theorem grows_push (levels : Levels Item) (level : Nat) (item : Item) :
    Grows levels (levels.push level item) := by
  intro index
  by_cases same : index = level
  · subst index
    simp [push]
  · simp [push, same]

@[simp] theorem order_zero (levels : Levels Item) : order 0 levels = [] := rfl

theorem order_succ (count : Nat) (levels : Levels Item) :
    order (count + 1) levels = order count levels ++ levels count := by
  simp [order, List.range_succ]

theorem mem_order :
    item ∈ order count levels ↔ ∃ level < count, item ∈ levels level := by
  simp [order]

theorem order_eq_nil (empty : ∀ level < count, levels level = []) :
    order count levels = [] := by
  induction count with
  | zero => rfl
  | succ count induction =>
      rw [order_succ, empty count (by omega),
        induction fun level below => empty level (by omega), List.append_nil]

/-- Collapsing does not change the service order. -/
theorem order_collapse (positive : 0 < count) :
    order count (levels.collapse count) = order count levels := by
  obtain ⟨rest, rfl⟩ : ∃ rest, count = rest + 1 := ⟨count - 1, by omega⟩
  have split : ∀ number, order (number + 1) (levels.collapse (rest + 1)) =
      order (rest + 1) levels := by
    intro number
    induction number with
    | zero => simp [order, collapse]
    | succ number induction =>
        rw [order_succ, induction]
        simp [collapse]
  exact split rest

/-- Growing levels only inserts items into the service order. -/
theorem Grows.order_sublist (grows : Grows levels grown) (count : Nat) :
    (order count levels).Sublist (order count grown) := by
  induction count with
  | zero => simp
  | succ count induction =>
      rw [order_succ, order_succ]
      exact induction.append (grows count).sublist

theorem nodup_order
    (nodup : ∀ level < count, (levels level).Nodup)
    (disjoint : ∀ left < count, ∀ right < count, left ≠ right →
      (levels left).Disjoint (levels right)) :
    (order count levels).Nodup := by
  induction count with
  | zero => simp
  | succ count induction =>
      rw [order_succ]
      refine List.Nodup.append ?_ (nodup count (by omega)) ?_
      · exact induction (fun level below => nodup level (by omega))
          (fun left leftBelow right rightBelow =>
            disjoint left (by omega) right (by omega))
      · intro candidate early late
        obtain ⟨level, below, member⟩ := mem_order.mp early
        exact disjoint level (by omega) count (by omega) (by omega)
          member late

/-- The first item of the first non-empty level is the first one served. -/
theorem order_eq_cons {rest : List Item} (below : level < count)
    (empty : ∀ smaller < level, levels smaller = [])
    (head : levels level = item :: rest) :
    order count levels =
      item :: order count (Function.update levels level rest) := by
  induction count with
  | zero => omega
  | succ count induction =>
      rw [order_succ, order_succ]
      by_cases last : level = count
      · subst level
        have noneBefore : order count levels = [] := order_eq_nil empty
        have noneAfter :
            order count (Function.update levels count rest) = [] := by
          apply order_eq_nil
          intro smaller smallerBelow
          have different : smaller ≠ count := by omega
          simp [different, empty smaller smallerBelow]
        simp [noneBefore, noneAfter, head]
      · have different : count ≠ level := fun same => last same.symm
        rw [induction (by omega)]
        simp [different]

end Levels

section Positions

variable {Item : Type u} [DecidableEq Item]

/-- A sublist orders its items as the longer list does. -/
theorem idxOf_lt_idxOf_iff_of_sublist {short long : List Item}
    (sublist : short.Sublist long) (nodup : long.Nodup)
    {item other : Item} (itemMember : item ∈ short)
    (otherMember : other ∈ short) :
    short.idxOf item < short.idxOf other ↔
      long.idxOf item < long.idxOf other := by
  induction sublist with
  | slnil => simp at itemMember
  | @cons short long head sublist induction =>
      obtain ⟨absent, nodup⟩ := List.nodup_cons.mp nodup
      have headNeItem : head ≠ item := fun same =>
        absent (same ▸ sublist.subset itemMember)
      have headNeOther : head ≠ other := fun same =>
        absent (same ▸ sublist.subset otherMember)
      rw [List.idxOf_cons_ne _ headNeItem, List.idxOf_cons_ne _ headNeOther]
      have shorter := induction nodup itemMember otherMember
      omega
  | @cons_cons short long head sublist induction =>
      obtain ⟨absent, nodup⟩ := List.nodup_cons.mp nodup
      by_cases headItem : head = item
      · subst head
        by_cases same : item = other
        · subst other
          simp
        · rw [List.idxOf_cons_self, List.idxOf_cons_self,
            List.idxOf_cons_ne _ same, List.idxOf_cons_ne _ same]
          simp
      · by_cases headOther : head = other
        · subst head
          simp
        · have shorter := induction nodup
            (by simpa [Ne.symm headItem] using itemMember)
            (by simpa [Ne.symm headOther] using otherMember)
          rw [List.idxOf_cons_ne _ headItem, List.idxOf_cons_ne _ headOther,
            List.idxOf_cons_ne _ headItem, List.idxOf_cons_ne _ headOther]
          omega

namespace Levels

variable {levels : Levels Item} {count left right : Nat} {item other : Item}

/-- Service order is the lexicographic order of level and position. -/
theorem idxOf_order_lt_iff
    (disjoint : ∀ left < count, ∀ right < count, left ≠ right →
      (levels left).Disjoint (levels right))
    (leftBelow : left < count) (rightBelow : right < count)
    (itemMember : item ∈ levels left) (otherMember : other ∈ levels right) :
    (order count levels).idxOf item < (order count levels).idxOf other ↔
      left < right ∨ left = right ∧
        (levels left).idxOf item < (levels right).idxOf other := by
  induction count with
  | zero => omega
  | succ count induction =>
      have earlierOnly : ∀ {candidate : Item},
          candidate ∈ levels count → candidate ∉ order count levels := by
        intro candidate member early
        obtain ⟨level, below, member'⟩ := mem_order.mp early
        exact disjoint level (by omega) count (by omega) (by omega)
          member' member
      rw [order_succ]
      by_cases leftLast : left = count
      · have itemAbsent := earlierOnly (leftLast ▸ itemMember)
        by_cases rightLast : right = count
        · have otherAbsent := earlierOnly (rightLast ▸ otherMember)
          rw [List.idxOf_append_of_notMem itemAbsent,
            List.idxOf_append_of_notMem otherAbsent, leftLast, rightLast]
          omega
        · have otherEarly : other ∈ order count levels :=
            mem_order.mpr ⟨right, by omega, otherMember⟩
          rw [List.idxOf_append_of_notMem itemAbsent,
            List.idxOf_append_of_mem otherEarly]
          have bound := List.idxOf_lt_length_of_mem otherEarly
          omega
      · have itemEarly : item ∈ order count levels :=
          mem_order.mpr ⟨left, by omega, itemMember⟩
        rw [List.idxOf_append_of_mem itemEarly]
        by_cases rightLast : right = count
        · have otherAbsent := earlierOnly (rightLast ▸ otherMember)
          rw [List.idxOf_append_of_notMem otherAbsent]
          have bound := List.idxOf_lt_length_of_mem itemEarly
          omega
        · have otherEarly : other ∈ order count levels :=
            mem_order.mpr ⟨right, by omega, otherMember⟩
          rw [List.idxOf_append_of_mem otherEarly]
          exact induction
            (fun first firstBelow second secondBelow =>
              disjoint first (by omega) second (by omega))
            (by omega) (by omega)

end Levels

end Positions

end Xv6.Lib
