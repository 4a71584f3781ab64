import Xv6.Lib.Levels
import Xv6.Lib.Run

/-!
# Multilevel queue schedulers

A scheduler over lists of waiting items, one list for each level.  It serves
the head of the first level that is not empty, newcomers are appended at the
end of a level, and all levels may be merged into the first one.  Whatever
else happens, no waiting item overtakes another one, and an item of the first
level is served as soon as the items before it have been.
-/

namespace Xv6.Lib

universe u

variable {Item : Type u}

namespace Levels

/-- The steps of a multilevel scheduler, labelled with the item they serve. -/
inductive Step (count : Nat) (levels : Levels Item) :
    Option Item → Levels Item → Prop where
  | serve {level : Nat} {item : Item} {rest : List Item}
      (below : level < count)
      (head : levels level = item :: rest)
      (empty : ∀ smaller < level, levels smaller = []) :
      Step count levels (some item) (Function.update levels level rest)
  | collapse : Step count levels none (levels.collapse count)
  | grow {grown : Levels Item}
      (grows : Grows levels grown)
      (nodup : (order count grown).Nodup) :
      Step count levels none grown

end Levels

/-- A multilevel scheduler as a transition system. -/
def multilevel (count : Nat) : System (Levels Item) (Option Item) where
  step := Levels.Step count

/-- The items a history serves, the last one first. -/
def served (history : History (Levels Item) (Option Item)) : List Item :=
  history.filterMap Prod.snd

namespace Levels

variable {count : Nat} {levels next finish : Levels Item}
  {label : Option Item} {item other : Item}
  {history : History (Levels Item) (Option Item)}

/-- Serving takes the first item of the service order.  Every other step
keeps the service order and inserts newcomers. -/
theorem Step.order (positive : 0 < count)
    (step : Step count levels label next) :
    (∃ item, label = some item ∧
      order count levels = item :: order count next) ∨
    label = none ∧ (order count levels).Sublist (order count next) := by
  cases step with
  | serve below head empty =>
      exact .inl ⟨_, rfl, order_eq_cons below empty head⟩
  | collapse =>
      rw [order_collapse positive]
      exact .inr ⟨rfl, List.Sublist.refl _⟩
  | grow grows nodup => exact .inr ⟨rfl, grows.order_sublist count⟩

theorem Step.nodup_order (positive : 0 < count)
    (nodup : (Levels.order count levels).Nodup)
    (step : Step count levels label next) :
    (Levels.order count next).Nodup := by
  cases step with
  | serve below head empty =>
      rw [order_eq_cons below empty head] at nodup
      exact nodup.of_cons
  | collapse =>
      rw [order_collapse positive]
      exact nodup
  | grow _ grown => exact grown

theorem run_nodup_order (positive : 0 < count)
    (nodup : (order count levels).Nodup)
    (run : Run (multilevel count) levels history finish) :
    (order count finish).Nodup :=
  run.invariant nodup fun taken before =>
    Step.nodup_order positive before taken

theorem served_cons :
    served ((levels, label) :: history) = label.toList ++ served history := by
  cases label with
  | none => rfl
  | some first => rfl

/-- Merging the levels puts the other items behind those of the first. -/
theorem grows_first_collapse (levels : Levels Item) (positive : 0 < count) :
    levels 0 <+: levels.collapse count 0 := by
  obtain ⟨rest, rfl⟩ : ∃ rest, count = rest + 1 := ⟨count - 1, by omega⟩
  simp [collapse, order, List.range_succ_eq_map]

variable [DecidableEq Item]

/-- One step that serves neither of two waiting items keeps both waiting, in
the same order. -/
theorem Step.keeps_order (positive : 0 < count)
    (nodup : (Levels.order count levels).Nodup)
    (step : Step count levels label next)
    (itemWaits : item ∈ Levels.order count levels)
    (otherWaits : other ∈ Levels.order count levels)
    (itemUnserved : label ≠ some item) (otherUnserved : label ≠ some other) :
    item ∈ Levels.order count next ∧ other ∈ Levels.order count next ∧
      ((Levels.order count levels).idxOf item <
          (Levels.order count levels).idxOf other ↔
        (Levels.order count next).idxOf item <
          (Levels.order count next).idxOf other) := by
  rcases step.order positive with ⟨first, rfl, order⟩ | ⟨_, sublist⟩
  · have itemDifferent : item ≠ first := by
      rintro rfl
      exact itemUnserved rfl
    have otherDifferent : other ≠ first := by
      rintro rfl
      exact otherUnserved rfl
    rw [order] at itemWaits otherWaits ⊢
    refine ⟨List.mem_of_ne_of_mem itemDifferent itemWaits,
      List.mem_of_ne_of_mem otherDifferent otherWaits, ?_⟩
    rw [List.idxOf_cons_ne _ itemDifferent.symm,
      List.idxOf_cons_ne _ otherDifferent.symm, Nat.succ_lt_succ_iff]
  · exact ⟨sublist.subset itemWaits, sublist.subset otherWaits,
      idxOf_lt_idxOf_iff_of_sublist sublist
        (step.nodup_order positive nodup) itemWaits otherWaits⟩

/-- No waiting item overtakes another one along a run. -/
theorem run_keeps_order (positive : 0 < count)
    (nodup : (order count levels).Nodup)
    (run : Run (multilevel count) levels history finish)
    (itemWaits : item ∈ order count levels)
    (otherWaits : other ∈ order count levels)
    (itemUnserved : item ∉ served history)
    (otherUnserved : other ∉ served history) :
    item ∈ order count finish ∧ other ∈ order count finish ∧
      ((order count levels).idxOf item < (order count levels).idxOf other ↔
        (order count finish).idxOf item <
          (order count finish).idxOf other) := by
  induction run with
  | refl => exact ⟨itemWaits, otherWaits, Iff.rfl⟩
  | @step history before after label previous taken induction =>
      have unserved : ∀ waiting, waiting ∉ served
          ((before, label) :: history) →
          waiting ∉ served history ∧ label ≠ some waiting := by
        intro waiting absent
        rw [served_cons, List.mem_append, not_or] at absent
        exact ⟨absent.2, by simpa using absent.1⟩
      obtain ⟨itemEarlier, itemNow⟩ := unserved item itemUnserved
      obtain ⟨otherEarlier, otherNow⟩ := unserved other otherUnserved
      obtain ⟨itemStill, otherStill, same⟩ :=
        induction itemEarlier otherEarlier
      obtain ⟨itemAfter, otherAfter, sameAfter⟩ :=
        Step.keeps_order positive (run_nodup_order positive nodup previous)
          taken itemStill otherStill itemNow otherNow
      exact ⟨itemAfter, otherAfter, same.trans sameAfter⟩

/-- One step serves an item of the first level, or lets it move up by the item
that is served. -/
theorem Step.advances (positive : 0 < count)
    (step : Step count levels label next) (waits : item ∈ levels 0)
    (unserved : label ≠ some item) :
    item ∈ next 0 ∧ (levels 0).idxOf item =
      (next 0).idxOf item + label.toList.length := by
  cases step with
  | @serve level first rest below head empty =>
      have front : level = 0 := by
        by_contra later
        rw [empty 0 (by omega)] at waits
        simp at waits
      subst level
      have different : item ≠ first := by
        rintro rfl
        exact unserved rfl
      rw [head] at waits ⊢
      rw [Function.update_self]
      exact ⟨List.mem_of_ne_of_mem different waits,
        by simp [List.idxOf_cons_ne _ different.symm]⟩
  | collapse =>
      obtain ⟨others, merged⟩ := grows_first_collapse levels positive
      rw [← merged]
      exact ⟨List.mem_append_left _ waits,
        by simp [List.idxOf_append_of_mem waits]⟩
  | grow grows nodup =>
      obtain ⟨newcomers, grown⟩ := grows 0
      rw [← grown]
      exact ⟨List.mem_append_left _ waits,
        by simp [List.idxOf_append_of_mem waits]⟩

/-- An item of the first level is served within as many services as there are
items up to it. -/
theorem run_serves (positive : 0 < count)
    (run : Run (multilevel count) levels history finish)
    (waits : item ∈ levels 0)
    (enough : (levels 0).idxOf item < (served history).length) :
    item ∈ served history := by
  have progress : item ∈ served history ∨ item ∈ finish 0 ∧
      (levels 0).idxOf item =
        (finish 0).idxOf item + (served history).length := by
    clear enough
    induction run with
    | refl => exact .inr ⟨waits, rfl⟩
    | @step history before after label previous taken induction =>
        rw [served_cons]
        rcases induction with earlier | ⟨still, rank⟩
        · exact .inl (List.mem_append_right _ earlier)
        · by_cases now : label = some item
          · exact .inl (List.mem_append_left _ (by simp [now]))
          · obtain ⟨later, moved⟩ := Step.advances positive taken still now
            refine .inr ⟨later, ?_⟩
            rw [rank, moved, List.length_append]
            omega
  rcases progress with found | ⟨_, rank⟩
  · exact found
  · omega

end Levels

end Xv6.Lib
