import Xv6.Bio.Steps
import Mathlib.Data.Multiset.AddSub
import Mathlib.Data.Multiset.Count

/-!
# References to buffers and locks

`refcnt` counts the references of all processes: the buffers they have got
from `bread` and not given back, and the one that a call is about.  Who has
the lock of a buffer has a reference to it.
-/

namespace Xv6.Bio

variable {Process Data : Type} [DecidableEq Process]

/-! ## References -/

/-- The buffer that a call of a process is about. -/
def Control.target : Control → Option (Fin nbuf)
  | .idle => none
  | .acquiresleep i _ | .bread i _ | .brelse i => some i

@[simp]
theorem Control.target_idle : Control.idle.target = none := rfl

/-- The references of a process to a buffer. -/
def uses (m : Machine Process Data) (p : Process) (i : Fin nbuf) : Nat :=
  (m.held p).count i + if (m.control p).target = some i then 1 else 0

omit [DecidableEq Process] in
theorem uses_eq_zero {m : Machine Process Data} {p : Process}
    {i : Fin nbuf} :
    uses m p i = 0 ↔ i ∉ m.held p ∧ (m.control p).target ≠ some i := by
  unfold uses
  rw [Nat.add_eq_zero_iff, List.count_eq_zero]
  simp

/-- `refcnt` counts the references of all processes. -/
def Counted (m : Machine Process Data) : Prop :=
  ∃ refs : Fin nbuf → Multiset Process,
    (∀ i, (m.buf i).refcnt = (refs i).card) ∧
      ∀ i p, (refs i).count p = uses m p i

namespace Counted

variable {m after : Machine Process Data} {p : Process} {i : Fin nbuf}

theorem unreferenced (counted : Counted m) (zero : (m.buf i).refcnt = 0)
    (p : Process) : uses m p i = 0 := by
  obtain ⟨refs, cards, counts⟩ := counted
  rw [cards i, Multiset.card_eq_zero] at zero
  rw [← counts i p, zero]
  exact Multiset.count_zero p

theorem same (counted : Counted m)
    (cards : ∀ i, (after.buf i).refcnt = (m.buf i).refcnt)
    (counts : ∀ i p, uses after p i = uses m p i) : Counted after := by
  obtain ⟨refs, cards', counts'⟩ := counted
  refine ⟨refs, ?_, ?_⟩
  · intro i
    rw [cards i, cards' i]
  · intro i p
    rw [counts i p, counts' i p]

/-- A process gets a reference. -/
theorem ref (counted : Counted m)
    (own : (after.buf i).refcnt = (m.buf i).refcnt + 1)
    (others : ∀ j, j ≠ i → (after.buf j).refcnt = (m.buf j).refcnt)
    (more : uses after p i = uses m p i + 1)
    (counts : ∀ j q, j ≠ i ∨ q ≠ p → uses after q j = uses m q j) :
    Counted after := by
  obtain ⟨refs, cards', counts'⟩ := counted
  refine ⟨Function.update refs i (p ::ₘ refs i), ?_, ?_⟩
  · intro j
    by_cases same : j = i
    · subst same
      rw [own, cards' j, Function.update_self, Multiset.card_cons]
    · rw [others j same, cards' j, Function.update_of_ne same]
  · intro j q
    by_cases same : j = i
    · subst same
      rw [Function.update_self]
      by_cases self : q = p
      · subst self
        rw [Multiset.count_cons_self, counts' j q, more]
      · rw [Multiset.count_cons_of_ne self, counts' j q,
          counts j q (.inr self)]
    · rw [Function.update_of_ne same, counts' j q, counts j q (.inl same)]

/-- A process gives up a reference. -/
theorem unref (counted : Counted m)
    (own : (after.buf i).refcnt = (m.buf i).refcnt - 1)
    (others : ∀ j, j ≠ i → (after.buf j).refcnt = (m.buf j).refcnt)
    (less : uses m p i = uses after p i + 1)
    (counts : ∀ j q, j ≠ i ∨ q ≠ p → uses after q j = uses m q j) :
    Counted after := by
  obtain ⟨refs, cards', counts'⟩ := counted
  have member : p ∈ refs i := by
    apply Multiset.count_pos.mp
    rw [counts' i p]
    omega
  refine ⟨Function.update refs i ((refs i).erase p), ?_, ?_⟩
  · intro j
    by_cases same : j = i
    · subst same
      rw [own, cards' j, Function.update_self,
        Multiset.card_erase_of_mem member]
      rfl
    · rw [others j same, cards' j, Function.update_of_ne same]
  · intro j q
    by_cases same : j = i
    · subst same
      rw [Function.update_self]
      by_cases self : q = p
      · subst self
        rw [Multiset.count_erase_self, counts' j q]
        omega
      · rw [Multiset.count_erase_of_ne self, counts' j q,
          counts j q (.inr self)]
    · rw [Function.update_of_ne same, counts' j q, counts j q (.inl same)]

end Counted

section References

variable {m after : Machine Process Data} {action : Action Process Data}
  {p : Process} {i : Fin nbuf} {buf : Buf Process Data} {control : Control}
  {held : List (Fin nbuf)}

theorem uses_of_ne (changes : Changes m p i buf control held after)
    {q : Process} (other : q ≠ p) (j : Fin nbuf) :
    uses after q j = uses m q j := by
  unfold uses
  rw [changes.held_of_ne other, changes.control_of_ne other]

theorem uses_self (changes : Changes m p i buf control held after)
    (j : Fin nbuf) :
    uses after p j =
      held.count j + if control.target = some j then 1 else 0 := by
  unfold uses
  rw [changes.held_self, changes.control_self]

/-- A step that keeps the references. -/
theorem Counted.keep (counted : Counted m)
    (changes : Changes m p i buf control held after)
    (refcnt : buf.refcnt = (m.buf i).refcnt)
    (counts : ∀ j, (held.count j + if control.target = some j then 1 else 0) =
      uses m p j) : Counted after := by
  apply counted.same
  · intro j
    by_cases same : j = i
    · rw [same, changes.buf_self, refcnt]
    · rw [changes.buf_of_ne same]
  · intro j q
    by_cases self : q = p
    · rw [self, uses_self changes, counts j]
    · exact uses_of_ne changes self j

/-- A process that gets into the list of those that refer to a buffer. -/
theorem Counted.enter (counted : Counted m)
    (changes : Changes m p i buf control (m.held p) after)
    (idle : m.control p = .idle) (target : control.target = some i)
    (refcnt : buf.refcnt = (m.buf i).refcnt + 1) : Counted after := by
  refine counted.ref (p := p) (i := i) ?_ ?_ ?_ ?_
  · rw [changes.buf_self, refcnt]
  · intro j other
    rw [changes.buf_of_ne other]
  · rw [uses_self changes]
    simp [uses, idle, target]
  · intro j q apart
    by_cases self : q = p
    · have different : i ≠ j := by
        rcases apart with other | other
        · exact other.symm
        · exact absurd self other
      rw [self, uses_self changes]
      simp [uses, idle, target, different]
    · exact uses_of_ne changes self j

theorem Effect.counted (effect : Effect m after action)
    (locked : ∀ p i, (m.buf i).lock = some p → m.control p = .idle →
      i ∈ m.held p)
    (counted : Counted m) : Counted after := by
  cases effect with
  | hit idle dev same changes disk =>
      exact counted.enter changes idle rfl rfl
  | recycle idle missing unreferenced clean changes disk =>
      exact counted.enter changes idle rfl (by rw [unreferenced])
  | acquiresleep place free changes disk =>
      refine counted.keep changes rfl ?_
      intro j
      simp [uses, place, Control.target]
  | cached place valid changes disk =>
      refine counted.keep changes rfl ?_
      intro j
      simp [uses, place, Control.target, List.count_cons]
  | read place invalid clean changes disk =>
      refine counted.keep changes rfl ?_
      intro j
      simp [uses, place, Control.target, List.count_cons]
  | bwrite idle member changes disk =>
      refine counted.keep changes rfl ?_
      intro j
      simp [uses, idle]
  | logWrite idle member changes disk =>
      refine counted.keep changes rfl ?_
      intro j
      simp [uses, idle]
  | @brelse p i idle holder changes disk =>
      refine counted.keep changes rfl ?_
      intro j
      have member := locked p i holder idle
      by_cases same : i = j
      · subst same
        have positive : 0 < (m.held p).count i := List.count_pos_iff.mpr member
        simp only [uses, idle, Control.target, List.count_erase_self]
        simp
        omega
      · simp [uses, idle, Control.target, same, List.count_erase_of_ne
          (Ne.symm same)]
  | @unref p i place changes disk =>
      refine counted.unref (p := p) (i := i) ?_ ?_ ?_ ?_
      · rw [changes.buf_self]
      · intro j other
        rw [changes.buf_of_ne other]
      · rw [uses_self changes]
        simp [uses, place, Control.target]
      · intro j q apart
        by_cases self : q = p
        · have different : i ≠ j := by
            rcases apart with other | other
            · exact other.symm
            · exact absurd self other
          rw [self, uses_self changes]
          simp [uses, place, Control.target, different]
        · exact uses_of_ne changes self j

end References

/-! ## Locks -/

/-- Who has the lock of a buffer is behind `bget` in `bread`, or has got the
buffer from `bread`. -/
structure Locked (m : Machine Process Data) : Prop where
  lock : ∀ p i, (m.buf i).lock = some p ↔
    i ∈ m.held p ∨ ∃ blockno, m.control p = .bread i blockno
  distinct : ∀ p, (m.held p).Nodup
  apart : ∀ p i blockno, m.control p = .bread i blockno → i ∉ m.held p

section Locks

variable {m after : Machine Process Data} {action : Action Process Data}
  {p : Process} {i : Fin nbuf} {buf : Buf Process Data} {control : Control}
  {held : List (Fin nbuf)}

omit [DecidableEq Process] in
theorem Locked.held_of_idle (locked : Locked m)
    (holder : (m.buf i).lock = some p) (idle : m.control p = .idle) :
    i ∈ m.held p := by
  rcases (locked.lock p i).mp holder with member | ⟨blockno, place⟩
  · exact member
  · rw [idle] at place
    cases place

theorem Locked.change (locked : Locked m)
    (changes : Changes m p i buf control held after)
    (own : buf.lock = some p ↔
      i ∈ held ∨ ∃ blockno, control = .bread i blockno)
    (others : ∀ q, q ≠ p → (buf.lock = some q ↔ (m.buf i).lock = some q))
    (elsewhere : ∀ j, j ≠ i →
      ((j ∈ held ∨ ∃ blockno, control = .bread j blockno) ↔
        j ∈ m.held p ∨ ∃ blockno, m.control p = .bread j blockno))
    (distinct : held.Nodup)
    (apart : ∀ j blockno, control = .bread j blockno → j ∉ held) :
    Locked after := by
  refine ⟨?_, ?_, ?_⟩
  · intro q j
    by_cases self : q = p
    · subst self
      rw [changes.held_self, changes.control_self]
      by_cases same : j = i
      · rw [same, changes.buf_self]
        exact own
      · rw [changes.buf_of_ne same, elsewhere j same]
        exact locked.lock q j
    · rw [changes.held_of_ne self, changes.control_of_ne self,
        ← locked.lock q j]
      by_cases same : j = i
      · rw [same, changes.buf_self]
        exact others q self
      · rw [changes.buf_of_ne same]
  · intro q
    by_cases self : q = p
    · rw [self, changes.held_self]
      exact distinct
    · rw [changes.held_of_ne self]
      exact locked.distinct q
  · intro q j blockno place
    by_cases self : q = p
    · rw [self, changes.control_self] at place
      rw [self, changes.held_self]
      exact apart j blockno place
    · rw [changes.control_of_ne self] at place
      rw [changes.held_of_ne self]
      exact locked.apart q j blockno place

/-- A step that has nothing to do with locks. -/
theorem Locked.keep (locked : Locked m)
    (changes : Changes m p i buf control (m.held p) after)
    (lock : buf.lock = (m.buf i).lock)
    (outside : ∀ j blockno, control ≠ .bread j blockno)
    (before : ∀ j blockno, m.control p ≠ .bread j blockno) :
    Locked after := by
  refine locked.change changes ?_ ?_ ?_ (locked.distinct p) ?_
  · rw [lock, locked.lock p i]
    simp [outside, before]
  · intro q _
    rw [lock]
  · intro j _
    simp [outside, before]
  · intro j blockno place
    exact absurd place (outside j blockno)

/-- `bread` returns a buffer. -/
theorem Locked.gain {blockno : Nat} (locked : Locked m)
    (changes : Changes m p i buf .idle (i :: m.held p) after)
    (lock : buf.lock = (m.buf i).lock)
    (place : m.control p = .bread i blockno) : Locked after := by
  refine locked.change changes ?_ ?_ ?_ ?_ ?_
  · rw [lock, locked.lock p i]
    simp [place]
  · intro q _
    rw [lock]
  · intro j other
    simp [place, other, Ne.symm other]
  · apply List.nodup_cons.mpr
    exact ⟨locked.apart p i blockno place, locked.distinct p⟩
  · intro j blockno entered
    cases entered

theorem Effect.locked (effect : Effect m after action) (locked : Locked m) :
    Locked after := by
  cases effect with
  | hit idle dev same changes disk =>
      refine locked.keep changes rfl ?_ ?_
      · simp
      · simp [idle]
  | recycle idle missing unreferenced clean changes disk =>
      refine locked.keep changes rfl ?_ ?_
      · simp
      · simp [idle]
  | @acquiresleep p i blockno place free changes disk =>
      have outside : i ∉ m.held p := by
        intro member
        have holder := (locked.lock p i).mpr (.inl member)
        rw [free] at holder
        cases holder
      refine locked.change changes ?_ ?_ ?_ (locked.distinct p) ?_
      · simp
      · intro q other
        simp [free, other.symm]
      · intro j other
        simp [place, other.symm]
      · intro j blockno entered
        simp only [Control.bread.injEq] at entered
        rw [← entered.1]
        exact outside
  | cached place valid changes disk =>
      exact locked.gain changes rfl place
  | read place invalid clean changes disk =>
      exact locked.gain changes rfl place
  | bwrite idle member changes disk =>
      refine locked.keep changes rfl ?_ ?_
      · simp
      · simp [idle]
  | logWrite idle member changes disk =>
      refine locked.keep changes rfl ?_ ?_
      · simp
      · simp [idle]
  | @brelse p i idle holder changes disk =>
      have distinct := locked.distinct p
      refine locked.change changes ?_ ?_ ?_ (distinct.erase i) ?_
      · simp [distinct.mem_erase_iff]
      · intro q other
        simp [holder, other.symm]
      · intro j other
        simp [idle, distinct.mem_erase_iff, other]
      · intro j blockno entered
        cases entered
  | unref place changes disk =>
      refine locked.keep changes rfl ?_ ?_
      · simp
      · simp [place]

end Locks

end Xv6.Bio
