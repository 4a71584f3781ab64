import Xv6.Bio.Cache
import Mathlib.Data.Fintype.Option

/-!
# The list of buffers, and what a step of the cache can do

The links are a ring of the head and all buffers in every state, so the loops
of `bget` end and look at every buffer.  `Effect` lists the steps for such
states.
-/

namespace Xv6.Bio

open Lib

variable {Process Data : Type}

/-! ## The list -/

/-- The links form a circular list of the head and every buffer, each once. -/
def Linked (next prev : Node → Node) : Prop :=
  ∃ order, Ring next prev none order ∧ ∀ i : Fin nbuf, some i ∈ order

theorem ring_length {next prev : Node → Node} {order : List Node}
    (ring : Ring next prev none order) : order.length < nbuf + 1 := by
  have bound : (none :: order).length ≤ Fintype.card Node :=
    ring.distinct.length_le_card
  rw [Fintype.card_option, Fintype.card_fin, List.length_cons] at bound
  exact bound

/-- A loop over the buffers, forwards. -/
theorem Linked.search {next prev : Node → Node} (linked : Linked next prev)
    (test : Node → Bool) (nowhere : test none = false) :
    (∃ i, Lib.search next none test (nbuf + 1) (next none) =
        some (some (some i)) ∧ test (some i) = true) ∨
      Lib.search next none test (nbuf + 1) (next none) = some none ∧
        ∀ i, test (some i) = false := by
  obtain ⟨order, ring, all⟩ := linked
  rw [ring.search_eq (ring_length ring)]
  cases found : order.find? test with
  | none =>
      right
      refine ⟨rfl, ?_⟩
      intro i
      have fails := List.find?_eq_none.mp found (some i) (all i)
      simpa using fails
  | some node =>
      left
      have passes := List.find?_some found
      cases node with
      | none => simp [nowhere] at passes
      | some i => exact ⟨i, rfl, passes⟩

theorem Linked.reverse {next prev : Node → Node}
    (linked : Linked next prev) : Linked prev next := by
  obtain ⟨order, ring, all⟩ := linked
  refine ⟨order.reverse, ring.reverse, ?_⟩
  intro i
  simpa using all i

theorem Linked.moveToFront {m : Machine Process Data} (i : Fin nbuf)
    (linked : Linked m.next m.prev) :
    Linked (m.moveToFront i).next (m.moveToFront i).prev := by
  obtain ⟨order, ring, all⟩ := linked
  have moved := ring.moveToFront (all i) rfl rfl
  exact ⟨_, moved, fun j => Ring.mem_cons_erase (all j)⟩

/-- The loop of `binit` puts more buffers into a ring. -/
private theorem initBuf_fold {bufs : List (Fin nbuf)}
    {links : (Node → Node) × (Node → Node)} {order : List Node}
    (ring : Ring links.1 links.2 none order) (distinct : bufs.Nodup)
    (fresh : ∀ i ∈ bufs, some i ∉ order) :
    ∃ order', Ring (bufs.foldl Machine.initBuf links).1
        (bufs.foldl Machine.initBuf links).2 none order' ∧
      ∀ i, some i ∈ order ∨ i ∈ bufs → some i ∈ order' := by
  induction bufs generalizing links order with
  | nil => exact ⟨order, ring, fun i member => by simpa using member⟩
  | cons buf bufs induction =>
      have new : some buf ∉ none :: order := by
        simpa using fresh buf (by simp)
      have inserted : Ring (Machine.initBuf links buf).1
          (Machine.initBuf links buf).2 none (some buf :: order) := by
        simpa [Machine.initBuf] using ring.insert new
      have later : ∀ i ∈ bufs, some i ∉ some buf :: order := by
        intro i member
        have different : i ≠ buf := by
          intro same
          rw [same] at member
          exact (List.nodup_cons.mp distinct).1 member
        have old := fresh i (List.mem_cons_of_mem _ member)
        simp [different, old]
      obtain ⟨order', ring', all⟩ :=
        induction inserted distinct.of_cons later
      refine ⟨order', ring', ?_⟩
      intro i member
      apply all
      rcases member with old | new
      · exact .inl (List.mem_cons_of_mem _ old)
      · rcases List.mem_cons.mp new with rfl | later
        · exact .inl (by simp)
        · exact .inr later

/-- `binit` links all buffers. -/
theorem linked_binit : Linked Machine.binit.1 Machine.binit.2 := by
  have start : Ring (fun _ : Node => none) (fun _ => none) none [] :=
    ⟨⟨rfl, rfl⟩, by simp⟩
  have links : Ring (Prod.fst (fun _ : Node => (none : Node),
      fun _ : Node => (none : Node))) _ none [] := start
  obtain ⟨order, ring, all⟩ := initBuf_fold links
    (List.nodup_finRange nbuf) (by simp)
  exact ⟨order, ring, fun i => all i (.inr (List.mem_finRange i))⟩

/-! ## The steps -/

variable [DecidableEq Process]

/-- One buffer and one process have changed. -/
structure Changes (m : Machine Process Data) (p : Process) (i : Fin nbuf)
    (buf : Buf Process Data) (control : Control) (held : List (Fin nbuf))
    (after : Machine Process Data) : Prop where
  buf : after.buf = Function.update m.buf i buf
  control : after.control = Function.update m.control p control
  held : after.held = Function.update m.held p held

namespace Changes

variable {m after : Machine Process Data} {p q : Process} {i j : Fin nbuf}
  {buf : Buf Process Data} {control : Control} {held : List (Fin nbuf)}

theorem buf_self (changes : Changes m p i buf control held after) :
    after.buf i = buf := by
  rw [changes.buf, Function.update_self]

theorem buf_of_ne (changes : Changes m p i buf control held after)
    (other : j ≠ i) : after.buf j = m.buf j := by
  rw [changes.buf, Function.update_of_ne other]

theorem control_self (changes : Changes m p i buf control held after) :
    after.control p = control := by
  rw [changes.control, Function.update_self]

theorem control_of_ne (changes : Changes m p i buf control held after)
    (other : q ≠ p) : after.control q = m.control q := by
  rw [changes.control, Function.update_of_ne other]

theorem held_self (changes : Changes m p i buf control held after) :
    after.held p = held := by
  rw [changes.held, Function.update_self]

theorem held_of_ne (changes : Changes m p i buf control held after)
    (other : q ≠ p) : after.held q = m.held q := by
  rw [changes.held, Function.update_of_ne other]

end Changes

/-- What a step makes of the machine. -/
inductive Effect (m after : Machine Process Data) :
    Action Process Data → Prop where
  | hit {p : Process} {blockno : Nat} {i : Fin nbuf}
      (idle : m.control p = .idle)
      (dev : (m.buf i).dev = rootdev)
      (same : (m.buf i).blockno = blockno)
      (changes : Changes m p i
        { m.buf i with refcnt := (m.buf i).refcnt + 1 }
        (.acquiresleep i blockno) (m.held p) after)
      (disk : after.disk = m.disk) :
      Effect m after (.bget p blockno)
  | recycle {p : Process} {blockno : Nat} {i : Fin nbuf}
      (idle : m.control p = .idle)
      (missing : ∀ j, (m.buf j).dev = rootdev → (m.buf j).blockno ≠ blockno)
      (unreferenced : (m.buf i).refcnt = 0)
      (clean : (m.buf i).dirty = false)
      (changes : Changes m p i
        { m.buf i with
          dev := rootdev, blockno := blockno, valid := false, dirty := false,
          refcnt := 1 }
        (.acquiresleep i blockno) (m.held p) after)
      (disk : after.disk = m.disk) :
      Effect m after (.bget p blockno)
  | acquiresleep {p : Process} {i : Fin nbuf} {blockno : Nat}
      (place : m.control p = .acquiresleep i blockno)
      (free : (m.buf i).lock = none)
      (changes : Changes m p i { m.buf i with lock := some p }
        (.bread i blockno) (m.held p) after)
      (disk : after.disk = m.disk) :
      Effect m after (.acquiresleep p)
  | cached {p : Process} {i : Fin nbuf} {blockno : Nat}
      (place : m.control p = .bread i blockno)
      (valid : (m.buf i).valid = true)
      (changes : Changes m p i (m.buf i) .idle (i :: m.held p) after)
      (disk : after.disk = m.disk) :
      Effect m after (.bread p)
  | read {p : Process} {i : Fin nbuf} {blockno : Nat}
      (place : m.control p = .bread i blockno)
      (invalid : (m.buf i).valid = false)
      (clean : (m.buf i).dirty = false)
      (changes : Changes m p i
        { m.buf i with data := m.disk (m.buf i).blockno, valid := true }
        .idle (i :: m.held p) after)
      (disk : after.disk = m.disk) :
      Effect m after (.bread p)
  | bwrite {p : Process} {i : Fin nbuf} {data : Data}
      (idle : m.control p = .idle)
      (member : i ∈ m.held p)
      (changes : Changes m p i
        { m.buf i with data := data, dirty := false, valid := true }
        .idle (m.held p) after)
      (disk : after.disk =
        Function.update m.disk (m.buf i).blockno data) :
      Effect m after (.bwrite p i data)
  | logWrite {p : Process} {i : Fin nbuf} {data : Data}
      (idle : m.control p = .idle)
      (member : i ∈ m.held p)
      (changes : Changes m p i { m.buf i with data := data, dirty := true }
        .idle (m.held p) after)
      (disk : after.disk = m.disk) :
      Effect m after (.logWrite p i data)
  | brelse {p : Process} {i : Fin nbuf}
      (idle : m.control p = .idle)
      (locked : (m.buf i).lock = some p)
      (changes : Changes m p i { m.buf i with lock := none } (.brelse i)
        ((m.held p).erase i) after)
      (disk : after.disk = m.disk) :
      Effect m after (.brelse p i)
  | unref {p : Process} {i : Fin nbuf}
      (place : m.control p = .brelse i)
      (changes : Changes m p i
        { m.buf i with refcnt := (m.buf i).refcnt - 1 } .idle (m.held p) after)
      (disk : after.disk = m.disk) :
      Effect m after (.unref p)

section Inversion

variable {m after : Machine Process Data} {p : Process} {i : Fin nbuf}
  {data : Data}

private theorem same_held : m.held = Function.update m.held p (m.held p) :=
  (Function.update_eq_self p m.held).symm

private theorem same_control {control : Control}
    (place : m.control p = control) :
    m.control = Function.update m.control p control := by
  rw [← place, Function.update_eq_self]

private theorem bget_effect {blockno : Nat}
    (linked : Linked m.next m.prev)
    (success : m.bget p rootdev blockno = .ok after)
    (idle : m.control p = .idle) :
    Effect m after (.bget p blockno) ∧ Linked after.next after.prev := by
  unfold Machine.bget at success
  rcases linked.search (m.caches rootdev blockno) rfl with
    ⟨i, found, passes⟩ | ⟨missing, fails⟩
  · rw [found] at success
    cases success
    simp only [Machine.caches, decide_eq_true_eq] at passes
    exact ⟨.hit idle passes.1 passes.2 ⟨rfl, rfl, same_held⟩ rfl, linked⟩
  · rw [missing] at success
    rcases linked.reverse.search m.unused rfl with
      ⟨i, found, passes⟩ | ⟨full, _⟩
    · simp only [found] at success
      cases success
      simp only [Machine.unused, decide_eq_true_eq] at passes
      refine ⟨.recycle idle ?_ passes.1 passes.2 ⟨rfl, rfl, same_held⟩ rfl,
        linked⟩
      intro j dev same
      have absent := fails j
      simp [Machine.caches, dev, same] at absent
    · simp only [full] at success
      cases success

/-- `iderw` writes what is dirty and reads everything else. -/
theorem iderw_eq (success : m.iderw p i = .ok after) :
    (m.buf i).dirty = true ∧
        after = { m.setBuf i { m.buf i with dirty := false, valid := true } with
          disk := Function.update m.disk (m.buf i).blockno (m.buf i).data } ∨
      (m.buf i).dirty = false ∧
        after = m.setBuf i { m.buf i with
          data := m.disk (m.buf i).blockno, valid := true } := by
  unfold Machine.iderw at success
  simp only at success
  split at success
  · cases success
  split at success
  · cases success
  split at success
  · cases success
  split at success
  · cases success
  split at success
  · rename_i dirty
    cases success
    exact .inl ⟨dirty, rfl⟩
  · rename_i clean
    cases success
    exact .inr ⟨by simpa using clean, rfl⟩

private theorem bread_effect {blockno : Nat}
    (linked : Linked m.next m.prev)
    (valid : (m.buf i).dirty = true → (m.buf i).valid = true)
    (success : m.bread p i = .ok after)
    (place : m.control p = .bread i blockno) :
    Effect m after (.bread p) ∧ Linked after.next after.prev := by
  obtain ⟨middle, first, rest⟩ := ok_of_bind success
  cases rest
  split at first
  · rename_i cached
    cases first
    have same : m.buf = Function.update m.buf i (m.buf i) :=
      (Function.update_eq_self i m.buf).symm
    exact ⟨.cached place cached ⟨same, rfl, rfl⟩ rfl, linked⟩
  · rename_i invalid
    rcases iderw_eq first with ⟨dirty, _⟩ | ⟨clean, rfl⟩
    · exact absurd (valid dirty) invalid
    · exact ⟨.read place (by simpa using invalid) clean ⟨rfl, rfl, rfl⟩ rfl,
        linked⟩

private theorem bwrite_effect (linked : Linked m.next m.prev)
    (success : m.bwrite p i data = .ok after)
    (idle : m.control p = .idle) (member : i ∈ m.held p) :
    Effect m after (.bwrite p i data) ∧ Linked after.next after.prev := by
  unfold Machine.bwrite at success
  split at success
  · cases success
  · have written := iderw_eq success
    simp only [Machine.setBuf, Function.update_self, Function.update_idem,
      true_and, Bool.true_eq_false, false_and, or_false] at written
    rw [written]
    exact ⟨.bwrite idle member ⟨rfl, same_control idle, same_held⟩ rfl,
      linked⟩

private theorem unref_effect (linked : Linked m.next m.prev)
    (place : m.control p = .brelse i) :
    Effect m (m.unref p i) (.unref p) ∧
      Linked (m.unref p i).next (m.unref p i).prev := by
  unfold Machine.unref
  simp only
  split
  · refine ⟨.unref place ⟨rfl, rfl, same_held⟩ rfl, ?_⟩
    exact Linked.moveToFront i linked
  · exact ⟨.unref place ⟨rfl, rfl, same_held⟩ rfl, linked⟩

/-- Every step is one of the effects, as long as the buffers are in a list
and what is dirty is valid. -/
theorem step_effect {action : Action Process Data}
    (linked : Linked m.next m.prev)
    (valid : ∀ i, (m.buf i).dirty = true → (m.buf i).valid = true)
    (taken : (system Process Data).step m action after) :
    Effect m after action ∧ Linked after.next after.prev := by
  change m.fire action = some (.ok after) at taken
  cases action with
  | bget p blockno =>
      simp only [Machine.fire] at taken
      split at taken
      · rename_i idle
        exact bget_effect linked (Option.some.inj taken) idle
      · cases taken
  | acquiresleep p =>
      simp only [Machine.fire] at taken
      split at taken
      · rename_i i blockno place
        split at taken
        · rename_i free
          cases taken
          exact ⟨.acquiresleep place free ⟨rfl, rfl, same_held⟩ rfl, linked⟩
        · cases taken
      · cases taken
  | bread p =>
      simp only [Machine.fire] at taken
      split at taken
      · rename_i i blockno place
        exact bread_effect linked (valid i) (Option.some.inj taken) place
      · cases taken
  | bwrite p i data =>
      simp only [Machine.fire] at taken
      split at taken
      · rename_i ready
        exact bwrite_effect linked (Option.some.inj taken) ready.1 ready.2
      · cases taken
  | logWrite p i data =>
      simp only [Machine.fire] at taken
      split at taken
      · rename_i ready
        cases taken
        exact ⟨.logWrite ready.1 ready.2
          ⟨rfl, same_control ready.1, same_held⟩ rfl, linked⟩
      · cases taken
  | brelse p i =>
      simp only [Machine.fire, Machine.brelse] at taken
      split at taken
      · rename_i idle
        split at taken
        · cases taken
        · rename_i locked
          cases taken
          exact ⟨.brelse idle (by simpa using locked) ⟨rfl, rfl, rfl⟩ rfl,
            linked⟩
      · cases taken
  | unref p =>
      simp only [Machine.fire] at taken
      split at taken
      · rename_i i place
        cases taken
        exact unref_effect linked place
      · cases taken

end Inversion

end Xv6.Bio
