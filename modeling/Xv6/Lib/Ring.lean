import Mathlib.Data.List.Nodup
import Mathlib.Logic.Function.Basic

/-!
# Circular doubly linked lists

Nodes of an arbitrary type carry a `next` and a `prev` link.  A ring goes from
its head through all other nodes, each once, and back to the head.  The rules
say what taking a node out and putting it behind the head do, and that a loop
along the links finds the first node that passes a test.
-/

namespace Xv6.Lib

universe u

variable {Node : Type u}

/-- Between `first` and `last` the links lead through `nodes`, and back. -/
def Path (next prev : Node → Node) : Node → List Node → Node → Prop
  | first, [], last => next first = last ∧ prev last = first
  | first, node :: nodes, last =>
      next first = node ∧ prev node = first ∧ Path next prev node nodes last

/-- The nodes behind `head`, in the order of `next`. -/
structure Ring (next prev : Node → Node) (head : Node) (order : List Node) :
    Prop where
  path : Path next prev head order head
  distinct : (head :: order).Nodup

section Paths

variable {next prev : Node → Node} {first last : Node} {nodes : List Node}

theorem path_append {node : Node} {right : List Node} :
    Path next prev first (nodes ++ node :: right) last ↔
      Path next prev first nodes node ∧ Path next prev node right last := by
  induction nodes generalizing first with
  | nil => simp [Path, and_assoc]
  | cons other nodes induction => simp [Path, induction, and_assoc]

theorem Path.reverse (path : Path next prev first nodes last) :
    Path prev next last nodes.reverse first := by
  induction nodes generalizing first with
  | nil => exact ⟨path.2, path.1⟩
  | cons node nodes induction =>
      obtain ⟨forth, back, rest⟩ := path
      rw [List.reverse_cons, path_append]
      exact ⟨induction rest, back, forth⟩

/-- Only the links of the nodes on the path matter. -/
theorem Path.congr {next' prev' : Node → Node}
    (forth : ∀ node ∈ first :: nodes, next' node = next node)
    (back : ∀ node ∈ nodes ++ [last], prev' node = prev node)
    (path : Path next prev first nodes last) :
    Path next' prev' first nodes last := by
  induction nodes generalizing first with
  | nil =>
      refine ⟨?_, ?_⟩
      · rw [forth first (by simp)]
        exact path.1
      · rw [back last (by simp)]
        exact path.2
  | cons node nodes induction =>
      obtain ⟨next_eq, prev_eq, rest⟩ := path
      refine ⟨?_, ?_, ?_⟩
      · rw [forth first (by simp)]
        exact next_eq
      · rw [back node (by simp)]
        exact prev_eq
      · apply induction
        · intro other member
          exact forth other (List.mem_cons_of_mem _ member)
        · intro other member
          exact back other (List.mem_cons_of_mem _ member)
        · exact rest

/-- The link back from the end stays on the path. -/
theorem Path.prev_mem (path : Path next prev first nodes last) :
    prev last ∈ first :: nodes := by
  induction nodes generalizing first with
  | nil =>
      rw [path.2]
      exact List.mem_cons_self
  | cons node nodes induction =>
      exact List.mem_cons_of_mem _ (induction path.2.2)

/-- Let the last link of a path lead somewhere else. -/
theorem Path.redirect {next' prev' : Node → Node} {target : Node}
    (path : Path next prev first nodes last)
    (distinct : (first :: nodes).Nodup)
    (forth : ∀ node ∈ first :: nodes, node ≠ prev last →
      next' node = next node)
    (back : ∀ node ∈ nodes, prev' node = prev node)
    (toTarget : next' (prev last) = target)
    (fromTarget : prev' target = prev last) :
    Path next' prev' first nodes target := by
  induction nodes generalizing first with
  | nil =>
      rw [path.2] at toTarget fromTarget
      exact ⟨toTarget, fromTarget⟩
  | cons node nodes induction =>
      obtain ⟨next_eq, prev_eq, rest⟩ := path
      have inner : first ≠ prev last := by
        intro same
        have member := rest.prev_mem
        rw [← same] at member
        exact (List.nodup_cons.mp distinct).1 member
      refine ⟨?_, ?_, ?_⟩
      · rw [forth first (by simp) inner]
        exact next_eq
      · rw [back node (by simp)]
        exact prev_eq
      · apply induction rest distinct.of_cons
        · intro other member
          exact forth other (List.mem_cons_of_mem _ member)
        · intro other member
          exact back other (List.mem_cons_of_mem _ member)

end Paths

/-- Follow the links up to the first node that passes a test, or to the head.
Nothing is returned if the loop does not end. -/
def search [DecidableEq Node] (next : Node → Node) (head : Node)
    (test : Node → Bool) : Nat → Node → Option (Option Node)
  | 0, _ => none
  | fuel + 1, node =>
      if node = head then some none
      else if test node then some (some node)
      else search next head test fuel (next node)

namespace Ring

variable {next prev : Node → Node} {head node : Node} {order : List Node}

/-- Read backwards, a ring is a ring. -/
theorem reverse (ring : Ring next prev head order) :
    Ring prev next head order.reverse := by
  refine ⟨ring.path.reverse, ?_⟩
  have distinct := List.nodup_cons.mp ring.distinct
  apply List.nodup_cons.mpr
  exact ⟨by simpa using distinct.1, List.nodup_reverse.mpr distinct.2⟩

theorem head_notMem (ring : Ring next prev head order) : head ∉ order :=
  (List.nodup_cons.mp ring.distinct).1

variable [DecidableEq Node]

private theorem search_path {test : Node → Bool} {first : Node}
    {nodes : List Node} {fuel : Nat} (path : Path next prev first nodes head)
    (away : head ∉ nodes) (enough : nodes.length < fuel) :
    search next head test fuel (next first) = some (nodes.find? test) := by
  induction nodes generalizing first fuel with
  | nil =>
      cases fuel with
      | zero => cases enough
      | succ fuel => simp [search, path.1]
  | cons node nodes induction =>
      cases fuel with
      | zero => cases enough
      | succ fuel =>
          obtain ⟨next_eq, _, rest⟩ := path
          have different : node ≠ head := by
            intro same
            exact away (by simp [same])
          have further := induction rest
            (fun member => away (List.mem_cons_of_mem _ member))
            (Nat.lt_of_succ_lt_succ enough)
          rw [next_eq, search, if_neg different, List.find?_cons]
          cases test node with
          | true => rfl
          | false => exact further

/-- A loop over the whole ring ends with the first node that passes. -/
theorem search_eq {test : Node → Bool} {fuel : Nat}
    (ring : Ring next prev head order) (enough : order.length < fuel) :
    search next head test fuel (next head) = some (order.find? test) :=
  search_path ring.path ring.head_notMem enough

/-- Take a node out: `node->next->prev = node->prev` and
`node->prev->next = node->next`. -/
theorem unlink (ring : Ring next prev head order) (member : node ∈ order) :
    Ring (Function.update next (prev node) (next node))
      (Function.update prev (next node) (prev node)) head
      (order.erase node) := by
  obtain ⟨left, right, rfl⟩ := List.append_of_mem member
  have distinct := ring.distinct
  obtain ⟨before, behind⟩ := path_append.mp ring.path
  have simpler : (left ++ node :: right).erase node = left ++ right := by
    have absent : node ∉ left := by
      intro twice
      have nodup := (List.nodup_cons.mp distinct).2
      exact (List.nodup_append.mp nodup).2.2 node twice node (by simp) rfl
    rw [List.erase_append_right _ absent, List.erase_cons_head]
  rw [simpler]
  have sublist : List.Sublist (head :: (left ++ right))
      (head :: (left ++ node :: right)) :=
    ((List.sublist_cons_self node right).append_left left).cons_cons head
  refine ⟨?_, distinct.sublist sublist⟩
  have sublistLeft : List.Sublist (head :: left)
      (head :: (left ++ node :: right)) :=
    (List.sublist_append_left left _).cons_cons head
  have previous := before.prev_mem
  cases right with
  | nil =>
      have next_eq : next node = head := behind.1
      rw [List.append_nil]
      apply before.redirect (distinct.sublist sublistLeft)
      · intro other _ different
        exact Function.update_of_ne different _ _
      · intro other inside
        apply Function.update_of_ne
        intro same
        rw [next_eq] at same
        rw [same] at inside
        exact ring.head_notMem (by simp [inside])
      · rw [Function.update_self, next_eq]
      · rw [next_eq, Function.update_self]
  | cons second right =>
      obtain ⟨next_eq, _, rest⟩ := behind
      have apart : ∀ other ∈ head :: left, other ∉ second :: right := by
        have nodup : (head :: left ++ node :: second :: right).Nodup :=
          distinct
        intro other inside twice
        exact (List.nodup_append.mp nodup).2.2 other inside other
          (List.mem_cons_of_mem _ twice) rfl
      rw [path_append]
      constructor
      · apply before.redirect (distinct.sublist sublistLeft)
        · intro other _ different
          exact Function.update_of_ne different _ _
        · intro other inside
          apply Function.update_of_ne
          intro same
          rw [next_eq] at same
          exact apart other (List.mem_cons_of_mem _ inside) (by simp [same])
        · rw [Function.update_self, next_eq]
        · rw [next_eq, Function.update_self]
      · apply rest.congr
        · intro other inside
          apply Function.update_of_ne
          intro same
          rw [same] at inside
          exact apart _ previous inside
        · intro other inside
          apply Function.update_of_ne
          intro same
          rw [next_eq] at same
          rw [same] at inside
          rcases List.mem_append.mp inside with inner | last
          · have nodup : (head :: left ++ node :: second :: right).Nodup :=
              distinct
            have tail := (List.nodup_append.mp nodup).2.1.of_cons
            exact (List.nodup_cons.mp tail).1 inner
          · rw [List.mem_singleton] at last
            exact apart head (by simp) (by simp [last])

/-- Put a node behind the head. -/
theorem insert (ring : Ring next prev head order)
    (new : node ∉ head :: order) :
    Ring
      (Function.update (Function.update next node (next head)) head node)
      (Function.update (Function.update prev node head) (next head) node)
      head (node :: order) := by
  have notHead : node ≠ head := fun same => new (by simp [same])
  have away := ring.head_notMem
  refine ⟨⟨Function.update_self .., ?_, ?_⟩, ?_⟩
  · have different : node ≠ next head := by
      intro same
      rw [same] at new
      cases order with
      | nil => exact new (by simp [ring.path.1])
      | cons first order => exact new (by simp [ring.path.1])
    rw [Function.update_of_ne different, Function.update_self]
  · cases order with
    | nil =>
        refine ⟨?_, ?_⟩
        · rw [Function.update_of_ne notHead, Function.update_self]
          exact ring.path.1
        · rw [ring.path.1, Function.update_self]
    | cons first order =>
        obtain ⟨next_eq, prev_eq, rest⟩ := ring.path
        refine ⟨?_, ?_, ?_⟩
        · rw [Function.update_of_ne notHead, Function.update_self, next_eq]
        · rw [next_eq, Function.update_self]
        · apply rest.congr
          · intro other inside
            have notHead' : other ≠ head := by
              intro same
              rw [same] at inside
              exact away inside
            have notNode : other ≠ node := by
              intro same
              rw [same] at inside
              exact new (List.mem_cons_of_mem _ inside)
            rw [Function.update_of_ne notHead', Function.update_of_ne notNode]
          · intro other inside
            have notFirst : other ≠ next head := by
              intro same
              rw [same, next_eq] at inside
              rcases List.mem_append.mp inside with inner | last
              · have tail := ring.distinct.of_cons
                exact (List.nodup_cons.mp tail).1 inner
              · rw [List.mem_singleton] at last
                exact away (by simp [last])
            have notNode : other ≠ node := by
              intro same
              rw [same] at inside
              rcases List.mem_append.mp inside with inner | last
              · exact new (by simp [inner])
              · rw [List.mem_singleton] at last
                exact notHead last
            rw [Function.update_of_ne notFirst, Function.update_of_ne notNode]
  · apply List.nodup_cons.mpr
    constructor
    · simp [away, notHead.symm]
    · apply List.nodup_cons.mpr
      exact ⟨fun member => new (List.mem_cons_of_mem _ member),
        ring.distinct.of_cons⟩

omit [DecidableEq Node] in
theorem next_ne (ring : Ring next prev head order) (member : node ∈ order) :
    next node ≠ node := by
  obtain ⟨left, right, rfl⟩ := List.append_of_mem member
  obtain ⟨_, behind⟩ := path_append.mp ring.path
  have nodup := (List.nodup_cons.mp ring.distinct).2
  have tail := (List.nodup_append.mp nodup).2.1
  cases right with
  | nil =>
      intro same
      have closed : next node = head := behind.1
      exact ring.head_notMem (by simp [← closed, same])
  | cons second right =>
      intro same
      have next_eq : next node = second := behind.1
      exact (List.nodup_cons.mp tail).1 (by simp [← next_eq, same])

/-- Moving a node to the front loses none. -/
theorem mem_cons_erase {other : Node}
    (member : other ∈ order) : other ∈ node :: order.erase node := by
  by_cases same : other = node
  · simp [same]
  · exact List.mem_cons_of_mem _ ((List.mem_erase_of_ne same).mpr member)

/-- Take a node out and put it behind the head. -/
theorem moveToFront (ring : Ring next prev head order)
    (member : node ∈ order) {next' prev' : Node → Node}
    (unlinkPrev : prev' = Function.update prev (next node) (prev node))
    (unlinkNext : next' = Function.update next (prev' node) (next node)) :
    Ring
      (Function.update (Function.update next' node (next' head)) head node)
      (Function.update (Function.update prev' node head)
        (Function.update next' node (next' head) head) node)
      head (node :: order.erase node) := by
  have notHead : head ≠ node := by
    intro same
    rw [← same] at member
    exact ring.head_notMem member
  have self : prev' node = prev node := by
    rw [unlinkPrev, Function.update_of_ne (ring.next_ne member).symm]
  rw [self] at unlinkNext
  have without := ring.unlink member
  rw [← unlinkPrev, ← unlinkNext] at without
  have fresh : node ∉ head :: order.erase node := by
    have distinct := (List.nodup_cons.mp ring.distinct).2
    simp [notHead.symm, distinct.mem_erase_iff]
  have inserted := without.insert fresh
  rw [Function.update_of_ne notHead]
  exact inserted

end Ring

end Xv6.Lib
