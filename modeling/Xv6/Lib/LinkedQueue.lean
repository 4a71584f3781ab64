import Mathlib.Data.List.Nodup
import Mathlib.Logic.Function.Basic

/-!
# Queues threaded through a link field

Nodes of an arbitrary type carry one nullable `next` link.  `Segment` says
which nodes are visited between two pointers; `LinkedQueue` adds the pointers
to the first and to the last node.  The rules below describe appending a
node, unlinking the head or an inner node, and splicing two queues, together
with the frame rule for writes to links of other nodes.
-/

namespace Xv6.Lib

universe u

variable {Node : Type u}

/-- Following `next` from `start` visits exactly `nodes` and arrives at
`stop`. -/
def Segment (next : Node → Option Node) :
    Option Node → List Node → Option Node → Prop
  | start, [], stop => start = stop
  | start, node :: nodes, stop =>
      start = some node ∧ Segment next (next node) nodes stop

section Segments

variable {next : Node → Option Node} {start stop : Option Node}
  {nodes left right : List Node}

@[simp] theorem segment_nil :
    Segment next start [] stop ↔ start = stop := Iff.rfl

@[simp] theorem segment_cons {node : Node} :
    Segment next start (node :: nodes) stop ↔
      start = some node ∧ Segment next (next node) nodes stop := Iff.rfl

theorem segment_append :
    Segment next start (left ++ right) stop ↔
      ∃ middle, Segment next start left middle ∧
        Segment next middle right stop := by
  induction left generalizing start with
  | nil => simp
  | cons node left induction => simp [induction, and_assoc]

/-- Only the links of the visited nodes matter. -/
theorem Segment.congr {changed : Node → Option Node}
    (agree : ∀ node ∈ nodes, changed node = next node)
    (segment : Segment next start nodes stop) :
    Segment changed start nodes stop := by
  induction nodes generalizing start with
  | nil => exact segment
  | cons node nodes induction =>
      obtain ⟨startEq, rest⟩ := segment
      refine ⟨startEq, ?_⟩
      rw [agree node (by simp)]
      exact induction (fun other member => agree other (by simp [member])) rest

/-- The nodes met by following `next`, at most `fuel` of them. -/
def walk (next : Node → Option Node) : Nat → Option Node → List Node
  | 0, _ => []
  | _ + 1, none => []
  | fuel + 1, some node => node :: walk next fuel (next node)

theorem Segment.walk_eq {fuel : Nat}
    (segment : Segment next start nodes none)
    (enough : nodes.length ≤ fuel) : walk next fuel start = nodes := by
  induction nodes generalizing start fuel with
  | nil =>
      cases segment
      cases fuel with
      | zero => rfl
      | succ fuel => rfl
  | cons node nodes induction =>
      obtain ⟨rfl, rest⟩ := segment
      cases fuel with
      | zero => simp at enough
      | succ fuel =>
          rw [walk, induction rest (by simpa using enough)]

theorem Segment.start_eq_head (segment : Segment next start nodes none) :
    start = nodes.head? := by
  cases nodes with
  | nil => exact segment
  | cons node nodes => exact segment.1

variable [DecidableEq Node]

/-- Writing the link of a node that is not visited changes nothing. -/
theorem Segment.update_of_not_mem {node : Node} {link : Option Node}
    (absent : node ∉ nodes) (segment : Segment next start nodes stop) :
    Segment (Function.update next node link) start nodes stop := by
  apply segment.congr
  intro other member
  have different : other ≠ node := fun same => absent (same ▸ member)
  simp [different]

/-- Redirecting the link of the last node moves the end of the path. -/
theorem Segment.redirect_last {node : Node} {link : Option Node}
    (absent : node ∉ nodes)
    (segment : Segment next start (nodes ++ [node]) stop) :
    Segment (Function.update next node link) start (nodes ++ [node]) link := by
  obtain ⟨middle, before, last⟩ := segment_append.mp segment
  refine segment_append.mpr ⟨middle, before.update_of_not_mem absent, ?_⟩
  simp [last.1]

end Segments

/-- `first` and `last` are the end pointers of a null-terminated queue that
holds `nodes`, in order and without repetition. -/
structure LinkedQueue (next : Node → Option Node)
    (first last : Option Node) (nodes : List Node) : Prop where
  chain : Segment next first nodes none
  nodup : nodes.Nodup
  last_eq : last = nodes.getLast?

namespace LinkedQueue

variable {next changed : Node → Option Node} {first last : Option Node}
  {nodes : List Node}

theorem nil : LinkedQueue next none none [] :=
  ⟨rfl, List.nodup_nil, rfl⟩

theorem first_eq (queue : LinkedQueue next first last nodes) :
    first = nodes.head? :=
  queue.chain.start_eq_head

theorem first_eq_none_iff (queue : LinkedQueue next first last nodes) :
    first = none ↔ nodes = [] := by
  rw [queue.first_eq, List.head?_eq_none_iff]

theorem last_eq_none_iff (queue : LinkedQueue next first last nodes) :
    last = none ↔ nodes = [] := by
  rw [queue.last_eq, List.getLast?_eq_none_iff]

/-- A queue with a last node ends in that node. -/
theorem eq_append_last {node : Node}
    (queue : LinkedQueue next first last nodes) (lastEq : last = some node) :
    ∃ front, nodes = front ++ [node] := by
  rw [queue.last_eq] at lastEq
  exact ⟨nodes.dropLast, (List.dropLast_append_getLast? node lastEq).symm⟩

theorem congr (agree : ∀ node ∈ nodes, changed node = next node)
    (queue : LinkedQueue next first last nodes) :
    LinkedQueue changed first last nodes :=
  ⟨queue.chain.congr agree, queue.nodup, queue.last_eq⟩

/-- A node with a null link is a queue of its own. -/
theorem singleton {node : Node} (ends : next node = none) :
    LinkedQueue next (some node) (some node) [node] :=
  ⟨⟨rfl, ends⟩, List.nodup_singleton node, rfl⟩

variable [DecidableEq Node]

/-- Frame rule: the link of a node outside the queue may be overwritten. -/
theorem update_of_not_mem {node : Node} {link : Option Node}
    (absent : node ∉ nodes) (queue : LinkedQueue next first last nodes) :
    LinkedQueue (Function.update next node link) first last nodes :=
  ⟨queue.chain.update_of_not_mem absent, queue.nodup, queue.last_eq⟩

/-- Linking the last node of a queue to the first node of another one
concatenates the two. -/
theorem splice {node : Node} {second last' : Option Node} {others : List Node}
    (queue : LinkedQueue next first (some node) nodes)
    (tail : LinkedQueue next second last' others) (nonempty : others ≠ [])
    (disjoint : nodes.Disjoint others) :
    LinkedQueue (Function.update next node second) first last'
      (nodes ++ others) := by
  obtain ⟨front, rfl⟩ := queue.eq_append_last rfl
  have absentFront : node ∉ front := by
    intro member
    exact (List.nodup_append.mp queue.nodup).2.2 node member node
      (by simp) rfl
  have absentTail : node ∉ others := fun member =>
    disjoint (by simp) member
  refine ⟨?_, ?_, ?_⟩
  · refine segment_append.mpr ⟨second, queue.chain.redirect_last absentFront, ?_⟩
    exact tail.chain.update_of_not_mem absentTail
  · exact queue.nodup.append tail.nodup disjoint
  · rw [List.getLast?_append_of_ne_nil _ nonempty]
    exact tail.last_eq

/-- Removing the head of a queue. -/
theorem unlink_head {node : Node}
    (queue : LinkedQueue next first last (node :: nodes)) :
    LinkedQueue next (next node)
      (if last = some node then none else last) nodes := by
  have nodup := List.nodup_cons.mp queue.nodup
  refine ⟨queue.chain.2, nodup.2, ?_⟩
  rw [queue.last_eq]
  cases nodes with
  | nil => simp
  | cons second rest =>
      have lastMember : (second :: rest).getLast (by simp) ∈ second :: rest :=
        List.getLast_mem (by simp)
      have different : (second :: rest).getLast (by simp) ≠ node := by
        intro same
        exact nodup.1 (same ▸ lastMember)
      simp only [List.getLast?_cons_cons, List.getLast?_eq_some_getLast
        (List.cons_ne_nil second rest), Option.some.injEq]
      rw [if_neg different]

/-- Removing an inner or the last node, given the node in front of it. -/
theorem unlink_after {front back : List Node} {previous node : Node}
    (queue : LinkedQueue next first last (front ++ previous :: node :: back)) :
    LinkedQueue (Function.update next previous (next node)) first
      (if last = some node then some previous else last)
      (front ++ previous :: back) := by
  obtain ⟨middle, before, middleEq, link, behind⟩ :=
    segment_append.mp queue.chain
  have nodup := List.nodup_append.mp queue.nodup
  have absentFront : previous ∉ front := fun member =>
    nodup.2.2 previous member previous (by simp) rfl
  have absentBack : previous ∉ back := fun member =>
    (List.nodup_cons.mp nodup.2.1).1 (by simp [member])
  have nodeAbsent : node ∉ back :=
    (List.nodup_cons.mp (List.nodup_cons.mp nodup.2.1).2).1
  refine ⟨?_, ?_, ?_⟩
  · refine segment_append.mpr
      ⟨middle, before.update_of_not_mem absentFront, middleEq, ?_⟩
    simpa using behind.update_of_not_mem absentBack
  · refine queue.nodup.sublist ?_
    exact ((List.sublist_cons_self node back).cons_cons previous).append_left front
  · rw [queue.last_eq]
    cases back with
    | nil => simp
    | cons second rest =>
        have lastMember :
            (second :: rest).getLast (by simp) ∈ second :: rest :=
          List.getLast_mem (by simp)
        have different : (second :: rest).getLast (by simp) ≠ node := by
          intro same
          exact nodeAbsent (same ▸ lastMember)
        simp only [List.getLast?_append_cons, List.getLast?_cons_cons,
          List.getLast?_eq_some_getLast (List.cons_ne_nil second rest),
          Option.some.injEq]
        rw [if_neg different]

end LinkedQueue

end Xv6.Lib
