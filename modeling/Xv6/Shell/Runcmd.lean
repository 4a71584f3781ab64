import Xv6.Lib.Run
import Xv6.Shell.Grammar

/-!
# Running a command

`runcmd` of `sh.c` as the system calls that it makes.  `fork` makes a process
with a copy of the descriptors, and the processes make their calls in any
order; `wait` may return at any time.  `open`, `dup` and `pipe` take the
lowest free descriptors, and every call succeeds.

A process that runs a node of the tree has the descriptors 0, 1 and 2 and no
others.  Which files they are is decided by the nodes above.
-/

namespace Xv6.Shell

open Lib

/-! ## Descriptors -/

/-- Where a node is entered from the node above it. -/
inductive Side where
  | only
  | left
  | right
  deriving DecidableEq, Repr

/-- The way from the root of a command to a node. -/
abbrev Node := List Side

/-- What a descriptor refers to.  Files and pipes are told apart by the node
that opened them. -/
inductive Source where
  | initial (fd : Nat)
  | opened (node : Node) (file : Word) (mode : Mode)
  | pipeRead (node : Node)
  | pipeWrite (node : Node)
  deriving DecidableEq, Repr

/-- `NOFILE`. -/
def nofile : Nat := 16

/-- `p->ofile`. -/
abbrev Table := List (Option Source)

/-- `fdalloc`. -/
def fdalloc (source : Source) (table : Table) : Option (Nat × Table) :=
  (table.findIdx? Option.isNone).map fun fd =>
    (fd, table.set fd (some source))

/-- `sys_close`. -/
def closeFd (fd : Nat) (table : Table) : Table := table.set fd none

/-- `sys_dup`. -/
def dupFd (fd : Nat) (table : Table) : Option (Nat × Table) :=
  match table[fd]? with
  | some (some source) => fdalloc source table
  | _ => none

/-- `sys_pipe`. -/
def pipeFds (node : Node) (table : Table) : Option ((Nat × Nat) × Table) := do
  let (fd0, table) ← fdalloc (.pipeRead node) table
  let (fd1, table) ← fdalloc (.pipeWrite node) table
  pure ((fd0, fd1), table)

/-! ## The calls of `runcmd` -/

/-- A descriptor in the text of `runcmd`. -/
inductive Name where
  | number (fd : Nat)
  | p0
  | p1

/-- The value of a descriptor, for the array `p`. -/
def Name.value (p : Nat × Nat) : Name → Nat
  | .number fd => fd
  | .p0 => p.1
  | .p1 => p.2

/-- A call that a process makes.  The parameter of `fork` is what the child
does. -/
inductive Action where
  | runcmd (node : Node) (cmd : Tree)
  | exec (node : Node) (argv : List Word)
  | close (fd : Name)
  | openFile (node : Node) (file : Word) (mode : Mode)
  | dup (fd : Name)
  | pipe (node : Node)
  | fork (child : List Action)
  | wait
  | exit

/-- The calls of `runcmd`. -/
def runcmd (node : Node) : Tree → List Action
  | .exec [] => [.exit]
  | .exec (word :: argv) => [.exec node (word :: argv)]
  | .redir cmd file mode fd =>
      [.close (.number fd), .openFile node file mode,
        .runcmd (node ++ [.only]) cmd]
  | .list left right =>
      [.fork [.runcmd (node ++ [.left]) left], .wait,
        .runcmd (node ++ [.right]) right]
  | .pipe left right =>
      [.pipe node,
        .fork [.close (.number 1), .dup .p1, .close .p0, .close .p1,
          .runcmd (node ++ [.left]) left],
        .fork [.close (.number 0), .dup .p0, .close .p0, .close .p1,
          .runcmd (node ++ [.right]) right],
        .close .p0, .close .p1, .wait, .wait, .exit]
  | .back cmd => [.fork [.runcmd (node ++ [.only]) cmd], .exit]

/-- A process of the shell. -/
structure Process where
  table : Table
  p : Nat × Nat
  todo : List Action

/-- The next call of a process: what becomes of it, and its new child.  After
`exec` and `exit` there is no next call. -/
def Process.next (process : Process) : Option (Process × Option Process) :=
  match process.todo with
  | [] => none
  | action :: todo =>
      let rest : Process := { process with todo := todo }
      match action with
      | .runcmd node cmd =>
          some ({ process with todo := runcmd node cmd }, none)
      | .exec _ _ => none
      | .close fd =>
          some ({ rest with
            table := closeFd (fd.value process.p) process.table }, none)
      | .openFile node file mode =>
          (fdalloc (.opened node file mode) process.table).map
            fun (_, table) => ({ rest with table := table }, none)
      | .dup fd =>
          (dupFd (fd.value process.p) process.table).map
            fun (_, table) => ({ rest with table := table }, none)
      | .pipe node =>
          (pipeFds node process.table).map
            fun (p, table) => ({ rest with table := table, p := p }, none)
      | .fork child => some (rest, some { process with todo := child })
      | .wait => some (rest, none)
      | .exit => none

/-- Some process makes its next call. -/
def processes : System (List Process) Nat where
  step state i after := ∃ process last child,
    state[i]? = some process ∧ process.next = some (last, child) ∧
    after = state.set i last ++ child.toList

/-! ## What the nodes above decide -/

/-- The command below a node. -/
def Tree.child : Tree → Side → Option Tree
  | .redir cmd _ _ _, .only => some cmd
  | .back cmd, .only => some cmd
  | .pipe left _, .left => some left
  | .pipe _ right, .right => some right
  | .list left _, .left => some left
  | .list _ right, .right => some right
  | _, _ => none

/-- The command that a way leads to. -/
def Tree.at (root : Tree) : Node → Option Tree
  | [] => some root
  | side :: node => (root.child side).bind (·.at node)

/-- The descriptor that a node sets for the command on the given side. -/
def Tree.sets (node : Node) : Tree → Side → Option (Nat × Source)
  | .redir _ file mode fd, .only => some (fd, .opened node file mode)
  | .pipe _ _, .left => some (1, .pipeWrite node)
  | .pipe _ _, .right => some (0, .pipeRead node)
  | _, _ => none

/-- What the nodes on a way set, from the root on. -/
def settings (above : Node) (root : Tree) : Node → List (Nat × Source)
  | [] => []
  | side :: node =>
      match root.child side with
      | some cmd =>
          (root.sets above side).toList ++ settings (above ++ [side]) cmd node
      | none => []

/-- The last node on a way that sets a descriptor decides what it is. -/
def descriptor (root : Tree) (node : Node) (fd : Nat) : Source :=
  ((settings [] root node).reverse.lookup fd).getD (.initial fd)

/-- The descriptors with which a node is run. -/
def standard (root : Tree) (node : Node) : Table :=
  [some (descriptor root node 0), some (descriptor root node 1),
    some (descriptor root node 2)] ++ List.replicate (nofile - 3) none

variable {root cmd left right : Tree} {node : Node} {side : Side}

theorem Tree.at_append (there : root.at node = some cmd) (side : Side) :
    root.at (node ++ [side]) = cmd.child side := by
  induction node generalizing root with
  | nil =>
      cases there
      rw [List.nil_append, Tree.at]
      exact Option.bind_fun_some _
  | cons first node ih =>
      rw [Tree.at] at there
      obtain ⟨below, child, there⟩ := Option.bind_eq_some_iff.mp there
      rw [List.cons_append, Tree.at, child, Option.bind_some, ih there]

theorem settings_append (there : root.at node = some cmd) (above : Node)
    {below : Tree} (child : cmd.child side = some below) :
    settings above root (node ++ [side]) =
      settings above root node ++ (cmd.sets (above ++ node) side).toList := by
  induction node generalizing root above with
  | nil =>
      cases there
      rw [List.nil_append, settings, settings, child, List.append_nil]
      exact List.append_nil _
  | cons first node ih =>
      rw [Tree.at] at there
      obtain ⟨next, first, there⟩ := Option.bind_eq_some_iff.mp there
      rw [List.cons_append, settings, first, settings, first]
      dsimp only
      rw [ih there, List.append_assoc, List.append_assoc,
        List.singleton_append]

/-- The descriptors below a node. -/
theorem descriptor_append (there : root.at node = some cmd) {below : Tree}
    (child : cmd.child side = some below) (fd : Nat) :
    descriptor root (node ++ [side]) fd =
      ((cmd.sets node side).toList.lookup fd).getD
        (descriptor root node fd) := by
  unfold descriptor
  rw [settings_append there [] child, List.reverse_append, List.nil_append]
  cases cmd.sets node side with
  | none => rfl
  | some setting =>
      rw [Option.toList_some, List.reverse_singleton, List.singleton_append,
        List.lookup_cons, List.lookup_cons, List.lookup_nil]
      cases fd == setting.1 <;> rfl

/-! ## Processes of the shell -/

/-- Every redirection is one of the first three descriptors. -/
def Tree.Low : Tree → Prop
  | .exec _ => True
  | .redir cmd _ _ fd => fd < 3 ∧ cmd.Low
  | .pipe left right => left.Low ∧ right.Low
  | .list left right => left.Low ∧ right.Low
  | .back cmd => cmd.Low

/-- Exactly the descriptors 0, 1 and 2 are open. -/
def OnlyStandard (table : Table) : Prop :=
  ∃ a b c, table = [some a, some b, some c] ++ List.replicate (nofile - 3) none

/-- From these descriptors the calls come to every node with the descriptors
that belong to it. -/
def Safe (root : Tree) : List Action → Nat × Nat → Table → Prop
  | [], _, _ => True
  | .runcmd node cmd :: _, _, table =>
      root.at node = some cmd ∧ table = standard root node
  | .exec node argv :: _, _, table =>
      root.at node = some (.exec argv) ∧ table = standard root node
  | .close fd :: todo, p, table => Safe root todo p (closeFd (fd.value p) table)
  | .openFile node file mode :: todo, p, table =>
      ∃ fd after, fdalloc (.opened node file mode) table = some (fd, after) ∧
        Safe root todo p after
  | .dup fd :: todo, p, table =>
      ∃ new after, dupFd (fd.value p) table = some (new, after) ∧
        Safe root todo p after
  | .pipe node :: todo, _, table =>
      ∃ p after, pipeFds node table = some (p, after) ∧ Safe root todo p after
  | .fork child :: todo, p, table =>
      Safe root child p table ∧ Safe root todo p table
  | .wait :: todo, p, table => OnlyStandard table ∧ Safe root todo p table
  | .exit :: _, _, _ => True

theorem Tree.Low.child (low : cmd.Low) {below : Tree}
    (child : cmd.child side = some below) : below.Low := by
  cases cmd <;> cases side <;> cases child
  case redir.only.refl => exact low.2
  case pipe.left.refl => exact low.1
  case pipe.right.refl => exact low.2
  case list.left.refl => exact low.1
  case list.right.refl => exact low.2
  case back.only.refl => exact low

theorem Tree.Low.at (low : root.Low) (there : root.at node = some cmd) :
    cmd.Low := by
  induction node generalizing root with
  | nil =>
      cases there
      exact low
  | cons side node ih =>
      obtain ⟨below, child, there⟩ := Option.bind_eq_some_iff.mp there
      exact ih (low.child child) there

theorem standard_append (there : root.at node = some cmd) {below : Tree}
    (child : cmd.child side = some below) :
    standard root (node ++ [side]) =
      (List.range 3).map (fun fd =>
        some (((cmd.sets node side).toList.lookup fd).getD
          (descriptor root node fd))) ++ List.replicate (nofile - 3) none := by
  unfold standard
  rw [descriptor_append there child, descriptor_append there child,
    descriptor_append there child]
  rfl

theorem onlyStandard_standard : OnlyStandard (standard root node) :=
  ⟨_, _, _, rfl⟩

/-- What a process does at a node that it runs with the right descriptors. -/
theorem safe_runcmd (low : root.Low) (there : root.at node = some cmd)
    (p : Nat × Nat) : Safe root (runcmd node cmd) p (standard root node) := by
  cases cmd with
  | exec argv =>
      cases argv with
      | nil => simp only [runcmd, Safe]
      | cons word argv =>
          simp only [runcmd, Safe]
          exact ⟨there, trivial⟩
  | redir cmd file mode fd =>
      have below := Tree.at_append there .only
      have table := standard_append there (rfl : Tree.child _ .only = some cmd)
      have small := (low.at there).1
      simp only [runcmd, Safe]
      rw [below, table]
      match fd, small with
      | 0, _ => exact ⟨0, _, rfl, rfl, rfl⟩
      | 1, _ => exact ⟨1, _, rfl, rfl, rfl⟩
      | 2, _ => exact ⟨2, _, rfl, rfl, rfl⟩
  | list left right =>
      have first := Tree.at_append there .left
      have second := Tree.at_append there .right
      have one := standard_append there
        (rfl : Tree.child _ .left = some left)
      have two := standard_append there
        (rfl : Tree.child _ .right = some right)
      simp only [runcmd, Safe]
      rw [first, second, one, two]
      exact ⟨⟨rfl, rfl⟩, onlyStandard_standard, rfl, rfl⟩
  | pipe left right =>
      have first := Tree.at_append there .left
      have second := Tree.at_append there .right
      have one := standard_append there
        (rfl : Tree.child _ .left = some left)
      have two := standard_append there
        (rfl : Tree.child _ .right = some right)
      simp only [runcmd, Safe]
      rw [first, second, one, two]
      refine ⟨(3, 4), _, rfl, ⟨1, _, rfl, rfl, rfl⟩, ⟨0, _, rfl, rfl, rfl⟩, ?_⟩
      exact ⟨⟨_, _, _, rfl⟩, ⟨_, _, _, rfl⟩, trivial⟩
  | back cmd =>
      have below := Tree.at_append there .only
      have table := standard_append there (rfl : Tree.child _ .only = some cmd)
      simp only [runcmd, Safe]
      rw [below, table]
      exact ⟨⟨rfl, rfl⟩, trivial⟩

/-- A call keeps a process safe, and the child that it makes is safe. -/
theorem Safe.next (low : root.Low) {process last : Process}
    {child : Option Process}
    (safe : Safe root process.todo process.p process.table)
    (taken : process.next = some (last, child)) :
    Safe root last.todo last.p last.table ∧
      ∀ new ∈ child, Safe root new.todo new.p new.table := by
  obtain ⟨table, p, todo⟩ := process
  cases todo with
  | nil => cases taken
  | cons action todo =>
      cases action with
      | runcmd node cmd =>
          rw [Safe] at safe
          obtain ⟨there, rfl⟩ := safe
          cases taken
          exact ⟨safe_runcmd low there p, nofun⟩
      | exec node argv => cases taken
      | close fd =>
          rw [Safe] at safe
          cases taken
          exact ⟨safe, nofun⟩
      | openFile node file mode =>
          rw [Safe] at safe
          obtain ⟨fd, after, found, safe⟩ := safe
          rw [Process.next] at taken
          dsimp only at taken
          rw [found] at taken
          cases taken
          exact ⟨safe, nofun⟩
      | dup fd =>
          rw [Safe] at safe
          obtain ⟨new, after, found, safe⟩ := safe
          rw [Process.next] at taken
          dsimp only at taken
          rw [found] at taken
          cases taken
          exact ⟨safe, nofun⟩
      | pipe node =>
          rw [Safe] at safe
          obtain ⟨p, after, found, safe⟩ := safe
          rw [Process.next] at taken
          dsimp only at taken
          rw [found] at taken
          cases taken
          exact ⟨safe, nofun⟩
      | fork child =>
          rw [Safe] at safe
          cases taken
          refine ⟨safe.2, ?_⟩
          rintro new ⟨⟩
          exact safe.1
      | wait =>
          rw [Safe] at safe
          cases taken
          exact ⟨safe.2, nofun⟩
      | exit => cases taken

/-- The shell has forked a process for a command. -/
def Process.start (cmd : Tree) : Process where
  table := standard cmd []
  p := (0, 0)
  todo := [.runcmd [] cmd]

/-- In every run of a command, whoever calls `exec` has the descriptors that
belong to its leaf and no others, and whoever waits has three descriptors. -/
theorem runcmd_descriptors {root : Tree} (low : root.Low)
    {history : History (List Process) Nat} {state : List Process}
    (run : Run processes [.start root] history state) :
    ∀ process ∈ state,
      (∀ node argv todo, process.todo = .exec node argv :: todo →
        root.at node = some (.exec argv) ∧
        process.table = standard root node) ∧
      ∀ todo, process.todo = .wait :: todo → OnlyStandard process.table := by
  have all : ∀ process ∈ state,
      Safe root process.todo process.p process.table := by
    apply run.invariant
    · intro process member
      cases List.mem_singleton.mp member
      rw [Process.start, Safe]
      exact ⟨rfl, rfl⟩
    · rintro before i after ⟨process, last, child, found, taken, rfl⟩ safe new
        member
      obtain ⟨safe', children⟩ :=
        (safe process (List.mem_of_getElem? found)).next low taken
      rcases List.mem_append.mp member with old | forked
      · rcases List.mem_or_eq_of_mem_set old with same | rfl
        · exact safe new same
        · exact safe'
      · exact children new (Option.mem_toList.mp forked)
  intro process member
  have safe := all process member
  constructor
  · intro node argv todo calls
    rw [calls, Safe] at safe
    exact safe
  · intro todo calls
    rw [calls, Safe] at safe
    exact safe.1

theorem processes_alone {process last : Process}
    (taken : process.next = some (last, none)) :
    processes.step [process] 0 [last] :=
  ⟨process, last, none, rfl, taken, rfl⟩

/-- `a < b` runs `a` with the file `b` as its input. -/
theorem runcmd_descriptors_redir :
    ∃ history process,
      Run processes [.start (.redir (.exec [[97]]) [98] .read 0)] history
        [process] ∧
      process.todo = [.exec [.only] [[97]]] ∧
      process.table = standard (.redir (.exec [[97]]) [98] .read 0) [.only] ∧
      process.table[0]? = some (some (.opened [] [98] .read)) := by
  have run : Run processes [.start (.redir (.exec [[97]]) [98] .read 0)] _ _ :=
    .step (.step (.step (.step .refl (processes_alone rfl))
      (processes_alone rfl)) (processes_alone rfl)) (processes_alone rfl)
  have low : (Tree.redir (.exec [[97]]) [98] .read 0).Low :=
    ⟨by decide, trivial⟩
  refine ⟨_, _, run, rfl, ?_, rfl⟩
  exact ((runcmd_descriptors low run _ List.mem_cons_self).1 _ _ _ rfl).2

end Xv6.Shell
