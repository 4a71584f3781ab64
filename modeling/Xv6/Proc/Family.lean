import Xv6.Proc.Invariant

/-!
# Parents and children

`Lineage` speaks about the parents and the states of the processes: a parent
is alive, and every process that has been started has a parent other than
itself, except `initproc`, which never exits and adopts the children of those
that do.  It has one rule for every step in the life of a process.  `Family`
adds what the code that starts processes knows about their parents.
-/

namespace Xv6

open Lib

variable {ncpu : Nat}

/-- The two states belong to the same stage of a life: unused, in setup,
alive or exited. -/
def ProcState.Kin (before after : ProcState) : Prop :=
  (after.Alive ↔ before.Alive) ∧ (after = .zombie ↔ before = .zombie) ∧
    (after = .unused ↔ before = .unused)

namespace ProcState

theorem Kin.refl (state : ProcState) : Kin state state :=
  ⟨Iff.rfl, Iff.rfl, Iff.rfl⟩

theorem Kin.of_alive {before after : ProcState} (wasAlive : before.Alive)
    (isAlive : after.Alive) : Kin before after := by
  have notZombie : ∀ state : ProcState, state.Alive →
      state ≠ .zombie ∧ state ≠ .unused := by
    rintro state (rfl | rfl | rfl) <;> decide
  simp [Kin, wasAlive, isAlive, notZombie before wasAlive,
    notZombie after isAlive]

theorem Wakes.kin {before after : ProcState} (wakes : Wakes before after) :
    Kin before after := by
  rcases wakes with rfl | ⟨rfl, rfl⟩
  · exact .refl _
  · exact .of_alive (.inr (.inr rfl)) (.inr (.inl rfl))

theorem Alive.ne_embryo {state : ProcState} (isAlive : state.Alive) :
    state ≠ .embryo := by
  rintro rfl
  simp [Alive] at isAlive

theorem Alive.ne_zombie {state : ProcState} (isAlive : state.Alive) :
    state ≠ .zombie := by
  rintro rfl
  simp [Alive] at isAlive

theorem Alive.ne_unused {state : ProcState} (isAlive : state.Alive) :
    state ≠ .unused := by
  rintro rfl
  simp [Alive] at isAlive

end ProcState

/-! ## Lineage -/

structure Lineage (initproc : Option ProcId)
    (parent : ProcId → Option ProcId) (state : ProcId → ProcState) :
    Prop where
  unused : ∀ q, state q = .unused → parent q = none
  alive : ∀ q p, parent q = some p → (state p).Alive
  orphan : ∀ q, (state q).Alive ∨ state q = .zombie →
    initproc ≠ some q → parent q ≠ none
  init : ∀ q, (state q).Alive → ∃ i, initproc = some i ∧ (state i).Alive
  root : ∀ i, initproc = some i → parent i = none
  proper : ∀ q, parent q ≠ some q

namespace Lineage

variable {initproc : Option ProcId} {parent : ProcId → Option ProcId}
  {state after : ProcId → ProcState} {p np child : ProcId}

/-- Steps within the stages of the lives of all processes. -/
theorem frame (lineage : Lineage initproc parent state)
    (kin : ∀ q, ProcState.Kin (state q) (after q)) :
    Lineage initproc parent after := by
  constructor
  · intro q isUnused
    exact lineage.unused q ((kin q).2.2.mp isUnused)
  · intro q p isParent
    exact (kin p).1.mpr (lineage.alive q p isParent)
  · intro q started other
    rw [(kin q).1, (kin q).2.1] at started
    exact lineage.orphan q started other
  · intro q isAlive
    obtain ⟨i, isInit, initAlive⟩ := lineage.init q ((kin q).1.mp isAlive)
    exact ⟨i, isInit, (kin i).1.mpr initAlive⟩
  · exact lineage.root
  · exact lineage.proper

/-- A slot that is not alive moves to another such state. -/
private theorem dormant (lineage : Lineage initproc parent state)
    (before : ¬ (state np).Alive) {value : ProcState}
    (later : ¬ value.Alive ∧ value ≠ .zombie)
    (fresh : value = .unused → parent np = none) :
    Lineage initproc parent (Function.update state np value) := by
  have kept : ∀ q, (Function.update state np value q).Alive ↔
      (state q).Alive := by
    intro q
    by_cases same : q = np
    · subst q
      simp [before, later.1]
    · rw [Function.update_of_ne same]
  constructor
  · intro q isUnused
    by_cases same : q = np
    · subst q
      exact fresh (by simpa using isUnused)
    · rw [Function.update_of_ne same] at isUnused
      exact lineage.unused q isUnused
  · intro q p isParent
    exact (kept p).mpr (lineage.alive q p isParent)
  · intro q started other
    rw [kept] at started
    apply lineage.orphan q _ other
    rcases started with isAlive | isZombie
    · exact .inl isAlive
    · by_cases same : q = np
      · subst q
        rw [Function.update_self] at isZombie
        exact absurd isZombie later.2
      · rw [Function.update_of_ne same] at isZombie
        exact .inr isZombie
  · intro q isAlive
    obtain ⟨i, isInit, initAlive⟩ := lineage.init q ((kept q).mp isAlive)
    exact ⟨i, isInit, (kept i).mpr initAlive⟩
  · exact lineage.root
  · exact lineage.proper

/-- `allocproc` takes a slot. -/
theorem alloc (lineage : Lineage initproc parent state)
    (isUnused : state np = .unused) :
    Lineage initproc parent (Function.update state np .embryo) :=
  lineage.dormant (by simp [isUnused, ProcState.Alive])
    (by simp [ProcState.Alive]) (by simp)

/-- A `fork` that fails gives its slot back. -/
theorem giveUp (lineage : Lineage initproc parent state)
    (isEmbryo : state np = .embryo) (fresh : parent np = none) :
    Lineage initproc parent (Function.update state np .unused) :=
  lineage.dormant (by simp [isEmbryo, ProcState.Alive])
    (by simp [ProcState.Alive]) fun _ => fresh

/-- A slot in setup gets another parent, or none. -/
private theorem assign (lineage : Lineage initproc parent state)
    (isEmbryo : state np = .embryo) {value : Option ProcId}
    (isAlive : ∀ p, value = some p → (state p).Alive) :
    Lineage initproc (Function.update parent np value) state := by
  constructor
  · intro q isUnused
    have different : q ≠ np := by
      rintro rfl
      simp [isEmbryo] at isUnused
    rw [Function.update_of_ne different]
    exact lineage.unused q isUnused
  · intro q r isParent
    by_cases same : q = np
    · subst q
      rw [Function.update_self] at isParent
      exact isAlive r isParent
    · rw [Function.update_of_ne same] at isParent
      exact lineage.alive q r isParent
  · intro q started other
    have different : q ≠ np := by
      rintro rfl
      simp [isEmbryo, ProcState.Alive] at started
    rw [Function.update_of_ne different]
    exact lineage.orphan q started other
  · exact lineage.init
  · intro i isInit
    by_cases same : i = np
    · subst i
      rw [Function.update_self]
      by_contra hasParent
      obtain ⟨p, isParent⟩ := Option.ne_none_iff_exists'.mp hasParent
      obtain ⟨j, sameInit, initAlive⟩ := lineage.init p (isAlive p isParent)
      rw [isInit, Option.some.injEq] at sameInit
      rw [← sameInit] at initAlive
      exact initAlive.ne_embryo isEmbryo
    · rw [Function.update_of_ne same]
      exact lineage.root i isInit
  · intro q
    by_cases same : q = np
    · subst q
      rw [Function.update_self]
      exact fun own => (isAlive _ own).ne_embryo isEmbryo
    · rw [Function.update_of_ne same]
      exact lineage.proper q

/-- `fork` sets the parent of the slot it holds. -/
theorem copy (lineage : Lineage initproc parent state)
    (isEmbryo : state np = .embryo) (isAlive : (state p).Alive) :
    Lineage initproc (Function.update parent np (some p)) state := by
  apply lineage.assign isEmbryo
  rintro _ ⟨⟩
  exact isAlive

/-- A new process is started: it is `initproc`, or it has a parent. -/
theorem start (lineage : Lineage initproc parent state)
    (isEmbryo : state np = .embryo)
    (related : initproc = some np ∨ ∃ p, parent np = some p) :
    Lineage initproc parent (Function.update state np .runnable) := by
  have survives : ∀ q, (state q).Alive →
      (Function.update state np .runnable q).Alive := by
    intro q wasAlive
    rw [Function.update_of_ne]
    · exact wasAlive
    · rintro rfl
      exact wasAlive.ne_embryo isEmbryo
  have others : ∀ q, q ≠ np →
      Function.update state np .runnable q = state q :=
    fun q different => Function.update_of_ne different _ _
  constructor
  · intro q isUnused
    have different : q ≠ np := by
      rintro rfl
      simp at isUnused
    rw [others q different] at isUnused
    exact lineage.unused q isUnused
  · intro q p isParent
    exact survives p (lineage.alive q p isParent)
  · intro q started other
    by_cases same : q = np
    · subst q
      rcases related with isInit | ⟨p, isParent⟩
      · exact absurd isInit other
      · simp [isParent]
    · rw [others q same] at started
      exact lineage.orphan q started other
  · intro q isAlive
    by_cases same : q = np
    · subst q
      rcases related with isInit | ⟨p, isParent⟩
      · exact ⟨np, isInit, isAlive⟩
      · obtain ⟨i, isInit, initAlive⟩ :=
          lineage.init p (lineage.alive np p isParent)
        exact ⟨i, isInit, survives i initAlive⟩
    · rw [others q same] at isAlive
      obtain ⟨i, isInit, initAlive⟩ := lineage.init q isAlive
      exact ⟨i, isInit, survives i initAlive⟩
  · exact lineage.root
  · exact lineage.proper

/-- `userinit` names `initproc` before any process has been started. -/
theorem found (lineage : Lineage initproc parent state)
    (quiet : ∀ q, ¬ ((state q).Alive ∨ state q = .zombie)) :
    Lineage (some p) parent state where
  unused := lineage.unused
  alive := lineage.alive
  orphan q started := absurd started (quiet q)
  init q isAlive := absurd (.inl isAlive) (quiet q)
  root i _ := by
    by_contra hasParent
    obtain ⟨r, isParent⟩ := Option.ne_none_iff_exists'.mp hasParent
    exact quiet r (.inl (lineage.alive i r isParent))
  proper := lineage.proper

/-- A process other than `initproc` exits, and `initproc` adopts its
children. -/
theorem exit {adopted : ProcId → Option ProcId}
    (lineage : Lineage initproc parent state) (wasAlive : (state p).Alive)
    (different : initproc ≠ some p) (exited : after p = .zombie)
    (others : ∀ q, q ≠ p → ProcState.Kin (state q) (after q))
    (adopts : ∀ q, adopted q =
      if parent q = some p then initproc else parent q) :
    Lineage initproc adopted after := by
  obtain ⟨i, isInit, initAlive⟩ := lineage.init p wasAlive
  have initLives : (after i).Alive := by
    have other : i ≠ p := by
      rintro rfl
      exact different isInit
    exact (others i other).1.mpr initAlive
  have survives : ∀ q, q ≠ p → (state q).Alive → (after q).Alive :=
    fun q other => (others q other).1.mpr
  constructor
  · intro q isUnused
    have other : q ≠ p := by
      rintro rfl
      simp [exited] at isUnused
    have parentless :=
      lineage.unused q ((others q other).2.2.mp isUnused)
    simp [adopts, parentless]
  · intro q r isParent
    rw [adopts] at isParent
    split at isParent
    · rw [isInit, Option.some.injEq] at isParent
      rw [← isParent]
      exact initLives
    · rename_i notChild
      have other : r ≠ p := by
        rintro rfl
        exact notChild isParent
      exact survives r other (lineage.alive q r isParent)
  · intro q started other
    rw [adopts]
    split
    · simp [isInit]
    · apply lineage.orphan q _ other
      by_cases same : q = p
      · rw [same]
        exact .inl wasAlive
      · rw [(others q same).1, (others q same).2.1] at started
        exact started
  · intro q isAlive
    exact ⟨i, isInit, initLives⟩
  · intro j isRoot
    simp [adopts, lineage.root j isRoot]
  · intro q
    rw [adopts]
    split
    · rename_i isChild
      intro isRoot
      simp [lineage.root q isRoot] at isChild
    · exact lineage.proper q

/-- `wait` frees the slot of an exited process. -/
theorem reap (lineage : Lineage initproc parent state)
    (exited : state child = .zombie) :
    Lineage initproc (Function.update parent child none)
      (Function.update state child .unused) := by
  have embryo : Lineage initproc parent
      (Function.update state child .embryo) :=
    lineage.dormant (by simp [exited, ProcState.Alive])
      (by simp [ProcState.Alive]) (by simp)
  have cleared : Lineage initproc (Function.update parent child none)
      (Function.update state child .embryo) :=
    embryo.assign (Function.update_self child .embryo state) (by simp)
  have free := cleared.giveUp (Function.update_self child .embryo state)
    (Function.update_self child none parent)
  rwa [Function.update_idem] at free

end Lineage

/-! ## The family of a kernel -/

def PTable.parent (table : PTable) (p : ProcId) : Option ProcId :=
  (table.proc p).parent

theorem PTable.parent_eq_update {table before : PTable} {p : ProcId}
    {entry : Proc}
    (views : table.view = Function.update before.view p entry) :
    table.parent = Function.update before.parent p entry.parent := by
  funext q
  change (table.view q).parent = _
  rw [views]
  by_cases same : q = p
  · subst q
    simp
  · simp [same, PTable.parent]

/-- A CPU that has not yet finished `userinit`. -/
def Control.Booting (control : Control) : Prop :=
  control = .main ∨ (∃ p, control = .allocproc p) ∨
    ∃ p, control = .userinit p

/-- `fork` holds a slot without a parent until it has copied the memory, and
with itself as the parent afterwards.  Before `userinit` has set `initproc`
no process has been started. -/
structure Kernel.Family (k : Kernel ncpu) : Prop where
  lineage : Lineage k.initproc k.ptable.parent k.ptable.state
  fresh : ∀ p np, k.activity p = .allocproc np ∨ k.activity p = .fork np →
    k.ptable.parent np = none
  copied : ∀ p np, k.activity p = .forkCopied np →
    k.ptable.parent np = some p
  first : ∀ c, (k.control c).Booting → c.val = 0
  quiet : ∀ c, k.control c = .main ∨ (∃ p, k.control c = .allocproc p) →
    ∀ q, ¬ ((k.ptable.state q).Alive ∨ k.ptable.state q = .zombie)
  userinit : ∀ c p, k.control c = .userinit p → k.initproc = some p

namespace Kernel

variable {k after : Kernel ncpu} {levels next : Levels ProcId}
  {action : Action ncpu} {c : Fin ncpu} {p q : ProcId}

namespace Family

theorem boot : (Kernel.boot ncpu).Family := by
  have unused : ∀ q, (Kernel.boot ncpu).ptable.state q = .unused :=
    fun _ => rfl
  constructor
  · constructor
    · intro q _
      rfl
    · intro q p isParent
      cases isParent
    · intro q started
      simp [unused, ProcState.Alive] at started
    · intro q isAlive
      simp [unused, ProcState.Alive] at isAlive
    · intro i isInit
      cases isInit
    · intro q isParent
      cases isParent
  · intro p np _
    rfl
  · intro p np holds
    cases holds
  · intro c booting
    by_contra other
    simp [Kernel.boot, Control.Booting, other] at booting
  · intro c _ q
    simp [unused, ProcState.Alive]
  · intro c p control
    by_cases isFirst : c.val = 0 <;> simp [Kernel.boot, isFirst] at control

/-- No CPU starts `userinit`. -/
theorem advance (family : k.Family) (initproc : after.initproc = k.initproc)
    (lineage : Lineage k.initproc after.ptable.parent after.ptable.state)
    (fresh : ∀ p np, after.activity p = .allocproc np ∨
      after.activity p = .fork np → after.ptable.parent np = none)
    (copied : ∀ p np, after.activity p = .forkCopied np →
      after.ptable.parent np = some p)
    (control : ∀ c, after.control c = k.control c ∨
      ¬ (after.control c).Booting)
    (quiet : ∀ c, k.control c = .main ∨ (∃ p, k.control c = .allocproc p) →
      ∀ q, ¬ ((after.ptable.state q).Alive ∨ after.ptable.state q = .zombie)) :
    after.Family := by
  have same : ∀ c, (after.control c).Booting →
      after.control c = k.control c := by
    intro c booting
    rcases control c with same | settled
    · exact same
    · exact absurd booting settled
  constructor
  · rw [initproc]
    exact lineage
  · exact fresh
  · exact copied
  · intro c booting
    rw [same c booting] at booting
    exact family.first c booting
  · intro c early
    have booting : (after.control c).Booting := by
      rcases early with main | alloc
      · exact .inl main
      · exact .inr (.inl alloc)
    rw [same c booting] at early
    exact quiet c early
  · intro c p control
    have booting : (after.control c).Booting := .inr (.inr ⟨p, control⟩)
    rw [same c booting] at control
    rw [initproc]
    exact family.userinit c p control

/-- Steps within the stages of all lives, by code that holds what it held. -/
theorem frame (family : k.Family) (initproc : after.initproc = k.initproc)
    (parent : after.ptable.parent = k.ptable.parent)
    (kin : ∀ q, ProcState.Kin (k.ptable.state q) (after.ptable.state q))
    (activity : after.activity = k.activity)
    (control : ∀ c, after.control c = k.control c ∨
      ¬ (after.control c).Booting) :
    after.Family := by
  refine family.advance initproc ?_ ?_ ?_ control ?_
  · rw [parent]
    exact family.lineage.frame kin
  · rw [activity, parent]
    exact family.fresh
  · rw [activity, parent]
    exact family.copied
  · intro c early q
    rw [(kin q).1, (kin q).2.1]
    exact family.quiet c early q

/-- With a process alive, no CPU is at the start of `userinit`. -/
theorem started (family : k.Family) (isAlive : (k.ptable.state p).Alive)
    (c : Fin ncpu) :
    ¬ (k.control c = .main ∨ ∃ p, k.control c = .allocproc p) :=
  fun early => family.quiet c early p (.inl isAlive)

end Family

private theorem settle {value : Control} (settled : ¬ value.Booting)
    (d : Fin ncpu) :
    Function.update k.control c value d = k.control d ∨
      ¬ (Function.update k.control c value d).Booting := by
  by_cases same : d = c
  · subst d
    rw [Function.update_self]
    exact .inr settled
  · rw [Function.update_of_ne same]
    exact .inl rfl

/-- Assignments to one process that keep its parent and its stage. -/
theorem kin_update {table : PTable} {entry : Proc}
    (views : table.view = Function.update k.ptable.view p entry)
    (kin : ProcState.Kin (k.ptable.state p) entry.state) (q : ProcId) :
    ProcState.Kin (k.ptable.state q) (table.state q) := by
  rw [PTable.state_eq_update views]
  by_cases same : q = p
  · subst q
    rwa [Function.update_self]
  · rw [Function.update_of_ne same]
    exact .refl _

private theorem parent_same {table : PTable} {entry : Proc}
    (views : table.view = Function.update k.ptable.view p entry)
    (same : entry.parent = k.ptable.parent p) :
    table.parent = k.ptable.parent := by
  rw [PTable.parent_eq_update views, same]
  exact Function.update_eq_self p k.ptable.parent

theorem running_alive {state : ProcState}
    (isRunning : state = .running) : state.Alive := .inl isRunning

/-- The slot a process holds is no other process's. -/
private theorem other_slot (owners : k.Owners) {np other : ProcId}
    (holds : (k.activity p).held = some np)
    (otherHolds : (k.activity q).held = some other) (different : q ≠ p) :
    other ≠ np := by
  rintro rfl
  have same := owners.slots.unique (.process q) (.process p) other
    otherHolds holds
  cases same
  exact different rfl

private theorem held_of_fresh {np : ProcId}
    (fresh : k.activity p = .allocproc np ∨ k.activity p = .fork np) :
    (k.activity p).held = some np := by
  rcases fresh with holds | holds
  · simp [holds, Activity.held]
  · simp [holds, Activity.held]

private theorem held_of_copied {np : ProcId}
    (copied : k.activity p = .forkCopied np) :
    (k.activity p).held = some np := by
  simp [copied, Activity.held]

/-- A process goes on with `fork`. -/
private theorem family_fork (family : k.Family) {table : PTable}
    {nextpid : Int} {value : Activity}
    (lineage : Lineage k.initproc table.parent table.state)
    (others : ∀ r np, r ≠ p → (k.activity r).held = some np →
      table.parent np = k.ptable.parent np)
    (fresh : ∀ np, value = .allocproc np ∨ value = .fork np →
      table.parent np = none)
    (copied : ∀ np, value = .forkCopied np → table.parent np = some p)
    (isAlive : (k.ptable.state p).Alive) :
    Family
      { k with
        ptable := table
        nextpid := nextpid
        activity := Function.update k.activity p value } := by
  refine family.advance rfl lineage ?_ ?_ (fun _ => .inl rfl) fun d early =>
    absurd early (family.started isAlive d)
  · intro r np holds
    by_cases same : r = p
    · subst r
      simp only [Function.update_self] at holds
      exact fresh np holds
    · simp only [Function.update_of_ne same] at holds
      exact (others r np same (held_of_fresh holds)).trans
        (family.fresh r np holds)
  · intro r np holds
    by_cases same : r = p
    · subst r
      simp only [Function.update_self] at holds
      exact copied np holds
    · simp only [Function.update_of_ne same] at holds
      exact (others r np same (held_of_copied holds)).trans
        (family.copied r np holds)

/-- The CPU that boots goes on with `userinit`. -/
private theorem family_userinit (family : k.Family) {table : PTable}
    {initproc : Option ProcId} {nextpid : Int} {value : Control}
    (booting : (k.control c).Booting)
    (lineage : Lineage initproc table.parent table.state)
    (parent : table.parent = k.ptable.parent)
    (quiet : value = .main ∨ (∃ p, value = .allocproc p) →
      ∀ q, ¬ ((table.state q).Alive ∨ table.state q = .zombie))
    (userinit : ∀ p, value = .userinit p → initproc = some p) :
    Family
      { k with
        ptable := table
        initproc := initproc
        nextpid := nextpid
        control := Function.update k.control c value } := by
  have isFirst := family.first c booting
  have alone : ∀ d, d ≠ c → ¬ (k.control d).Booting := by
    intro d different booting
    exact different (Fin.ext ((family.first d booting).trans isFirst.symm))
  constructor
  · exact lineage
  · simp only [parent]
    exact family.fresh
  · simp only [parent]
    exact family.copied
  · intro d booting
    by_cases same : d = c
    · rw [same]
      exact isFirst
    · simp only [Function.update_of_ne same] at booting
      exact absurd booting (alone d same)
  · intro d early
    by_cases same : d = c
    · subst d
      simp only [Function.update_self] at early
      exact quiet early
    · simp only [Function.update_of_ne same] at early
      exact absurd (early.imp_right .inl) (alone d same)
  · intro d r inside
    by_cases same : d = c
    · subst d
      simp only [Function.update_self] at inside
      exact userinit r inside
    · simp only [Function.update_of_ne same] at inside
      exact absurd (.inr (.inr ⟨r, inside⟩)) (alone d same)

/-- A process that holds no slot gives up or takes parents away: those that
hold slots keep them as they are. -/
private theorem family_move (family : k.Family) {table : PTable}
    {lock : Option (Fin ncpu)} {value : Control}
    (lineage : Lineage k.initproc table.parent table.state)
    (parent : ∀ r np, (k.activity r).held = some np →
      table.parent np = k.ptable.parent np)
    (settled : ¬ value.Booting) (isAlive : (k.ptable.state p).Alive) :
    Family
      { k with
        ptable := table
        lock := lock
        control := Function.update k.control c value } :=
  family.advance rfl lineage
    (fun r np holds => (parent r np (held_of_fresh holds)).trans
      (family.fresh r np holds))
    (fun r np holds => (parent r np (held_of_copied holds)).trans
      (family.copied r np holds))
    (settle settled) fun d early => absurd early (family.started isAlive d)

private theorem family_exit (family : k.Family) {table : PTable}
    (isRunning : k.ptable.state p = .running)
    (idle : k.activity p = .other) (different : k.initproc ≠ some p)
    (views : table.view = exitView k.ptable.view p k.initproc) :
    Family
      { k with
        ptable := table
        lock := some c
        control := Function.update k.control c .switched } := by
  have parents : ∀ q, table.parent q =
      if k.ptable.parent q = some p then k.initproc
      else k.ptable.parent q := by
    intro q
    change (table.view q).parent = _
    rw [views]
    exact exitView_parent k.ptable.view p k.initproc q
  have exited : table.state p = .zombie := by
    change (table.view p).state = _
    rw [views]
    exact exitView_self k.ptable.view p k.initproc
  have others : ∀ q, q ≠ p →
      ProcState.Kin (k.ptable.state q) (table.state q) := by
    intro q other
    change ProcState.Kin _ (table.view q).state
    rw [views]
    exact (wakes_exitView k.ptable.view k.initproc other).kin
  have isAlive := running_alive isRunning
  refine family_move family ?_ ?_ (by simp [Control.Booting]) isAlive
  · exact family.lineage.exit isAlive different exited others parents
  · intro r np holds
    rw [parents, if_neg]
    intro isParent
    cases activity : k.activity r with
    | other => simp [activity, Activity.held] at holds
    | allocproc slot | fork slot =>
        simp only [activity, Activity.held, Option.some.injEq] at holds
        subst slot
        have parentless := family.fresh r np (by simp [activity])
        simp [parentless] at isParent
    | forkCopied slot =>
        simp only [activity, Activity.held, Option.some.injEq] at holds
        subst slot
        rw [family.copied r np activity, Option.some.injEq] at isParent
        rw [isParent, idle] at activity
        cases activity

private theorem family_reap (family : k.Family) (owners : k.Owners)
    {table : PTable} {child : ProcId} {chan : Option Chan}
    (isRunning : k.ptable.state p = .running)
    (isZombie : k.ptable.state child = .zombie)
    (views : table.view = Function.update
      (Function.update k.ptable.view p
        { k.ptable.view p with chan := chan })
      child
      { k.ptable.view child with
        pid := 0, parent := none, killed := false, state := .unused }) :
    (k.releaseLock c table).Family := by
  let moved : PTable :=
    k.ptable.update p fun entry => { entry with chan := chan }
  have start : moved.view = Function.update k.ptable.view p
      { k.ptable.view p with chan := chan } :=
    PTable.view_update _ _ fun _ => rfl
  rw [← start] at views
  have parents := PTable.parent_eq_update views
  rw [parent_same start rfl] at parents
  have states := PTable.state_eq_update views
  rw [state_same start rfl] at states
  refine family_move family ?_ ?_ (by simp [Control.Booting])
    (running_alive isRunning)
  · rw [parents, states]
    exact family.lineage.reap isZombie
  · intro r np holds
    have isEmbryo := owners.slots.embryo (.process r) np holds
    rw [parents, Function.update_of_ne]
    rintro rfl
    simp [isZombie] at isEmbryo

theorem Effect.family (owners : k.Owners) (family : k.Family)
    (ready : Ready k.ptable levels)
    (effect : Effect k levels action after next) : after.Family := by
  have current : ∀ {d : Fin ncpu} {r : ProcId}, k.control d = .process →
      k.cpuProc d = some r → k.ptable.state r = .running :=
    fun control onCpu =>
      owners.cpus.current_running (by simp [control]) onCpu
  have scanning : ∀ {d : Fin ncpu} {r : ProcId} {chan : Option Chan},
      WaitStart k d r action chan → k.cpuProc d = some r →
      k.ptable.state r = .running :=
    fun starts onCpu => owners.cpus.current_running starts.place onCpu
  have still : ∀ d, k.control d = k.control d ∨ ¬ (k.control d).Booting :=
    fun _ => .inl rfl
  cases effect with
  | @userinitAlloc c p table free control slot small views =>
      have isUnused := freeSlot_unused slot
      have quiet := family.quiet c (.inl control)
      have parents := parent_same views rfl
      have states := PTable.state_eq_update views
      refine family_userinit family (.inl control) ?_ parents ?_ (by simp)
      · rw [parents, states]
        exact family.lineage.alloc isUnused
      · intro _ q
        rw [states]
        by_cases same : q = p
        · subst q
          simp [ProcState.Alive]
        · rw [Function.update_of_ne same]
          exact quiet q
  | @userinitKalloc c p table control views =>
      have quiet := family.quiet c (.inr ⟨p, control⟩)
      have parents := parent_same views rfl
      refine family_userinit family (.inr (.inl ⟨p, control⟩)) ?_ parents
        ?_ ?_
      · rw [parents, state_same views rfl]
        exact family.lineage.found quiet
      · simp
      · simp
  | @userinitEnqueue c p table free control views =>
      have isEmbryo : k.ptable.state p = .embryo :=
        owners.slots.embryo (.cpu c) p (by simp [held, control, Control.held])
      have parents := parent_same views rfl
      refine family_userinit family (.inr (.inr ⟨p, control⟩)) ?_ parents
        ?_ (by simp)
      · rw [parents, PTable.state_eq_update views]
        exact family.lineage.start isEmbryo
          (.inl (family.userinit c p control))
      · simp
  | idle nothing => exact family
  | @dispatch c p rest table free control chosen head views =>
      have isRunnable : k.ptable.state p = .runnable :=
        ready.chosen_runnable chosen
      exact family.frame rfl (parent_same views rfl)
        (kin_update views (.of_alive (.inr (.inl isRunnable)) (.inl rfl)))
        rfl (settle (by simp [Control.Booting]))
  | resume | switchBack =>
      exact family.frame rfl rfl (fun _ => .refl _) rfl
        (settle (by simp [Control.Booting]))
  | resumeSleep control onCpu context views
  | waitFailed onCpu starts result nothing reason views =>
      exact family.frame rfl (parent_same views rfl)
        (kin_update views (.refl _)) rfl
        (settle (by simp [Control.Booting]))
  | waitReaped onCpu starts result found views =>
      exact family_reap family owners (scanning starts onCpu)
        (zombieChild_some found).2 views
  | waitSleeps onCpu starts result nothing views =>
      have wasAlive := running_alive (scanning starts onCpu)
      exact family.frame rfl (parent_same views rfl)
        (kin_update views (.of_alive wasAlive (.inr (.inr rfl)))) rfl
        (settle (by simp [Control.Booting]))
  | yield free control onCpu views =>
      have wasAlive := running_alive (current control onCpu)
      exact family.frame rfl (parent_same views rfl)
        (kin_update views (.of_alive wasAlive (.inr (.inl rfl)))) rfl
        (settle (by simp [Control.Booting]))
  | sleep free control onCpu views =>
      have wasAlive := running_alive (current control onCpu)
      exact family.frame rfl (parent_same views rfl)
        (kin_update views (.of_alive wasAlive (.inr (.inr rfl)))) rfl
        (settle (by simp [Control.Booting]))
  | exit free control onCpu idle different grows views =>
      exact family_exit family (current control onCpu) idle different views
  | forkAllocFull full => exact family
  | @forkAlloc c p np table free control onCpu idle slot small views =>
      have isUnused := freeSlot_unused slot
      have parents := parent_same views rfl
      refine family_fork family ?_ (fun _ _ _ _ => by rw [parents]) ?_
        (by simp) (running_alive (current control onCpu))
      · rw [parents, PTable.state_eq_update views]
        exact family.lineage.alloc isUnused
      · intro slot fresh
        simp only [Activity.allocproc.injEq, reduceCtorEq, or_false] at fresh
        rw [parents, ← fresh]
        exact family.lineage.unused np isUnused
  | @forkKalloc c p np table control onCpu holds views =>
      have parents := parent_same views rfl
      refine family_fork family ?_ (fun _ _ _ _ => by rw [parents]) ?_
        (by simp) (running_alive (current control onCpu))
      · rw [parents, state_same views rfl]
        exact family.lineage
      · intro slot fresh
        simp only [reduceCtorEq, Activity.fork.injEq, false_or] at fresh
        rw [parents, ← fresh]
        exact family.fresh p np (.inl holds)
  | @forkFail c p np table action control onCpu failed views =>
      have holds : k.activity p = .allocproc np ∨ k.activity p = .fork np :=
        failed.imp And.right And.right
      have isEmbryo :=
        owners.slots.embryo (.process p) np (held_of_fresh holds)
      have parents := parent_same views rfl
      refine family_fork family ?_ (fun _ _ _ _ => by rw [parents])
        (by simp) (by simp) (running_alive (current control onCpu))
      rw [parents, PTable.state_eq_update views]
      exact family.lineage.giveUp isEmbryo (family.fresh p np holds)
  | @forkCopy c p np table control onCpu holds views =>
      have held := held_of_fresh (.inr holds)
      have isEmbryo := owners.slots.embryo (.process p) np held
      have isAlive := running_alive (current control onCpu)
      have parents := PTable.parent_eq_update views
      refine family_fork family ?_ ?_ (by simp) ?_ isAlive
      · rw [parents, state_same views rfl]
        exact family.lineage.copy isEmbryo isAlive
      · intro r other different otherHeld
        rw [parents, Function.update_of_ne
          (other_slot owners held otherHeld different)]
      · rintro _ ⟨⟩
        rw [parents, Function.update_self]
  | @forkEnqueue c p np table free control onCpu holds views =>
      have isEmbryo :=
        owners.slots.embryo (.process p) np (held_of_copied holds)
      have parents := parent_same views rfl
      refine family_fork family ?_ (fun _ _ _ _ => by rw [parents])
        (by simp) (by simp) (running_alive (current control onCpu))
      rw [parents, PTable.state_eq_update views]
      exact family.lineage.start isEmbryo
        (.inr ⟨p, family.copied p np holds⟩)
  | killNone nothing => exact family
  | kill free found grows views =>
      exact family.frame rfl
        (parent_same views (Proc.markKilled_parent _))
        (kin_update views (Proc.wakes_markKilled _).kin) rfl still
  | @wakeup c chan table grown free grows views =>
      refine family.frame rfl ?_ ?_ rfl still
      · funext q
        change (table.view q).parent = _
        rw [views]
        exact Proc.wake_parent _ _
      · intro q
        change ProcState.Kin _ (table.view q).state
        rw [views]
        exact (Proc.wakes_wake _ _).kin
  | @boost c table free views =>
      refine family.frame rfl ?_ ?_ rfl still
      · funext q
        change (table.view q).parent = _
        rw [views]
        rfl
      · intro q
        change ProcState.Kin _ (table.view q).state
        rw [views]
        exact .refl _
  | clock => exact family.frame rfl rfl (fun _ => .refl _) rfl still
  | charge control onCpu views | userTrap control onCpu idle views =>
      exact family.frame rfl (parent_same views rfl)
        (kin_update views (.refl _)) rfl still

/-- Every state of every run has its family in order. -/
theorem family_of_run {history : History (Kernel ncpu) (Action ncpu)}
    (run : Run (kernel ncpu) (boot ncpu) history k) : k.Family := by
  apply run.invariant_history Family.boot
  intro past before action after previous taken family
  obtain ⟨levels, invariant⟩ := invariant_of_run previous
  obtain ⟨next, _, effect⟩ := invariant.step taken
  exact effect.family invariant.owners family invariant.ready

end Kernel

end Xv6
