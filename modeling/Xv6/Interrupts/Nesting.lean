import Xv6.Interrupts.Machine

/-!
# Interrupts come back as they were

`intena` belongs to the code that made `ncli` positive.  A process carries it
through `swtch` in a variable of `sched`; a new process finds the value that
`scheduler` left, which is always that interrupts were enabled.
-/

namespace Xv6.Interrupts

open Lib

variable {view after : View} {operation : Operation}

/-- The CPU counts what the stack counts. -/
structure Nested (view : View) : Prop where
  ncli : view.cpu.ncli = view.thread.depth
  off : view.cpu.flIf = true → view.thread.depth = 0
  eflags : ∀ eflags, view.thread.eflags = some eflags →
    eflags = view.cpu.flIf
  frames : some false ∉ view.thread.frames

/-- `intena` tells whether interrupts were enabled when the section was
entered. -/
def Restores (view : View) : Prop :=
  0 < view.thread.depth → view.cpu.intena = view.thread.entry.getD true

/-- Another stack that is as deep. -/
theorem Nested.transfer {cpu : Cpu} {old new : Thread}
    (nested : Nested ⟨cpu, old⟩) (depth : new.depth = old.depth)
    (eflags : new.eflags = none) (frames : some false ∉ new.frames) :
    Nested ⟨cpu, new⟩ where
  ncli := by
    dsimp only
    rw [depth]
    exact nested.ncli
  off := by
    dsimp only
    rw [depth]
    exact nested.off
  eflags := by
    dsimp only
    rw [eflags]
    exact nofun
  frames := frames

/-! ## One operation -/

/-- What the operations do. -/
inductive Effect (view : View) : Operation → View → Prop where
  | readeflags : Effect view .readeflags { view with
      thread := { view.thread with eflags := some view.cpu.flIf } }
  | cli {eflags : Bool} (pending : view.thread.eflags = some eflags) :
      Effect view .cli ⟨view.cpu.pushcli eflags,
        { view.thread with
          eflags := none
          depth := view.thread.depth + 1
          entry :=
            if view.thread.depth = 0 then some view.cpu.flIf
            else view.thread.entry }⟩
  | popcli (free : view.thread.eflags = none) (positive : 1 ≤ view.cpu.ncli) :
      Effect view .popcli ⟨{ view.cpu with
          ncli := view.cpu.ncli - 1
          flIf := decide (view.cpu.ncli - 1 = 0 ∧ view.cpu.intena) },
        { view.thread with depth := view.thread.depth - 1 }⟩
  | xchg : Effect view .xchg view
  | unlock : Effect view .unlock view
  | interrupt (on : view.cpu.flIf = true) :
      Effect view .interrupt ⟨{ view.cpu with flIf := false },
        { view.thread with
          eflags := none
          frames := view.thread.eflags :: view.thread.frames }⟩
  | iret {eflags : Option Bool} {frames : List (Option Bool)}
      (interrupted : view.thread.frames = eflags :: frames)
      (outside : view.thread.depth = 0) :
      Effect view .iret ⟨{ view.cpu with flIf := true },
        { view.thread with eflags := eflags, frames := frames }⟩

theorem popcli_cases {cpu popped : Cpu} (done : cpu.popcli = .ok popped) :
    1 ≤ cpu.ncli ∧ popped = { cpu with
      ncli := cpu.ncli - 1
      flIf := decide (cpu.ncli - 1 = 0 ∧ cpu.intena) } := by
  unfold Cpu.popcli at done
  split at done
  · cases done
  split at done
  · cases done
  · cases done
    exact ⟨by omega, rfl⟩

theorem effect_of_exec (done : view.exec operation = some after) :
    Effect view operation after := by
  cases operation with
  | readeflags =>
      simp only [View.exec] at done
      split at done
      · cases done
        exact .readeflags
      · cases done
  | cli =>
      simp only [View.exec] at done
      obtain ⟨eflags, pending, rfl⟩ := Option.map_eq_some_iff.mp done
      exact .cli pending
  | popcli =>
      simp only [View.exec] at done
      split at done
      case isTrue free =>
          obtain ⟨cpu, popped, rfl⟩ := Option.map_eq_some_iff.mp done
          obtain ⟨positive, rfl⟩ := popcli_cases (ok_of_toOption popped)
          exact .popcli free positive
      case isFalse => cases done
  | xchg =>
      simp only [View.exec] at done
      split at done
      · cases done
        exact .xchg
      · cases done
  | unlock =>
      simp only [View.exec] at done
      split at done
      · cases done
        exact .unlock
      · cases done
  | interrupt =>
      simp only [View.exec] at done
      split at done
      case isTrue on =>
          cases done
          exact .interrupt on
      case isFalse => cases done
  | iret =>
      simp only [View.exec] at done
      split at done
      · cases done
      · rename_i eflags frames interrupted
        split at done
        case isTrue outside =>
            cases done
            exact .iret interrupted outside.2
        case isFalse => cases done

theorem Effect.nested (effect : Effect view operation after)
    (nested : Nested view) : Nested after := by
  obtain ⟨ncli, off, eflags, frames⟩ := nested
  cases effect with
  | readeflags =>
      refine ⟨ncli, off, ?_, frames⟩
      intro read same
      cases same
      rfl
  | cli pending =>
      refine ⟨?_, nofun, nofun, frames⟩
      change view.cpu.ncli + 1 = ((view.thread.depth + 1 : Nat) : Int)
      omega
  | popcli free positive =>
      refine ⟨?_, ?_, ?_, frames⟩
      · change view.cpu.ncli - 1 = ((view.thread.depth - 1 : Nat) : Int)
        omega
      · intro on
        have zero := (of_decide_eq_true on).1
        change view.thread.depth - 1 = 0
        omega
      · intro read pending
        rw [free] at pending
        cases pending
  | xchg => exact ⟨ncli, off, eflags, frames⟩
  | unlock => exact ⟨ncli, off, eflags, frames⟩
  | interrupt on =>
      refine ⟨ncli, nofun, nofun, ?_⟩
      intro member
      rcases List.mem_cons.mp member with same | older
      · have read := eflags false same.symm
        rw [on] at read
        cases read
      · exact frames older
  | iret interrupted outside =>
      rw [interrupted] at frames
      refine ⟨ncli, fun _ => outside, ?_, ?_⟩
      · intro old same
        cases old with
        | true => rfl
        | false =>
            cases same
            exact (frames List.mem_cons_self).elim
      · exact fun member => frames (List.mem_cons_of_mem _ member)

theorem Effect.restores (effect : Effect view operation after)
    (nested : Nested view) (restores : Restores view) : Restores after := by
  cases effect with
  | readeflags => exact restores
  | @cli eflags pending =>
      intro _
      change (if view.cpu.ncli = 0 then eflags else view.cpu.intena) =
        (if view.thread.depth = 0 then some view.cpu.flIf
          else view.thread.entry).getD true
      have ncli := nested.ncli
      by_cases zero : view.thread.depth = 0
      · rw [if_pos (by omega), if_pos zero]
        exact nested.eflags eflags pending
      · rw [if_neg (by omega), if_neg zero]
        exact restores (Nat.pos_of_ne_zero zero)
  | popcli =>
      intro deep
      change 0 < view.thread.depth - 1 at deep
      exact restores (by omega)
  | xchg => exact restores
  | unlock => exact restores
  | interrupt => exact restores
  | iret => exact restores

theorem Effect.intena (effect : Effect view operation after) :
    after.thread.intena = view.thread.intena := by
  cases effect <;> rfl

/-- Leaving the outermost section. -/
theorem Effect.leaves (effect : Effect view .popcli after)
    (nested : Nested view) (restores : Restores view)
    (last : view.thread.depth = 1) :
    after.thread.depth = 0 ∧
    after.cpu.flIf = view.thread.entry.getD true := by
  cases effect with
  | popcli =>
      have ncli := nested.ncli
      have zero : view.cpu.ncli - 1 = 0 := by omega
      rw [← restores (by omega)]
      dsimp only
      rw [last, zero]
      simp

/-- The outermost handler returns. -/
theorem Effect.returns (effect : Effect view operation after)
    (interrupted : view.thread.frames ≠ [])
    (clear : after.thread.frames = []) :
    after.thread.depth = 0 ∧ after.cpu.flIf = true := by
  cases effect with
  | iret _ outside => exact ⟨outside, rfl⟩
  | interrupt => cases clear
  | readeflags => exact (interrupted clear).elim
  | cli => exact (interrupted clear).elim
  | popcli => exact (interrupted clear).elim
  | xchg => exact (interrupted clear).elim
  | unlock => exact (interrupted clear).elim

/-! ## The scheduler -/

/-- What holds where `scheduler` is. -/
def Pc.Holds (view : View) : Pc → Prop
  | .top => Restores view ∧ (view.thread.frames = [] → view.thread.depth = 0)
  | .acquire =>
      Restores view ∧
      (view.thread.frames = [] →
        (view.thread.depth = 0 → view.cpu.flIf = true) ∧
        (0 < view.thread.depth → view.thread.entry = some true))
  | .locked =>
      Restores view ∧ view.thread.entry = some true ∧
      view.thread.frames = [] ∧ 0 < view.thread.depth
  | .switched => False
  | .back => view.thread.frames = [] ∧ 0 < view.thread.depth
  | .release => view.thread.frames = [] ∧ view.thread.depth = 1

/-- The handlers of interrupts do not disturb `scheduler`. -/
theorem Pc.Holds.handler {pc : Pc} (holds : pc.Holds view)
    (nested : Nested view) (interrupted : view.thread.frames ≠ [])
    (effect : Effect view operation after) : pc.Holds after := by
  cases pc with
  | top =>
      refine ⟨effect.restores nested holds.1, ?_⟩
      exact fun clear => (effect.returns interrupted clear).1
  | acquire =>
      refine ⟨effect.restores nested holds.1, ?_⟩
      intro clear
      obtain ⟨zero, on⟩ := effect.returns interrupted clear
      refine ⟨fun _ => on, ?_⟩
      intro deep
      omega
  | locked => exact (interrupted holds.2.2.1).elim
  | switched => exact holds
  | back => exact (interrupted holds.1).elim
  | release => exact (interrupted holds.1).elim

/-- An interrupt finds `scheduler` outside of its section. -/
theorem Pc.Holds.interrupt {pc : Pc} (holds : pc.Holds view)
    (nested : Nested view) (effect : Effect view .interrupt after) :
    pc.Holds after := by
  cases effect with
  | interrupt on =>
      have zero := nested.off on
      cases pc with
      | top => exact ⟨holds.1, nofun⟩
      | acquire => exact ⟨holds.1, nofun⟩
      | locked => exact absurd zero (Nat.ne_of_gt holds.2.2.2)
      | switched => exact holds
      | back => exact absurd zero (Nat.ne_of_gt holds.2)
      | release => exact absurd zero (by rw [holds.2]; exact Nat.one_ne_zero)

/-- The parts of `scheduler` that contain further calls. -/
theorem Pc.inner_cases {pc : Pc} (inner : pc ∈ [.acquire, .locked, .back]) :
    pc = .acquire ∨ pc = .locked ∨ pc = .back := by
  simpa using inner

/-- The code of `scheduler`. -/
theorem Pc.Holds.own {pc pc' : Pc} (holds : pc.Holds view)
    (nested : Nested view) (clear : view.thread.frames = [])
    (effect : Effect view operation after)
    (performed : pc.perform view.thread.depth operation = some pc') :
    pc'.Holds after := by
  have restores := effect.restores nested
  cases effect with
  | readeflags =>
      obtain ⟨inner, same⟩ := Option.ite_none_right_eq_some.mp performed
      cases same
      rcases Pc.inner_cases inner with rfl | rfl | rfl
      · exact ⟨restores holds.1, holds.2⟩
      · exact ⟨restores holds.1, holds.2⟩
      · exact holds
  | cli =>
      obtain ⟨inner, same⟩ := Option.ite_none_right_eq_some.mp performed
      cases same
      rcases Pc.inner_cases inner with rfl | rfl | rfl
      · obtain ⟨on, entry⟩ := holds.2 clear
        refine ⟨restores holds.1, fun _ => ⟨nofun, fun _ => ?_⟩⟩
        dsimp only
        split
        case isTrue zero => rw [on zero]
        case isFalse deep => exact entry (Nat.pos_of_ne_zero deep)
      · obtain ⟨old, entry, _, deep⟩ := holds
        refine ⟨restores old, ?_, clear, Nat.succ_pos _⟩
        dsimp only
        rw [if_neg (Nat.ne_of_gt deep), entry]
      · exact ⟨clear, Nat.succ_pos _⟩
  | popcli =>
      simp only [Pc.perform] at performed
      split at performed
      case isTrue last =>
          subst last
          cases performed
          have zero : view.thread.depth - 1 = 0 := by rw [holds.2]
          refine ⟨fun deep => ?_, fun _ => zero⟩
          exact absurd zero (Nat.ne_of_gt deep)
      case isFalse =>
          obtain ⟨⟨inner, more⟩, same⟩ :=
            Option.ite_none_right_eq_some.mp performed
          cases same
          have deep : 0 < view.thread.depth - 1 := by omega
          rcases Pc.inner_cases inner with rfl | rfl | rfl
          · obtain ⟨_, entry⟩ := holds.2 clear
            refine ⟨restores holds.1, fun _ => ⟨fun zero => ?_, fun _ => ?_⟩⟩
            · exact absurd zero (Nat.ne_of_gt deep)
            · exact entry (by omega)
          · exact ⟨restores holds.1, holds.2.1, clear, deep⟩
          · exact ⟨clear, deep⟩
  | xchg =>
      obtain ⟨⟨rfl, one⟩, same⟩ := Option.ite_none_right_eq_some.mp performed
      cases same
      have deep : 0 < view.thread.depth := by omega
      exact ⟨holds.1, (holds.2 clear).2 deep, clear, deep⟩
  | unlock =>
      obtain ⟨⟨_, one⟩, same⟩ := Option.ite_none_right_eq_some.mp performed
      cases same
      exact ⟨clear, one⟩
  | interrupt on =>
      cases performed
      exact holds.interrupt nested (.interrupt on)
  | iret => cases performed

/-! ## CPUs -/

/-- A process in `sched`, before `intena` is put back. -/
structure Suspended (thread : Thread) : Prop where
  eflags : thread.eflags = none
  frames : some false ∉ thread.frames
  depth : thread.depth = 1
  intena : thread.intena = some (thread.entry.getD true)

/-- A process that `scheduler` may switch to. -/
def Ready (thread : Thread) : Prop := thread = .new ∨ Suspended thread

/-- The stack of a process that runs. -/
def Runs (view : View) : Prop :=
  view.thread.intena = none ∧ Restores view ∨ Suspended view.thread

theorem Ready.nested {thread old : Thread} {cpu : Cpu} (ready : Ready thread)
    (nested : Nested ⟨cpu, old⟩) (depth : old.depth = 1) :
    Nested ⟨cpu, thread⟩ := by
  rcases ready with rfl | suspended
  · exact nested.transfer depth.symm rfl List.not_mem_nil
  · exact nested.transfer (by rw [suspended.depth, depth]) suspended.eflags
      suspended.frames

section Locals

variable {Process : Type} {here there : Local Process} {p : Process}
  {thread : Thread}

/-- What holds on a CPU: on the stack of `scheduler`, and on that of a process
while `scheduler` is in `swtch`. -/
def Local.Sound (here : Local Process) : Prop :=
  match here.proc with
  | none =>
      Nested ⟨here.cpu, here.scheduler⟩ ∧
      here.pc.Holds ⟨here.cpu, here.scheduler⟩
  | some (_, thread) =>
      Nested ⟨here.cpu, thread⟩ ∧ Runs ⟨here.cpu, thread⟩ ∧
      here.scheduler.eflags = none ∧ here.scheduler.frames = [] ∧
      here.scheduler.depth = 1

theorem Local.Sound.nested (sound : here.Sound) :
    Nested ⟨here.cpu, here.thread⟩ := by
  unfold Local.Sound at sound
  unfold Local.thread
  cases runs : here.proc <;> rw [runs] at sound <;> exact sound.1

theorem Local.Sound.code (sound : here.Sound)
    (done : here.code operation = some there) : there.Sound := by
  have nested := sound.nested
  unfold Local.Sound at sound
  unfold Local.code at done
  split at done
  · cases done
  · rename_i view p thread exec runs
    rw [runs] at sound
    obtain ⟨inside, same⟩ := Option.ite_none_right_eq_some.mp done
    cases same
    obtain ⟨_, intena, scheduler⟩ := sound
    have effect := effect_of_exec exec
    have stack : here.thread = thread := by
      unfold Local.thread
      rw [runs]
    rw [stack] at effect nested
    refine ⟨effect.nested nested, .inl ⟨?_, ?_⟩, scheduler⟩
    · exact effect.intena.trans inside
    · rcases intena with ⟨_, restores⟩ | suspended
      · exact effect.restores nested restores
      · rw [suspended.intena] at inside
        cases inside
  · rename_i view exec free
    rw [free] at sound
    obtain ⟨pc, followed, rfl⟩ := Option.map_eq_some_iff.mp done
    have effect := effect_of_exec exec
    have stack : here.thread = here.scheduler := by
      unfold Local.thread
      rw [free]
    rw [stack] at effect nested
    unfold Local.Sound
    dsimp only
    rw [free]
    refine ⟨effect.nested nested, ?_⟩
    split at followed
    case isTrue clear => exact sound.2.own nested clear effect followed
    case isFalse interrupted =>
        cases followed
        exact sound.2.handler nested interrupted effect

theorem Local.Sound.sti (sound : here.Sound) (done : here.sti = some there) :
    there.Sound := by
  unfold Local.Sound at sound
  obtain ⟨⟨idle, pc, frames, eflags⟩, same⟩ :=
    Option.ite_none_right_eq_some.mp done
  have free := Option.isNone_iff_eq_none.mp idle
  cases same
  rw [free, pc] at sound
  obtain ⟨nested, restores, outside⟩ := sound
  have zero := outside frames
  unfold Local.Sound
  dsimp only
  rw [free]
  refine ⟨⟨nested.ncli, fun _ => zero, ?_, nested.frames⟩, restores, ?_⟩
  · intro read pending
    rw [eflags] at pending
    cases pending
  · exact fun _ => ⟨fun _ => rfl, fun deep => absurd zero (Nat.ne_of_gt deep)⟩

theorem Local.Sound.swtch (sound : here.Sound) (ready : Ready thread)
    (done : here.swtch p thread = some there) : there.Sound := by
  unfold Local.Sound at sound
  obtain ⟨⟨idle, pc, depth, eflags⟩, same⟩ :=
    Option.ite_none_right_eq_some.mp done
  cases same
  rw [Option.isNone_iff_eq_none.mp idle, pc] at sound
  obtain ⟨nested, restores, entry, frames, deep⟩ := sound
  refine ⟨ready.nested nested depth, ?_, eflags, frames, depth⟩
  rcases ready with rfl | suspended
  · refine .inl ⟨rfl, fun _ => ?_⟩
    have intena := restores deep
    rw [entry] at intena
    exact intena
  · exact .inr suspended

theorem Local.Sound.sched (sound : here.Sound)
    (done : here.sched = some (p, thread, there)) :
    Suspended thread ∧ there.Sound := by
  unfold Local.Sound at sound
  unfold Local.sched at done
  split at done
  · cases done
  · rename_i q old runs
    rw [runs] at sound
    obtain ⟨⟨inside, eflags, ncli, _⟩, same⟩ :=
      Option.ite_none_right_eq_some.mp done
    cases same
    obtain ⟨nested, intena, clean, frames, depth⟩ := sound
    have deep : old.depth = 1 := by
      have counted := nested.ncli
      dsimp only at counted
      omega
    constructor
    · refine ⟨eflags, nested.frames, deep, congrArg some ?_⟩
      rcases intena with ⟨_, restores⟩ | suspended
      · exact restores (by dsimp only; omega)
      · rw [suspended.intena] at inside
        cases inside
    · refine ⟨nested.transfer (by rw [depth, deep]) clean ?_, frames, ?_⟩
      · rw [frames]
        exact List.not_mem_nil
      · dsimp only
        omega

theorem Local.Sound.restore (sound : here.Sound)
    (done : here.restore = some there) : there.Sound := by
  unfold Local.Sound at sound
  unfold Local.restore at done
  split at done
  · cases done
  · rename_i p thread runs
    rw [runs] at sound
    obtain ⟨saved, pending, rfl⟩ := Option.map_eq_some_iff.mp done
    obtain ⟨⟨ncli, off, eflags, frames⟩, intena, scheduler⟩ := sound
    refine ⟨⟨ncli, off, eflags, frames⟩, .inl ⟨rfl, fun _ => ?_⟩, scheduler⟩
    rcases intena with ⟨inside, _⟩ | suspended
    · rw [pending] at inside
      cases inside
    · rw [suspended.intena] at pending
      exact (Option.some.inj pending).symm

end Locals

/-! ## Runs -/

section Machines

variable {Id Process : Type} {m after : Machine Id Process}

/-- The stack of a process that waits for a CPU. -/
def Slot.thread? : Slot → Option Thread
  | .sleeping thread => some thread
  | .runnable thread => some thread
  | _ => none

def Slot.Sound (slot : Slot) : Prop :=
  ∀ thread, slot.thread? = some thread → Ready thread

theorem Change.sound {change : Change} {slot new : Slot} (sound : slot.Sound)
    (done : change.apply slot = some new) : new.Sound := by
  unfold Change.apply at done
  split at done
  case h_1 thread =>
      cases done
      exact sound
  case h_4 =>
      cases done
      intro thread same
      cases same
      exact .inl rfl
  all_goals
    cases done
  all_goals exact nofun

/-- What always holds. -/
structure Machine.Sound (m : Machine Id Process) : Prop where
  cpu : ∀ c, (m.cpu c).Sound
  slot : ∀ p, (m.slot p).Sound

theorem Machine.Initial.sound (initial : m.Initial) : m.Sound where
  cpu c := by
    obtain ⟨intena, entry, same⟩ := initial.cpu c
    rw [same]
    exact ⟨⟨rfl, nofun, nofun, List.not_mem_nil⟩, nofun, fun _ => rfl⟩
  slot p := by
    rcases initial.slot p with same | same
    · rw [same]
      exact nofun
    · rw [same]
      intro thread new
      cases new
      exact .inl rfl

theorem Machine.Sound.setCpu [DecidableEq Id] (sound : m.Sound) (c : Id)
    {here : Local Process} (new : here.Sound) : (m.setCpu c here).Sound where
  cpu := (Function.forall_update_iff m.cpu fun _ => Local.Sound).mpr
    ⟨new, fun d _ => sound.cpu d⟩
  slot := sound.slot

theorem Machine.Sound.setSlot [DecidableEq Process] (sound : m.Sound)
    (p : Process) {slot : Slot} (new : slot.Sound) :
    (m.setSlot p slot).Sound where
  cpu := sound.cpu
  slot := (Function.forall_update_iff m.slot fun _ => Slot.Sound).mpr
    ⟨new, fun q _ => sound.slot q⟩

variable [DecidableEq Id] [DecidableEq Process]

theorem code_cases {c : Id} {operation : Operation}
    (taken : m.next (.code c operation) = some after) :
    ∃ ptable here, (m.cpu c).code operation = some here ∧
      after = { m.setCpu c here with ptable := ptable } := by
  simp only [Machine.next] at taken
  split at taken
  · rename_i ptable here _ done
    cases taken
    exact ⟨ptable, here, done, rfl⟩
  · cases taken

theorem Machine.Sound.next (sound : m.Sound) {action : Action Id Process}
    (taken : m.next action = some after) : after.Sound := by
  cases action with
  | code c operation =>
      obtain ⟨ptable, here, done, rfl⟩ := code_cases taken
      have kept := sound.setCpu c ((sound.cpu c).code done)
      exact ⟨kept.cpu, kept.slot⟩
  | sti c =>
      obtain ⟨here, done, rfl⟩ := Option.map_eq_some_iff.mp taken
      exact sound.setCpu c ((sound.cpu c).sti done)
  | swtch c p =>
      simp only [Machine.next] at taken
      split at taken
      · rename_i thread waits
        obtain ⟨here, done, rfl⟩ := Option.map_eq_some_iff.mp taken
        have ready : Ready thread := by
          apply sound.slot p
          rw [waits]
          rfl
        have free := sound.setSlot p (show Slot.running.Sound from nofun)
        exact free.setCpu c ((sound.cpu c).swtch ready done)
      · cases taken
  | sched c leave =>
      obtain ⟨_, taken⟩ := Option.ite_none_right_eq_some.mp taken
      obtain ⟨⟨p, thread, here⟩, done, rfl⟩ := Option.map_eq_some_iff.mp taken
      obtain ⟨suspended, kept⟩ := (sound.cpu c).sched done
      have slot : (leave.slot thread).Sound := by
        intro other same
        cases leave with
        | yield =>
            cases same
            exact .inr suspended
        | sleep =>
            cases same
            exact .inr suspended
        | exit => cases same
      exact (sound.setSlot p slot).setCpu c kept
  | restore c =>
      obtain ⟨here, done, rfl⟩ := Option.map_eq_some_iff.mp taken
      exact sound.setCpu c ((sound.cpu c).restore done)
  | change c change p =>
      obtain ⟨_, taken⟩ := Option.ite_none_right_eq_some.mp taken
      obtain ⟨slot, done, rfl⟩ := Option.map_eq_some_iff.mp taken
      exact sound.setSlot p (change.sound (sound.slot p) done)

/-- A process leaves its outermost section. -/
theorem Machine.Sound.leaves (sound : m.Sound) {c : Id} {p : Process}
    {thread : Thread} (runs : (m.cpu c).proc = some (p, thread))
    (last : thread.depth = 1)
    (taken : m.next (.code c .popcli) = some after) :
    (after.cpu c).thread.depth = 0 ∧
    (after.cpu c).cpu.flIf = thread.entry.getD true := by
  obtain ⟨ptable, here, done, rfl⟩ := code_cases taken
  have before := sound.cpu c
  unfold Local.Sound at before
  rw [runs] at before
  obtain ⟨nested, intena, _⟩ := before
  unfold Local.code Local.thread at done
  rw [runs] at done
  split at done
  · cases done
  · rename_i view _ _ exec same
    cases same
    obtain ⟨inside, result⟩ := Option.ite_none_right_eq_some.mp done
    cases result
    have restores : Restores ⟨(m.cpu c).cpu, thread⟩ := by
      rcases intena with ⟨_, restores⟩ | suspended
      · exact restores
      · rw [suspended.intena] at inside
        cases inside
    have left := (effect_of_exec exec).leaves nested restores last
    change (Function.update m.cpu c _ c).thread.depth = 0 ∧
      (Function.update m.cpu c _ c).cpu.flIf = _
    rw [Function.update_self]
    exact left
  · rename_i same
    cases same

end Machines

/-- Two CPUs and one process. -/
def booted : Machine Bool Unit where
  cpu _ := ⟨⟨0, false, false⟩, .top, ⟨none, [], none, 0, none⟩, none⟩
  slot _ := .runnable .new
  ptable := none

end Xv6.Interrupts
