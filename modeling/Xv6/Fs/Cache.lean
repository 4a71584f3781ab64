import Mathlib.Algebra.Group.Pi.Basic
import Xv6.Fs.Contents

/-!
# References and locks of cached inodes

Between the system calls a slot that was read agrees with the disk, so that
the kernel sees the inodes of the disk.  Looking at files only moves
references and locks.  The specifications below say how, for every function
that path resolution uses.
-/

namespace Xv6.Fs

open Lib

namespace State

/-- The references of an inode. -/
def refs (state : State) (x : Nat) : Nat :=
  ((state.cached x).map Inode.ref).getD 0

/-- The lock of an inode is held. -/
def locks (state : State) (x : Nat) : Bool :=
  ((state.cached x).map Inode.locked).getD false

/-- The inodes of the disk. -/
def files (state : State) (sb : Superblock) : Store := storeOf sb state.disk

end State

/-- Every slot that was read agrees with the disk, and whoever holds a lock
has read the inode. -/
structure Settled (sb : Superblock) (state : State) : Prop where
  good : Good sb state
  synced : ∀ x ip, state.cached x = some ip → ip.valid = true →
    ip.dinode = (state.files sb).inode x
  loaded : ∀ x ip, state.cached x = some ip → ip.locked = true →
    ip.valid = true

/-- Nothing but references and locks has moved. -/
structure Moves (sb : Superblock) (refs : Nat → Nat) (locks : Nat → Bool)
    (state after : State) : Prop where
  settled : Settled sb after
  disk : after.disk = state.disk
  devsw : after.devsw = state.devsw
  fssize : after.fssize = state.fssize
  journal : after.journal = state.journal
  refs : after.refs = refs
  locks : after.locks = locks

variable {sb : Superblock} {state after last : State} {x y : Nat} {ip : Inode}
  {refs refs' : Nat → Nat} {locks locks' : Nat → Bool}

theorem State.refs_of_cached (cached : state.cached x = some ip) :
    state.refs x = ip.ref := by
  unfold State.refs
  rw [cached]
  rfl

theorem State.locks_of_cached (cached : state.cached x = some ip) :
    state.locks x = ip.locked := by
  unfold State.locks
  rw [cached]
  rfl

theorem State.cached_of_refs (some : state.refs x ≠ 0) :
    ∃ ip, state.cached x = .some ip ∧ ip.ref = state.refs x := by
  unfold State.refs at *
  cases found : state.cached x with
  | none =>
      rw [found] at some
      exact (some rfl).elim
  | some ip => exact ⟨ip, rfl, rfl⟩

theorem State.cached_of_locks (locked : state.locks x = true) :
    ∃ ip, state.cached x = .some ip ∧ ip.locked = true := by
  unfold State.locks at *
  cases found : state.cached x with
  | none =>
      rw [found] at locked
      cases locked
  | some ip =>
      rw [found] at locked
      exact ⟨ip, rfl, locked⟩

namespace Settled

theorem dinode (settled : Settled sb state) (x : Nat) :
    state.dinode sb x = (state.files sb).inode x := by
  unfold State.dinode
  split
  · rename_i ip cached
    split
    · rename_i valid
      exact settled.synced x ip cached valid
    · rfl
  · rfl

theorem store (settled : Settled sb state) :
    state.store sb = state.files sb := by
  apply Store.ext
  · funext x
    exact settled.dinode x
  · rfl

theorem number (settled : Settled sb state) (some : state.refs x ≠ 0) :
    x < sb.ninodes.toNat := by
  obtain ⟨ip, cached, _⟩ := State.cached_of_refs some
  rw [← State.inum_of_cached cached]
  exact settled.good.numbers ip (State.mem_of_cached cached)

/-- Whoever holds the lock works on the inode of the disk. -/
theorem held (settled : Settled sb state) (locked : state.locks x = true) :
    ∃ ip, Held state x ip ∧ ip.locked = true ∧ ip.ref = state.refs x ∧
      ip.dinode = (state.files sb).inode x := by
  obtain ⟨ip, cached, locked⟩ := State.cached_of_locks locked
  have valid := settled.loaded x ip cached locked
  exact ⟨ip, ⟨cached, valid⟩, locked, (State.refs_of_cached cached).symm,
    settled.synced x ip cached valid⟩

theorem moves (settled : Settled sb state) :
    Moves sb state.refs state.locks state state :=
  ⟨settled, rfl, rfl, rfl, rfl, rfl, rfl⟩

end Settled

theorem Moves.trans (first : Moves sb refs locks state after)
    (second : Moves sb refs' locks' after last) :
    Moves sb refs' locks' state last where
  settled := second.settled
  disk := second.disk.trans first.disk
  devsw := second.devsw.trans first.devsw
  fssize := second.fssize.trans first.fssize
  journal := second.journal.trans first.journal
  refs := second.refs
  locks := second.locks

theorem Moves.files (moves : Moves sb refs locks state after) :
    after.files sb = state.files sb := by
  unfold State.files
  rw [moves.disk]

/-! ## Changing the slots -/

/-- The state with other slots. -/
def State.recached (state : State) (icache : List Inode) : State :=
  { state with icache := icache }

/-- A slot that may be relied on. -/
structure Slot (sb : Superblock) (state : State) (x : Nat) (ip : Inode) :
    Prop where
  synced : ip.valid = true → ip.dinode = (state.files sb).inode x
  loaded : ip.locked = true → ip.valid = true

theorem Settled.slot (settled : Settled sb state)
    (cached : state.cached x = some ip) : Slot sb state x ip :=
  ⟨settled.synced x ip cached, settled.loaded x ip cached⟩

theorem Settled.recached (settled : Settled sb state) {icache : List Inode}
    (slots : ∀ y ip, (state.recached icache).cached y = some ip →
      Slot sb state y ip)
    (distinct : (icache.map Inode.inum).Nodup)
    (numbers : ∀ ip ∈ icache, ip.inum < sb.ninodes.toNat)
    (used : ∀ ip ∈ icache, ip.ref ≠ 0) :
    Settled sb (state.recached icache) := by
  have dinode : ∀ y, (state.recached icache).dinode sb y =
      state.dinode sb y := by
    intro y
    rw [settled.dinode]
    unfold State.dinode
    split
    · rename_i ip found
      split
      · rename_i valid
        exact (slots y ip found).synced valid
      · rfl
    · rfl
  have store : (state.recached icache).store sb = state.store sb := by
    apply Store.ext
    · funext y
      exact dinode y
    · rfl
  refine ⟨⟨settled.good.layout, settled.good.size, settled.good.reserved, ?_,
    distinct, numbers, used⟩, fun y ip found => (slots y ip found).synced,
    fun y ip found => (slots y ip found).loaded⟩
  rw [store]
  exact settled.good.owns

theorem Settled.moves_recached {icache : List Inode} {new : Option Inode}
    (settled : Settled sb (state.recached icache))
    (own : (state.recached icache).cached x = new)
    (others : ∀ y, y ≠ x →
      (state.recached icache).cached y = state.cached y) :
    Moves sb (Function.update state.refs x ((new.map Inode.ref).getD 0))
      (Function.update state.locks x ((new.map Inode.locked).getD false))
      state (state.recached icache) where
  settled := settled
  disk := rfl
  devsw := rfl
  fssize := rfl
  journal := rfl
  refs := by
    funext y
    unfold State.refs
    by_cases same : y = x
    · rw [same, Function.update_self, own]
    · rw [Function.update_of_ne same, others y same]
  locks := by
    funext y
    unfold State.locks
    by_cases same : y = x
    · rw [same, Function.update_self, own]
    · rw [Function.update_of_ne same, others y same]

/-- One slot changes and may still be relied on. -/
theorem Settled.assigned (settled : Settled sb state)
    (cached : state.cached x = some ip) (change : Inode → Inode)
    (inum : ∀ ip, (change ip).inum = ip.inum)
    (ref : ∀ ip, ip.ref ≠ 0 → (change ip).ref ≠ 0)
    (slot : Slot sb state x (change ip)) :
    Moves sb (Function.update state.refs x (change ip).ref)
      (Function.update state.locks x (change ip).locked) state
      (state.assigned x change) := by
  have own := State.cached_assigned_self cached inum
  have others : ∀ y, y ≠ x →
      (state.assigned x change).cached y = state.cached y :=
    fun y different => State.cached_assigned_of_ne different inum
  have settled' : Settled sb (state.assigned x change) := by
    apply settled.recached
    · intro y new found
      by_cases same : y = x
      · subst y
        cases own.symm.trans found
        exact slot
      · exact settled.slot ((others y same).symm.trans found)
    · change ((state.assigned x change).icache.map Inode.inum).Nodup
      rw [State.inums_assigned inum]
      exact settled.good.distinct
    · intro new member
      obtain ⟨old, oldMember, same, _⟩ := State.mem_assigned inum member
      rw [same]
      exact settled.good.numbers old oldMember
    · intro new member
      obtain ⟨old, oldMember, _, same | ⟨_, same⟩⟩ :=
        State.mem_assigned inum member
      · rw [same]
        exact settled.good.used old oldMember
      · rw [same]
        exact ref old (settled.good.used old oldMember)
  exact Settled.moves_recached settled' own others

theorem update_add_one (refs : Nat → Nat) (x : Nat) :
    Function.update refs x (refs x + 1) = refs + Pi.single x 1 := by
  funext y
  by_cases same : y = x
  · subst y
    rw [Function.update_self, Pi.add_apply, Pi.single_eq_same]
  · rw [Function.update_of_ne same, Pi.add_apply, Pi.single_eq_of_ne same,
      Nat.add_zero]

theorem State.refs_of_none (none : state.cached x = none) :
    state.refs x = 0 := by
  unfold State.refs
  rw [none]
  rfl

/-- A new slot. -/
theorem Settled.appended (settled : Settled sb state)
    (inside : x < sb.ninodes.toNat) (none : state.cached x = none) :
    Moves sb (state.refs + Pi.single x 1) state.locks state
      (state.recached
        (state.icache ++ [⟨x, 1, false, false, Dinode.zero⟩])) := by
  generalize new_eq : (⟨x, 1, false, false, Dinode.zero⟩ : Inode) = new
  have cached : ∀ y, (state.recached (state.icache ++ [new])).cached y =
      (state.cached y).or (if x = y then some new else .none) := by
    intro y
    unfold State.cached State.recached
    rw [List.find?_append, List.find?_singleton, ← new_eq]
    simp
  have own : (state.recached (state.icache ++ [new])).cached x =
      some new := by
    rw [cached, none, if_pos rfl]
    rfl
  have others : ∀ y, y ≠ x →
      (state.recached (state.icache ++ [new])).cached y = state.cached y := by
    intro y different
    rw [cached, if_neg (Ne.symm different), Option.or_none]
  have absent : x ∉ state.icache.map Inode.inum := by
    intro member
    obtain ⟨ip, listed, number⟩ := List.mem_map.mp member
    have wrong := List.find?_eq_none.mp none ip listed
    simp [number] at wrong
  have settled' : Settled sb (state.recached (state.icache ++ [new])) := by
    apply settled.recached
    · intro y ip found
      by_cases same : y = x
      · subst y
        cases own.symm.trans found
        rw [← new_eq]
        exact ⟨nofun, nofun⟩
      · exact settled.slot ((others y same).symm.trans found)
    · rw [List.map_append, List.nodup_append]
      refine ⟨settled.good.distinct, List.nodup_singleton _, ?_⟩
      intro number listed other single same
      rw [List.map_singleton, List.mem_singleton, ← new_eq] at single
      rw [same, single] at listed
      exact absent listed
    · intro ip member
      rcases List.mem_append.mp member with member | member
      · exact settled.good.numbers ip member
      · rw [List.mem_singleton.mp member, ← new_eq]
        exact inside
    · intro ip member
      rcases List.mem_append.mp member with member | member
      · exact settled.good.used ip member
      · rw [List.mem_singleton.mp member, ← new_eq]
        exact one_ne_zero
  have moves := Settled.moves_recached settled' own others
  have unlocked : Function.update state.locks x false = state.locks := by
    apply Function.update_eq_iff.mpr
    refine ⟨?_, fun _ _ => rfl⟩
    unfold State.locks
    rw [none]
    rfl
  rw [← new_eq] at moves ⊢
  dsimp only [Option.map_some, Option.getD_some] at moves
  rw [unlocked] at moves
  rw [← update_add_one, State.refs_of_none none]
  exact moves

/-! ## Changing an inode -/

section Frame

variable {dinode : Dinode} (frame : Frame x dinode state after)
  (held : Held state x ip)

include frame held

theorem Frame.refs_eq : after.refs = state.refs := by
  funext y
  by_cases same : y = x
  · rw [same, State.refs_of_cached (frame.own ip held.cached),
      State.refs_of_cached held.cached]
  · unfold State.refs
    rw [frame.others y same]

theorem Frame.locks_eq : after.locks = state.locks := by
  funext y
  by_cases same : y = x
  · rw [same, State.locks_of_cached (frame.own ip held.cached),
      State.locks_of_cached held.cached]
  · unfold State.locks
    rw [frame.others y same]

/-- An inode that was changed and written back. -/
theorem Frame.settled (settled : Settled sb state) (good : Good sb after)
    (others : ∀ y, y ≠ x →
      (after.files sb).inode y = (state.files sb).inode y)
    (own : (after.files sb).inode x = dinode) : Settled sb after := by
  have slot : ∀ y new, after.cached y = some new →
      (y = x ∧ new = { ip with dinode := dinode }) ∨
        (y ≠ x ∧ state.cached y = some new) := by
    intro y new found
    by_cases same : y = x
    · subst y
      rw [frame.own ip held.cached] at found
      exact .inl ⟨rfl, (Option.some.inj found).symm⟩
    · exact .inr ⟨same, (frame.others y same).symm.trans found⟩
  refine ⟨good, ?_, ?_⟩
  · intro y new found valid
    rcases slot y new found with ⟨rfl, rfl⟩ | ⟨different, old⟩
    · exact own.symm
    · rw [others y different]
      exact settled.synced y new old valid
  · intro y new found locked
    rcases slot y new found with ⟨rfl, rfl⟩ | ⟨different, old⟩
    · exact held.valid
    · exact settled.loaded y new old locked

end Frame

/-! ## The functions -/

section Functions

variable {post : Unit → State → Prop} {fault : Fault → Prop}

/-- One more reference to a slot in use. -/
theorem Settled.referenced (settled : Settled sb state)
    (cached : state.cached x = some ip) :
    Moves sb (state.refs + Pi.single x 1) state.locks state
      (state.assigned x fun ip => { ip with ref := ip.ref + 1 }) := by
  have slot := settled.slot cached
  have moves := settled.assigned cached
    (fun ip => { ip with ref := ip.ref + 1 }) (fun _ => rfl)
    (fun ip _ => Nat.succ_ne_zero _) ⟨slot.synced, slot.loaded⟩
  dsimp only at moves
  rw [← State.locks_of_cached cached, Function.update_eq_self] at moves
  rw [← update_add_one, State.refs_of_cached cached]
  exact moves

/-- There is no slot for another inode. -/
structure CacheFull (state : State) (reason : Fault) : Prop where
  reason : reason = .panic "iget: no inodes"
  full : ninode ≤ state.icache.length

theorem iget_spec (settled : Settled sb state) (inside : x < sb.ninodes.toNat) :
    wp (iget x)
      (fun result after => result = x ∧
        Moves sb (state.refs + Pi.single x 1) state.locks state after)
      (CacheFull state) state := by
  unfold iget
  apply wp_bind.mpr
  apply wp_get.mpr
  cases found : state.cached x with
  | some ip =>
      dsimp only
      apply wp_bind.mpr
      apply assign_spec
      exact wp_pure.mpr ⟨rfl, settled.referenced found⟩
  | none =>
      dsimp only
      split
      · apply wp_bind.mpr
        apply wp_set.mpr
        apply wp_pure.mpr
        exact ⟨rfl, settled.appended inside found⟩
      · rename_i full
        exact wp_throw.mpr ⟨rfl, Nat.le_of_not_lt full⟩

theorem State.assigned_assigned {first second : Inode → Inode}
    (inum : ∀ ip, (first ip).inum = ip.inum) :
    (state.assigned x first).assigned x second =
      state.assigned x fun ip => second (first ip) := by
  unfold State.assigned
  dsimp only
  rw [List.map_map]
  congr 1
  apply List.map_congr_left
  intro ip _
  rw [Function.comp]
  by_cases isX : ip.inum = x
  · rw [if_pos isX, if_pos ((inum ip).trans isX), if_pos isX]
  · rw [if_neg isX, if_neg isX, if_neg isX]

/-- A slot is locked and has been read. -/
theorem Settled.locked {change : Inode → Inode} (settled : Settled sb state)
    (cached : state.cached x = some ip)
    (inum : ∀ ip, (change ip).inum = ip.inum)
    (ref : ∀ ip, (change ip).ref = ip.ref)
    (valid : (change ip).valid = true) (locked : (change ip).locked = true)
    (dinode : (change ip).dinode = (state.files sb).inode x) :
    Moves sb state.refs (Function.update state.locks x true) state
      (state.assigned x change) := by
  have moves := settled.assigned cached change inum
    (fun ip used => by rw [ref]; exact used)
    ⟨fun _ => dinode, fun _ => valid⟩
  rw [ref, ← State.refs_of_cached cached, Function.update_eq_self,
    locked] at moves
  exact moves

theorem acquiresleep_spec (cached : state.cached x = some ip)
    (free : ip.locked = false)
    (next : post () (state.assigned x fun ip => { ip with locked := true })) :
    wp (acquiresleep x) post fault state := by
  unfold acquiresleep
  apply wp_bind.mpr
  apply fetch_spec cached
  rw [free, if_neg Bool.false_ne_true]
  exact assign_spec next

theorem ilock_spec (settled : Settled sb state) (some : state.refs x ≠ 0)
    (free : state.locks x = false)
    (allocated : ((state.files sb).inode x).allocated) :
    wp (ilock sb x)
      (fun _ after =>
        Moves sb state.refs (Function.update state.locks x true) state after)
      (fun _ => False) state := by
  obtain ⟨ip, cached, _⟩ := State.cached_of_refs some
  rw [State.locks_of_cached cached] at free
  have own : (state.assigned x fun ip => { ip with locked := true }).cached x =
      .some { ip with locked := true } :=
    State.cached_assigned_self cached fun _ => rfl
  unfold ilock
  apply wp_bind.mpr
  apply wp_get.mpr
  rw [if_pos (by rw [cached]; rfl)]
  apply wp_bind.mpr
  apply acquiresleep_spec cached free
  apply wp_bind.mpr
  apply fetch_spec own
  by_cases valid : ip.valid
  · rw [if_pos valid]
    apply wp_pure.mpr
    exact settled.locked cached (fun _ => rfl) (fun _ => rfl) valid rfl
      (settled.synced x ip cached valid)
  · rw [if_neg valid]
    have inside := settled.number some
    have dinode : (state.files sb).inode x =
        getDinode (state.disk (iblock sb x)) x := if_pos inside
    unfold iload
    apply wp_bind.mpr
    refine bread_spec ?_ ?_
    · exact settled.good.iblock_lt_fssize inside
    apply wp_bind.mpr
    apply assign_spec
    have typed : (getDinode (state.disk (iblock sb x)) x).type ≠ 0 := by
      rw [← dinode]
      exact of_decide_eq_true allocated
    rw [State.disk_assigned, if_neg typed]
    apply wp_pure.mpr
    rw [State.assigned_assigned]
    · exact settled.locked cached (fun _ => rfl) (fun _ => rfl) rfl rfl
        dinode.symm
    · intro ip
      rfl

theorem iunlock_spec (settled : Settled sb state)
    (locked : state.locks = Function.update locks x true)
    (free : locks x = false) :
    wp (iunlock x)
      (fun _ after => Moves sb state.refs locks state after)
      (fun _ => False) state := by
  have back : Function.update state.locks x false = locks := by
    rw [locked, Function.update_idem, ← free, Function.update_eq_self]
  obtain ⟨ip, cached, locked⟩ := State.cached_of_locks (x := x)
    (by rw [locked, Function.update_self])
  unfold iunlock
  apply wp_bind.mpr
  apply wp_get.mpr
  rw [cached]
  dsimp only
  rw [if_pos locked]
  apply assign_spec
  have moves := settled.assigned cached
    (fun ip => { ip with locked := false }) (fun _ => rfl)
    (fun _ used => used) ⟨(settled.slot cached).synced, nofun⟩
  dsimp only at moves
  rw [← State.refs_of_cached cached, Function.update_eq_self, back] at moves
  exact moves

/-! ## Dropping a reference -/

end Functions

end Xv6.Fs
