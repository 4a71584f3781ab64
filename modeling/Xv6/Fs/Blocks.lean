import Xv6.Fs.Kernel

/-!
# Allocating blocks

`balloc` finds the first block that is not marked, which lies in the data
area, and `bmap` puts it into a place of an inode that had no block.  Whoever
needs a block can only fail because there is none left.
-/

namespace Xv6.Fs

open Lib

variable {sb : Superblock} {state : State} {x b bn : Nat} {ip : Inode}

section Steps

variable {α : Type} {post : α → State → Prop} {fault : Fault → Prop}

theorem bread_spec {post : Bytes → State → Prop} (inside : b < state.fssize)
    (next : post (state.disk b) state) : wp (bread b) post fault state := by
  unfold bread
  apply wp_bind.mpr
  apply wp_get.mpr
  rw [if_pos inside]
  exact wp_pure.mpr next

theorem logWrite_spec {post : Unit → State → Prop} {data : Bytes}
    (next : post () (state.written b data)) :
    wp (logWrite b data) post fault state :=
  wp_modify.mpr next

theorem fetch_spec {post : Inode → State → Prop}
    (cached : state.cached x = some ip) (next : post ip state) :
    wp (fetch x) post fault state := by
  unfold fetch
  apply wp_bind.mpr
  apply wp_get.mpr
  simp only [cached]
  exact wp_pure.mpr next

theorem assign_spec {post : Unit → State → Prop} {change : Inode → Inode}
    (next : post () (state.assigned x change)) :
    wp (assign x change) post fault state :=
  wp_modify.mpr next

end Steps

/-! ## The bitmap -/

/-- What `balloc` does with the block that it returns. -/
structure Allocated (sb : Superblock) (state : State) (b : Nat)
    (after : State) : Prop where
  inside : sb.Area b
  free : ¬ Marked sb state.disk b
  after : after = (state.written (bblock sb b)
    (setBit (state.disk (bblock sb b)) (b % bpb))).written b zeroes

/-- There is no free block left. -/
structure OutOfBlocks (sb : Superblock) (state : State) (needed : Nat)
    (reason : Fault) : Prop where
  reason : reason = .panic "balloc: out of blocks"
  short : freeBlocks sb state.disk < needed

private theorem bitmap_block (sb : Superblock) (i : Nat) {bi : Nat}
    (inside : bi < bpb) :
    bblock sb (i * bpb + bi) = bblock sb (i * bpb) ∧
      (i * bpb + bi) % bpb = bi := by
  unfold bblock
  unfold bpb bsize at *
  omega

theorem ballocLoop_spec (good : Good sb state) {indices : List Nat}
    (inside : ∀ i ∈ indices, i * bpb < sb.size.toNat) :
    wp (ballocLoop sb (indices.map fun i => i * bpb))
      (Allocated sb state)
      (fun reason => reason = .panic "balloc: out of blocks" ∧
        ∀ i ∈ indices, ∀ bi, bi < bpb → i * bpb + bi < sb.size.toNat →
          Marked sb state.disk (i * bpb + bi))
      state := by
  induction indices with
  | nil => exact wp_throw.mpr ⟨rfl, nofun⟩
  | cons i indices induction =>
      have start := inside i List.mem_cons_self
      rw [List.map_cons, ballocLoop]
      apply wp_bind.mpr
      apply bread_spec (good.bblock_lt_fssize start)
      dsimp only
      split
      · rename_i bi found
        have listed := List.mem_of_find?_eq_some found
        have clear := List.find?_some found
        rw [List.mem_range, Nat.lt_min] at listed
        rw [Bool.not_eq_true'] at clear
        obtain ⟨block, bit⟩ := bitmap_block sb i listed.1
        have small : i * bpb + bi < sb.size.toNat := by omega
        have free : ¬ Marked sb state.disk (i * bpb + bi) := by
          rintro ⟨_, set⟩
          rw [block, bit, clear] at set
          cases set
        have area : sb.Area (i * bpb + bi) := by
          refine ⟨?_, small⟩
          by_contra early
          exact free (good.reserved _ (Nat.lt_of_not_le early))
        apply wp_bind.mpr
        apply logWrite_spec
        apply wp_bind.mpr
        unfold bzero
        apply wp_bind.mpr
        refine bread_spec ?_ ?_
        · exact good.data_lt_fssize area
        apply logWrite_spec
        apply wp_pure.mpr
        refine ⟨area, free, ?_⟩
        rw [block, bit]
      · rename_i none
        apply (induction fun j member =>
          inside j (List.mem_cons_of_mem i member)).mono
        · exact fun _ _ => id
        · rintro reason ⟨panics, marked⟩
          refine ⟨panics, ?_⟩
          intro j member bi inBlock small
          rcases List.mem_cons.mp member with rfl | member
          · obtain ⟨block, bit⟩ := bitmap_block sb j inBlock
            have set := List.find?_eq_none.mp none bi
              (List.mem_range.mpr (by omega))
            refine ⟨small, ?_⟩
            rw [block, bit]
            simpa using set
          · exact marked j member bi inBlock small

theorem balloc_spec (good : Good sb state) :
    wp (balloc sb) (Allocated sb state) (OutOfBlocks sb state 1) state := by
  unfold balloc
  apply (ballocLoop_spec good _).mono
  · exact fun _ _ => id
  · rintro reason ⟨panics, marked⟩
    refine ⟨panics, ?_⟩
    unfold freeBlocks
    rw [Nat.lt_one_iff, Finset.card_eq_zero, Finset.filter_eq_empty_iff]
    intro b member free
    have small := Finset.mem_range.mp member
    apply free
    have split := Nat.div_add_mod' b bpb
    rw [← split]
    apply marked
    · rw [List.mem_range]
      unfold bpb bsize
      omega
    · exact Nat.mod_lt b (by decide)
    · rw [split]
      exact small
  · intro i member
    rw [List.mem_range] at member
    unfold bpb bsize at *
    omega

section Effect

variable {after : State}

theorem Allocated.store (allocated : Allocated sb state b after)
    (layout : Layout sb) :
    after.store sb = (state.store sb).setData b zeroes := by
  rw [allocated.after, State.store_write_data layout allocated.inside,
    State.store_write_bitmap layout allocated.inside.2]

theorem Allocated.marked (allocated : Allocated sb state b after)
    (layout : Layout sb) :
    Marked sb after.disk = fun c => c = b ∨ Marked sb state.disk c := by
  rw [allocated.after]
  exact (marked_write_data layout allocated.inside _).trans
    (marked_setBit allocated.inside.2)

theorem Allocated.inodes (allocated : Allocated sb state b after)
    (layout : Layout sb) :
    (storeOf sb after.disk).inode = (storeOf sb state.disk).inode := by
  rw [allocated.after]
  unfold State.written
  dsimp only
  rw [storeOf_write_data layout allocated.inside,
    storeOf_write_bitmap layout allocated.inside.2]
  rfl

theorem Allocated.icache (allocated : Allocated sb state b after) :
    after.icache = state.icache := by
  rw [allocated.after]
  rfl

theorem Allocated.devsw (allocated : Allocated sb state b after) :
    after.devsw = state.devsw := by
  rw [allocated.after]
  rfl

theorem Allocated.fssize (allocated : Allocated sb state b after) :
    after.fssize = state.fssize := by
  rw [allocated.after]
  rfl

theorem Allocated.journal (allocated : Allocated sb state b after) :
    after.journal =
      { state.journal with
        logged := b :: bblock sb b :: state.journal.logged } := by
  rw [allocated.after]
  rfl

end Effect

/-! ## The blocks of an inode -/

/-- The blocks that were passed to `log_write` belong to some places of an
inode or are the part of the bitmap for a new block of it. -/
def Logs (sb : Superblock) (x : Nat) (places fresh : List Place)
    (state after : State) : Prop :=
  ∀ b ∈ after.journal.logged, b ∈ state.journal.logged ∨
    (∃ p ∈ places, (after.store sb).address (x, p) = b ∧ b ≠ 0) ∨
    ∃ p ∈ fresh, b = bblock sb ((after.store sb).address (x, p))

/-- In memory only the copy of one inode changes. -/
structure Frame (x : Nat) (dinode : Dinode) (state after : State) : Prop where
  own : ∀ ip, state.cached x = some ip →
    after.cached x = some { ip with dinode := dinode }
  others : ∀ y, y ≠ x → after.cached y = state.cached y
  slots : after.icache.length = state.icache.length
  devsw : after.devsw = state.devsw
  fssize : after.fssize = state.fssize
  journal : after.journal =
    { state.journal with logged := after.journal.logged }

/-- What the kernel does with the blocks and contents of one inode that it has
read, before it writes that inode back. -/
structure Extended (sb : Superblock) (x : Nat) (places fresh : List Place)
    (contents : Nat → UInt8) (state after : State) : Prop extends
    Frame x (after.dinode sb x) state after where
  good : Good sb after
  changes : (state.store sb).Changes (after.store sb) x fresh contents
  inodes : (storeOf sb after.disk).inode = (storeOf sb state.disk).inode
  logs : Logs sb x places fresh state after
  free : freeBlocks sb state.disk = freeBlocks sb after.disk + fresh.length

/-- New blocks for a file that reads as before. -/
structure Grown (sb : Superblock) (x : Nat) (places fresh : List Place)
    (state after : State) : Prop where
  extended : Extended sb x places fresh ((state.store sb).byte x) state after
  same : fresh = [] → after = state

/-- The place of an inode has a block now, and the code has its address. -/
structure Mapped (sb : Superblock) (x : Nat) (p : Place)
    (places fresh : List Place) (state : State) (addr : Nat)
    (after : State) : Prop where
  grown : Grown sb x places fresh state after
  address : (after.store sb).address (x, p) = addr
  some : addr ≠ 0

section Relations

variable {after last : State} {places places' fresh fresh' : List Place}
  {contents contents' : Nat → UInt8}

theorem Frame.trans {dinode dinode' : Dinode}
    (first : Frame x dinode state after)
    (second : Frame x dinode' after last) : Frame x dinode' state last where
  own ip cached := by
    rw [second.own _ (first.own ip cached)]
  others y different := by
    rw [second.others y different, first.others y different]
  slots := second.slots.trans first.slots
  devsw := second.devsw.trans first.devsw
  fssize := second.fssize.trans first.fssize
  journal := by
    rw [second.journal, first.journal]

theorem Extended.held
    (extended : Extended sb x places fresh contents state after)
    (held : Held state x ip) :
    Held after x { ip with dinode := after.dinode sb x } :=
  ⟨extended.own ip held.cached, held.valid⟩

theorem Extended.allocated
    (extended : Extended sb x places fresh contents state after) :
    (after.dinode sb x).allocated = (state.dinode sb x).allocated := by
  have fields := extended.changes.fields
  change after.dinode sb x = _ at fields
  rw [fields]
  rfl

theorem Extended.logs_trans
    (first : Extended sb x places fresh contents state after)
    (second : Extended sb x places' fresh' contents' after last) :
    Logs sb x (places ++ places') (fresh ++ fresh') state last := by
  intro b member
  rcases second.logs b member with early | ⟨p, listed, owned⟩ | ⟨p, new, part⟩
  · rcases first.logs b early with old | ⟨p, listed, owned, some⟩ |
      ⟨p, new, part⟩
    · exact .inl old
    · refine .inr (.inl ⟨p, List.mem_append_left _ listed, ?_, some⟩)
      rw [second.changes.keeps (by rw [owned]; exact some), owned]
    · refine .inr (.inr ⟨p, List.mem_append_left _ new, ?_⟩)
      rw [second.changes.keeps (first.changes.filled p new), part]
  · exact .inr (.inl ⟨p, List.mem_append_right _ listed, owned⟩)
  · exact .inr (.inr ⟨p, List.mem_append_right _ new, part⟩)

theorem Extended.trans
    (first : Extended sb x places fresh contents state after)
    (second : Extended sb x places' fresh' contents' after last) :
    Extended sb x (places ++ places') (fresh ++ fresh') contents' state
      last where
  toFrame := first.toFrame.trans second.toFrame
  good := second.good
  changes := first.changes.trans second.changes
  inodes := second.inodes.trans first.inodes
  logs := first.logs_trans second
  free := by
    rw [first.free, second.free, List.length_append]
    omega

theorem Extended.widen
    (extended : Extended sb x places fresh contents state after)
    (wider : places ⊆ places') :
    Extended sb x places' fresh contents state after :=
  { extended with
    logs := by
      intro b member
      rcases extended.logs b member with early | ⟨p, listed, owned⟩ | part
      · exact .inl early
      · exact .inr (.inl ⟨p, wider listed, owned⟩)
      · exact .inr (.inr part) }

theorem Extended.congr
    (extended : Extended sb x places fresh contents state after)
    (same : ∀ offset, offset / bsize < maxfile →
      contents offset = contents' offset) :
    Extended sb x places fresh contents' state after :=
  { extended with changes := extended.changes.congr same }

theorem Grown.refl (good : Good sb state) (held : Held state x ip)
    (places : List Place) : Grown sb x places [] state state where
  same _ := rfl
  extended :=
    { good := good
      changes := .refl _ x
      own := by
        intro ip' cached
        rw [held.cached] at cached
        cases cached
        rw [held.dinode, held.cached]
      others := fun _ _ => rfl
      slots := rfl
      inodes := rfl
      devsw := rfl
      fssize := rfl
      journal := rfl
      logs := fun _ => .inl
      free := rfl }

theorem Grown.widen (grown : Grown sb x places fresh state after)
    (wider : places ⊆ places') : Grown sb x places' fresh state after :=
  ⟨grown.extended.widen wider, grown.same⟩

theorem Grown.trans (first : Grown sb x places fresh state after)
    (second : Grown sb x places' fresh' after last) :
    Grown sb x (places ++ places') (fresh ++ fresh') state last where
  extended := by
    apply (first.extended.trans second.extended).congr
    intro offset inside
    rw [first.extended.changes.byte x offset inside, if_pos rfl]
  same nothing := by
    rw [List.append_eq_nil_iff] at nothing
    rw [second.same nothing.2, first.same nothing.1]

end Relations

theorem State.data_of_area (inside : sb.Area b) :
    (state.store sb).data b = state.disk b :=
  if_pos inside

theorem Allocated.cached {after : State} (allocated : Allocated sb state b after)
    (y : Nat) : after.cached y = state.cached y := by
  unfold State.cached
  rw [allocated.icache]

theorem Superblock.Area.lt_uint (inside : sb.Area b) : b < 2 ^ 32 :=
  Nat.lt_trans inside.2 sb.size.toNat_lt

/-- A good state in which one more block is in use, by a place that had
none. -/
theorem Good.assign {after : State} {owner : Nat × Place}
    (good : Good sb state) (inside : sb.Area b)
    (free : ¬ Marked sb state.disk b)
    (nothing : (state.store sb).address owner = 0)
    (marked : Marked sb after.disk =
      fun c => c = b ∨ Marked sb state.disk c)
    (address : (after.store sb).address =
      Function.update (state.store sb).address owner b)
    (inums : after.icache.map Inode.inum = state.icache.map Inode.inum)
    (used : ∀ ip ∈ after.icache, ip.ref ≠ 0)
    (fssize : after.fssize = state.fssize) : Good sb after where
  layout := good.layout
  size := by
    rw [fssize]
    exact good.size
  reserved c early := by
    rw [marked]
    exact .inr (good.reserved c early)
  owns := by
    rw [marked, address]
    exact good.owns.assign nothing inside free
  distinct := by
    rw [inums]
    exact good.distinct
  numbers := by
    intro ip member
    have listed : ip.inum ∈ after.icache.map Inode.inum :=
      List.mem_map.mpr ⟨ip, member, rfl⟩
    rw [inums] at listed
    obtain ⟨old, oldMember, same⟩ := List.mem_map.mp listed
    rw [← same]
    exact good.numbers old oldMember
  used := used

/-- A slot of an inode gets a new block. -/
theorem Allocated.slot {after : State} {i : Fin (ndirect + 1)}
    (allocated : Allocated sb state b after) (good : Good sb state)
    (held : Held state x ip) (typed : ip.dinode.allocated)
    (nothing : (state.store sb).address (x, .slot i) = 0)
    {change : Inode → Inode}
    (changed : ∀ ip, change ip =
      { ip with
        dinode :=
          { ip.dinode with
            addrs := Function.update ip.dinode.addrs i (UInt32.ofNat b) } }) :
    Mapped sb x (.slot i) [.slot i] [.slot i] state b
      (after.assigned x change) := by
  have layout := good.layout
  have keeps : ∀ ip, (change ip).inum = ip.inum := fun ip => by
    rw [changed]
  have held' : Held after x ip :=
    ⟨(allocated.cached x).trans held.cached, held.valid⟩
  have dinode : (state.store sb).inode x = ip.dinode := held.dinode
  have store : (after.assigned x change).store sb =
      (state.store sb).growSlot x i b := by
    rw [held'.store_assigned keeps (by rw [changed]; exact held.valid),
      allocated.store layout, changed]
    unfold Store.growSlot
    rw [dinode]
    rfl
  have allocated' : ((state.store sb).inode x).allocated := by
    rw [dinode]
    exact typed
  have small := allocated.inside.lt_uint
  have marked : Marked sb (after.assigned x change).disk = _ :=
    allocated.marked layout
  have address : ((after.assigned x change).store sb).address =
      Function.update (state.store sb).address (x, .slot i) b := by
    rw [store]
    exact Store.address_growSlot good.owns allocated' allocated.inside
      allocated.free small nothing
  refine ⟨⟨⟨⟨?_, ?_, ?_, ?_, ?_, ?_⟩, ?_, ?_, ?_, ?_, ?_⟩, nofun⟩,
    by rw [address, Function.update_self], good.ne_zero allocated.inside⟩
  · intro old cached
    rw [held.cached] at cached
    cases cached
    have self := State.cached_assigned_self held'.cached keeps
    have now : (after.assigned x change).dinode sb x = (change ip).dinode :=
      Held.dinode ⟨self, by rw [changed]; exact held.valid⟩
    rw [self, now, changed]
  · intro y different
    rw [State.cached_assigned_of_ne different keeps, allocated.cached]
  · unfold State.assigned
    dsimp only
    rw [List.length_map, allocated.icache]
  · exact allocated.devsw
  · exact allocated.fssize
  · change after.journal = { state.journal with logged := after.journal.logged }
    rw [allocated.journal]
  · apply good.assign allocated.inside allocated.free nothing marked address
    · rw [State.inums_assigned keeps, allocated.icache]
    · intro new member
      obtain ⟨old, oldMember, _, same | ⟨_, same⟩⟩ :=
        State.mem_assigned keeps member
      · rw [same]
        rw [allocated.icache] at oldMember
        exact good.used old oldMember
      · rw [same, changed]
        rw [allocated.icache] at oldMember
        exact good.used old oldMember
    · exact allocated.fssize
  · rw [store]
    exact Store.grows_growSlot good.owns allocated' allocated.inside
      allocated.free small nothing
  · exact allocated.inodes layout
  · intro c member
    change c ∈ after.journal.logged at member
    rw [allocated.journal] at member
    rcases List.mem_cons.mp member with rfl | member
    · refine .inr (.inl ⟨_, List.mem_singleton_self _, ?_,
        good.ne_zero allocated.inside⟩)
      rw [address, Function.update_self]
    · rcases List.mem_cons.mp member with rfl | member
      · refine .inr (.inr ⟨_, List.mem_singleton_self _, ?_⟩)
        rw [address, Function.update_self]
      · exact .inl member
  · exact freeBlocks_setBit allocated.inside.2 allocated.free marked

/-- An entry of the indirect block of an inode gets a new block. -/
theorem Allocated.entry {after : State} {j : Fin nindirect} {indirect : Nat}
    (allocated : Allocated sb state b after) (good : Good sb state)
    (held : Held state x ip) (typed : ip.dinode.allocated)
    (owned : (state.store sb).address (x, .indirect) = indirect)
    (some : indirect ≠ 0)
    (nothing : (state.store sb).address (x, .entry j) = 0) :
    Mapped sb x (.entry j) [.indirect, .entry j] [.entry j] state b
      (after.written indirect
        (putWord (after.disk indirect) j (UInt32.ofNat b))) := by
  generalize putWord_eq :
    putWord (after.disk indirect) j (UInt32.ofNat b) = block
  have layout := good.layout
  have dinode : (state.store sb).inode x = ip.dinode := held.dinode
  have some' : (state.store sb).address (x, .indirect) ≠ 0 := by
    rw [owned]
    exact some
  have area : sb.Area indirect := by
    rw [← owned]
    exact good.owns.inside _ some'
  have other : indirect ≠ b := by
    rw [← owned]
    exact good.owns.ne_of_unmarked allocated.inside allocated.free _
  have data : after.disk indirect = (state.store sb).data indirect := by
    rw [← State.data_of_area area, allocated.store layout, Store.data_setData,
      Function.update_of_ne other]
  have store : (after.written indirect block).store sb =
      (state.store sb).growEntry x j b := by
    rw [State.store_write_data layout area, allocated.store layout,
      ← putWord_eq, data]
    unfold Store.growEntry
    rw [owned]
  have allocated' : ((state.store sb).inode x).allocated := by
    rw [dinode]
    exact typed
  have small := allocated.inside.lt_uint
  have marked : Marked sb (after.written indirect block).disk =
      fun c => c = b ∨ Marked sb state.disk c :=
    (marked_write_data layout area _).trans (allocated.marked layout)
  have address : ((after.written indirect block).store sb).address =
      Function.update (state.store sb).address (x, .entry j) b := by
    rw [store]
    exact Store.address_growEntry good.owns allocated' allocated.inside
      allocated.free small some'
  refine ⟨⟨⟨⟨?_, ?_, ?_, ?_, ?_, ?_⟩, ?_, ?_, ?_, ?_, ?_⟩, nofun⟩,
    by rw [address, Function.update_self], good.ne_zero allocated.inside⟩
  · intro old cached
    rw [held.cached] at cached
    cases cached
    have now : Held (after.written indirect block) x ip :=
      ⟨(allocated.cached x).trans held.cached, held.valid⟩
    rw [now.dinode, now.cached]
  · intro y _
    exact allocated.cached y
  · exact congrArg List.length allocated.icache
  · exact allocated.devsw
  · exact allocated.fssize
  · change { after.journal with logged := indirect :: after.journal.logged } =
      { state.journal with logged := indirect :: after.journal.logged }
    rw [allocated.journal]
  · apply good.assign allocated.inside allocated.free nothing marked address
    · exact congrArg (List.map Inode.inum) allocated.icache
    · intro new member
      apply good.used
      rw [← allocated.icache]
      exact member
    · exact allocated.fssize
  · rw [store]
    exact Store.grows_growEntry good.owns allocated' allocated.inside
      allocated.free small some' nothing
  · change (storeOf sb (Function.update after.disk _ _)).inode = _
    rw [storeOf_write_data layout area]
    exact allocated.inodes layout
  · intro c member
    change c ∈ indirect :: after.journal.logged at member
    rw [allocated.journal] at member
    rcases List.mem_cons.mp member with rfl | member
    · refine .inr (.inl ⟨.indirect, List.mem_cons_self, ?_, some⟩)
      rw [address, Function.update_of_ne (by simp [Place.indirect]), owned]
    · rcases List.mem_cons.mp member with rfl | member
      · refine .inr (.inl ⟨.entry j, by simp, ?_,
          good.ne_zero allocated.inside⟩)
        rw [address, Function.update_self]
      · rcases List.mem_cons.mp member with rfl | member
        · refine .inr (.inr ⟨_, List.mem_singleton_self _, ?_⟩)
          rw [address, Function.update_self]
        · exact .inl member
  · exact freeBlocks_setBit allocated.inside.2 allocated.free marked

/-- The place itself, if it has no block. -/
def Store.lacking (s : Store) (x : Nat) (p : Place) : List Place :=
  if s.address (x, p) = 0 then [p] else []

theorem bmapSlot_spec (good : Good sb state) (held : Held state x ip)
    (typed : ip.dinode.allocated) (i : Fin (ndirect + 1)) :
    wp (bmapSlot sb x i)
      (Mapped sb x (.slot i) [.slot i]
        ((state.store sb).lacking x (.slot i)) state)
      (OutOfBlocks sb state
        ((state.store sb).lacking x (.slot i)).length) state := by
  have dinode : (state.store sb).inode x = ip.dinode := held.dinode
  have typed' : ((state.store sb).inode x).allocated := by
    rw [dinode]
    exact typed
  have zero := Store.addrs_eq_zero_iff (i := i) typed'
  rw [dinode] at zero
  have address := Store.address_slot (i := i) typed'
  rw [dinode] at address
  unfold bmapSlot Store.lacking
  apply wp_bind.mpr
  apply fetch_spec held.cached
  by_cases nothing : (state.store sb).address (x, .slot i) = 0
  · rw [if_pos (zero.mpr nothing), if_pos nothing]
    apply (balloc_spec good).bind
    intro b after allocated
    apply wp_bind.mpr
    apply assign_spec
    apply wp_pure.mpr
    exact allocated.slot good held typed nothing fun _ => rfl
  · rw [if_neg (fun none => nothing (zero.mp none)), if_neg nothing]
    apply wp_pure.mpr
    exact ⟨.refl good held _, address, by rw [← address]; exact nothing⟩

theorem lacking_ofIndex (s : Store) (x : Nat) :
    s.missing x bn =
      (if ndirect ≤ bn then s.lacking x .indirect else []) ++
        s.lacking x (.ofIndex bn) := by
  unfold Store.missing Store.lacking Store.block
  by_cases far : ndirect ≤ bn
  · simp [far]
  · simp [far]

/-- `bmap` for an entry of the indirect block, once there is one. -/
theorem bmapEntry_spec (good : Good sb state) (held : Held state x ip)
    (typed : ip.dinode.allocated) {j : Fin nindirect} {index indirect : Nat}
    (number : index = j)
    (owned : (state.store sb).address (x, .indirect) = indirect)
    (some : indirect ≠ 0) :
    wp (do
        let data ← bread indirect
        if word data index = 0 then do
          let addr ← balloc sb
          let data ← bread indirect
          logWrite indirect (putWord data index (UInt32.ofNat addr))
          pure addr
        else pure (word data index).toNat)
      (Mapped sb x (.entry j) [.indirect, .entry j]
        ((state.store sb).lacking x (.entry j)) state)
      (OutOfBlocks sb state ((state.store sb).lacking x (.entry j)).length)
      state := by
  have typed' : ((state.store sb).inode x).allocated := by
    rw [show (state.store sb).inode x = ip.dinode from held.dinode]
    exact typed
  have area : sb.Area indirect := by
    rw [← owned]
    exact good.owns.inside _ (by rw [owned]; exact some)
  have small := good.data_lt_fssize area
  have address : (state.store sb).address (x, .entry j) =
      (word (state.disk indirect) j).toNat := by
    rw [Store.address_entry typed', owned, if_neg some,
      State.data_of_area area]
  have zero : word (state.disk indirect) j = 0 ↔
      (state.store sb).address (x, .entry j) = 0 := by
    rw [address, ← UInt32.toNat_inj]
    rfl
  subst number
  unfold Store.lacking
  apply wp_bind.mpr
  apply bread_spec small
  by_cases nothing : (state.store sb).address (x, .entry j) = 0
  · rw [if_pos (zero.mpr nothing), if_pos nothing]
    apply (balloc_spec good).bind
    intro b after allocated
    apply wp_bind.mpr
    apply bread_spec (allocated.fssize.symm ▸ small)
    apply wp_bind.mpr
    apply logWrite_spec
    apply wp_pure.mpr
    exact allocated.entry good held typed owned some nothing
  · rw [if_neg (fun none => nothing (zero.mp none)), if_neg nothing]
    apply wp_pure.mpr
    exact ⟨.refl good held _, address, by rw [← address]; exact nothing⟩

/-- A failure after some blocks were found. -/
theorem OutOfBlocks.after {after : State} {reason : Fault}
    {places fresh : List Place} {needed : Nat}
    (short : OutOfBlocks sb after needed reason)
    (grown : Grown sb x places fresh state after) :
    OutOfBlocks sb state (fresh.length + needed) reason := by
  refine ⟨short.reason, ?_⟩
  have less := short.short
  rw [grown.extended.free]
  omega

theorem OutOfBlocks.mono {reason : Fault} {needed more : Nat}
    (short : OutOfBlocks sb state needed reason) (le : needed ≤ more) :
    OutOfBlocks sb state more reason :=
  ⟨short.reason, Nat.lt_of_lt_of_le short.short le⟩

/-- The places that `bmap` may write to for an index. -/
def footprint (bn : Nat) : List Place :=
  if bn < ndirect then [.ofIndex bn] else [.indirect, .ofIndex bn]

theorem bmap_spec (good : Good sb state) (held : Held state x ip)
    (typed : ip.dinode.allocated) (inside : bn < maxfile) :
    wp (bmap sb x bn)
      (Mapped sb x (.ofIndex bn) (footprint bn)
        ((state.store sb).missing x bn) state)
      (OutOfBlocks sb state ((state.store sb).missing x bn).length)
      state := by
  rw [lacking_ofIndex]
  unfold bmap footprint
  by_cases direct : bn < ndirect
  · have place : Place.ofIndex bn = .slot ⟨bn, by omega⟩ := dif_pos direct
    rw [dif_pos direct, if_pos direct, if_neg (Nat.not_le_of_lt direct),
      place, List.nil_append]
    exact bmapSlot_spec good held typed _
  · have place : Place.ofIndex bn =
        .entry (Fin.ofNat nindirect (bn - ndirect)) := dif_neg direct
    have entry : bn - ndirect < nindirect := by
      unfold maxfile at inside
      omega
    have number : bn - ndirect = Fin.ofNat nindirect (bn - ndirect) :=
      (Nat.mod_eq_of_lt entry).symm
    rw [dif_neg direct, if_neg direct, if_pos entry,
      if_pos (Nat.le_of_not_lt direct), place, List.length_append]
    have first := bmapSlot_spec good held typed (Fin.last ndirect)
    apply (first.mono (fun _ _ => id) fun _ short =>
      short.mono (Nat.le_add_right _ _)).bind
    intro indirect after mapped
    have held' := mapped.grown.extended.held held
    have typed' : (after.dinode sb x).allocated := by
      rw [mapped.grown.extended.allocated, held.dinode]
      exact typed
    have lacking : (after.store sb).lacking x
        (.entry (Fin.ofNat nindirect (bn - ndirect))) =
          (state.store sb).lacking x
            (.entry (Fin.ofNat nindirect (bn - ndirect))) := by
      unfold Store.lacking
      rw [mapped.grown.extended.changes.kept]
      intro _ member
      unfold Store.lacking at member
      split at member
      · cases List.mem_singleton.mp member
      · cases member
    have second := bmapEntry_spec mapped.grown.extended.good held' typed'
      number mapped.address mapped.some
    rw [lacking] at second
    apply second.mono
    · intro addr last rest
      have both := mapped.grown.trans rest.grown
      exact ⟨both.widen (by simp [Place.indirect]), rest.address, rest.some⟩
    · intro reason short
      exact short.after mapped.grown

end Xv6.Fs
