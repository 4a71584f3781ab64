import Mathlib.Data.Finset.Card
import Mathlib.Data.Finset.Range
import Xv6.Fs.Inodes
import Xv6.Fs.Layout

/-!
# The file system as the kernel sees it

A slot of `icache` that was read holds the inode that counts; of all other
inodes the one on the disk does.  With the data blocks this gives a store.  In
a good state every block that is in use has one place in it, and the blocks
before the data area are marked so that nobody allocates them.
-/

namespace Xv6.Fs

open Lib

namespace State

/-- Change the slot of an inode. -/
def assigned (state : State) (x : Nat) (change : Inode → Inode) : State :=
  { state with
    icache := state.icache.map fun ip =>
      if ip.inum = x then change ip else ip }

/-- Write a block. -/
def written (state : State) (b : Nat) (data : Bytes) : State :=
  { state with
    disk := Function.update state.disk b data
    journal := { state.journal with logged := b :: state.journal.logged } }

/-- An inode as the kernel sees it. -/
def dinode (state : State) (sb : Superblock) (x : Nat) : Dinode :=
  match state.cached x with
  | some ip =>
      if ip.valid then ip.dinode else (storeOf sb state.disk).inode x
  | none => (storeOf sb state.disk).inode x

/-- The inodes and data blocks as the kernel sees them. -/
def store (state : State) (sb : Superblock) : Store where
  inode := state.dinode sb
  data := (storeOf sb state.disk).data

end State

/-- A file system with its blocks in order. -/
structure Good (sb : Superblock) (state : State) : Prop where
  layout : Layout sb
  size : sb.size.toNat ≤ state.fssize
  reserved : ∀ b, b < sb.datastart → Marked sb state.disk b
  owns : Owns sb.Area (Marked sb state.disk) (state.store sb).address
  distinct : (state.icache.map Inode.inum).Nodup
  numbers : ∀ ip ∈ state.icache, ip.inum < sb.ninodes.toNat
  used : ∀ ip ∈ state.icache, ip.ref ≠ 0

/-- The slot of an inode that was read. -/
structure Held (state : State) (x : Nat) (ip : Inode) : Prop where
  cached : state.cached x = some ip
  valid : ip.valid = true

instance (sb : Superblock) (disk : Nat → Bytes) (b : Nat) :
    Decidable (Marked sb disk b) :=
  inferInstanceAs (Decidable (_ ∧ _))

/-- The number of free blocks. -/
def freeBlocks (sb : Superblock) (disk : Nat → Bytes) : Nat :=
  ((Finset.range sb.size.toNat).filter fun b => ¬ Marked sb disk b).card

/-! ## Slots -/

section Slots

@[simp]
theorem State.disk_assigned (state : State) (x : Nat)
    (change : Inode → Inode) : (state.assigned x change).disk = state.disk :=
  rfl

variable {state : State} {x y : Nat} {ip : Inode} {change : Inode → Inode}

theorem State.inum_of_cached (cached : state.cached x = some ip) :
    ip.inum = x := by
  have found := List.find?_some cached
  exact of_decide_eq_true found

theorem State.mem_of_cached (cached : state.cached x = some ip) :
    ip ∈ state.icache :=
  List.mem_of_find?_eq_some cached

theorem State.cached_assigned (keeps : ∀ ip, (change ip).inum = ip.inum) :
    (state.assigned x change).cached y =
      if y = x then (state.cached x).map change else state.cached y := by
  unfold State.cached State.assigned
  dsimp only
  induction state.icache with
  | nil =>
      split <;> rfl
  | cons ip slots induction =>
      rw [List.map_cons, List.find?_cons, List.find?_cons, List.find?_cons,
        induction]
      by_cases isX : ip.inum = x
      · by_cases same : y = x
        · simp [isX, same, keeps]
        · simp [isX, same, keeps, Ne.symm same]
      · by_cases same : y = x
        · simp [isX, same]
        · simp [isX, same]

theorem State.cached_assigned_self (cached : state.cached x = some ip)
    (keeps : ∀ ip, (change ip).inum = ip.inum) :
    (state.assigned x change).cached x = some (change ip) := by
  rw [State.cached_assigned keeps, if_pos rfl, cached]
  rfl

theorem State.cached_assigned_of_ne (different : y ≠ x)
    (keeps : ∀ ip, (change ip).inum = ip.inum) :
    (state.assigned x change).cached y = state.cached y := by
  rw [State.cached_assigned keeps, if_neg different]

/-- Nothing but the slot changes for the others. -/
theorem State.mem_assigned (keeps : ∀ ip, (change ip).inum = ip.inum)
    {new : Inode} (member : new ∈ (state.assigned x change).icache) :
    ∃ ip ∈ state.icache, new.inum = ip.inum ∧
      (new = ip ∨ ip.inum = x ∧ new = change ip) := by
  obtain ⟨ip, old, rfl⟩ := List.mem_map.mp member
  refine ⟨ip, old, ?_⟩
  split
  · rename_i isX
    exact ⟨keeps ip, .inr ⟨isX, rfl⟩⟩
  · exact ⟨rfl, .inl rfl⟩

theorem State.inums_assigned (keeps : ∀ ip, (change ip).inum = ip.inum) :
    (state.assigned x change).icache.map Inode.inum =
      state.icache.map Inode.inum := by
  unfold State.assigned
  dsimp only
  rw [List.map_map]
  apply List.map_congr_left
  intro ip _
  simp only [Function.comp]
  split
  · exact keeps ip
  · rfl

variable {sb : Superblock} {b : Nat} {data : Bytes}

theorem Held.dinode (held : Held state x ip) :
    state.dinode sb x = ip.dinode := by
  unfold State.dinode
  rw [held.cached]
  simp [held.valid]

theorem Held.number (held : Held state x ip) (good : Good sb state) :
    x < sb.ninodes.toNat := by
  rw [← State.inum_of_cached held.cached]
  exact good.numbers ip (State.mem_of_cached held.cached)

theorem Held.written (held : Held state x ip) :
    Held (state.written b data) x ip :=
  ⟨held.cached, held.valid⟩

/-- What the kernel sees of the inodes after a change of one that was
read. -/
theorem Held.store_assigned (held : Held state x ip)
    (keeps : ∀ ip, (change ip).inum = ip.inum)
    (valid : (change ip).valid = true) :
    (state.assigned x change).store sb =
      (state.store sb).setInode x (change ip).dinode := by
  apply Store.ext
  · funext y
    change (state.assigned x change).dinode sb y = _
    unfold State.dinode Store.setInode
    by_cases same : y = x
    · rw [same, State.cached_assigned_self held.cached keeps]
      simp [valid]
    · rw [State.cached_assigned_of_ne same keeps]
      simp [same, State.store, State.dinode, State.assigned]
  · rfl

end Slots

/-! ## Blocks -/

section Blocks

variable {sb : Superblock} {state state' : State} {x y b : Nat} {ip : Inode}

theorem State.dinode_written (state : State) (y : Nat) {data : Bytes}
    (same : (storeOf sb (state.written b data).disk).inode =
      (storeOf sb state.disk).inode) :
    (state.written b data).dinode sb y = state.dinode sb y := by
  unfold State.dinode
  rw [same]
  rfl

theorem State.store_write_data (layout : Layout sb) (inside : sb.Area b)
    (data : Bytes) :
    (state.written b data).store sb = (state.store sb).setData b data := by
  have storeOf : Fs.storeOf sb (Function.update state.disk b data) = _ :=
    storeOf_write_data layout inside data
  apply Store.ext
  · funext y
    apply state.dinode_written
    change (Fs.storeOf sb (Function.update _ b data)).inode = _
    rw [storeOf]
    rfl
  · change (Fs.storeOf sb (Function.update _ b data)).data = _
    rw [storeOf]
    rfl

theorem State.store_write_bitmap (layout : Layout sb)
    (inside : b < sb.size.toNat) (data : Bytes) :
    (state.written (bblock sb b) data).store sb = state.store sb := by
  have storeOf :
      Fs.storeOf sb (Function.update state.disk (bblock sb b) data) = _ :=
    storeOf_write_bitmap layout inside data
  apply Store.ext
  · funext y
    apply state.dinode_written
    change (Fs.storeOf sb (Function.update _ _ data)).inode = _
    rw [storeOf]
  · change (Fs.storeOf sb (Function.update _ _ data)).data = _
    rw [storeOf]
    rfl

/-- Writing an inode back that the kernel has in a slot. -/
theorem Held.store_write_inode (held : Held state x ip) (layout : Layout sb)
    (inside : x < sb.ninodes.toNat) (dinode : Dinode) :
    (state.written (iblock sb x)
      (putDinode (state.disk (iblock sb x)) x dinode)).store sb =
        state.store sb := by
  have storeOf : Fs.storeOf sb (Function.update state.disk (iblock sb x)
      (putDinode (state.disk (iblock sb x)) x dinode)) = _ :=
    storeOf_write_inode layout inside dinode
  apply Store.ext
  · funext y
    change State.dinode _ sb y = state.dinode sb y
    by_cases same : y = x
    · rw [same, held.dinode, held.written.dinode]
    · unfold State.dinode
      change (match state.cached y with
        | some ip => if ip.valid then ip.dinode
            else (Fs.storeOf sb (Function.update _ _ _)).inode y
        | none => (Fs.storeOf sb (Function.update _ _ _)).inode y) = _
      rw [storeOf, Store.inode_setInode_of_ne same]
  · change (Fs.storeOf sb (Function.update _ _ _)).data = _
    rw [storeOf]
    rfl

/-- A state with the same blocks in use is good too. -/
theorem Good.congr (good : Good sb state)
    (marked : Marked sb state'.disk = Marked sb state.disk)
    (address : (state'.store sb).address = (state.store sb).address)
    (inums : state'.icache.map Inode.inum = state.icache.map Inode.inum)
    (used : ∀ ip ∈ state'.icache, ip.ref ≠ 0)
    (fssize : state'.fssize = state.fssize) : Good sb state' where
  layout := good.layout
  size := by
    rw [fssize]
    exact good.size
  reserved := by
    rw [marked]
    exact good.reserved
  owns := by
    rw [marked, address]
    exact good.owns
  distinct := by
    rw [inums]
    exact good.distinct
  numbers := by
    intro ip member
    have listed : ip.inum ∈ state'.icache.map Inode.inum :=
      List.mem_map.mpr ⟨ip, member, rfl⟩
    rw [inums] at listed
    obtain ⟨old, oldMember, same⟩ := List.mem_map.mp listed
    rw [← same]
    exact good.numbers old oldMember
  used := used

theorem Good.ne_zero (good : Good sb state) (inside : sb.Area b) : b ≠ 0 :=
  good.owns.ne_zero inside

theorem Good.data_lt_fssize (good : Good sb state) (inside : sb.Area b) :
    b < state.fssize :=
  Nat.lt_of_lt_of_le inside.2 good.size

theorem Good.iblock_lt_fssize (good : Good sb state)
    (inside : x < sb.ninodes.toNat) : iblock sb x < state.fssize :=
  Nat.lt_of_lt_of_le (good.layout.iblock_lt_size inside) good.size

theorem Good.bblock_lt_fssize (good : Good sb state)
    (inside : b < sb.size.toNat) : bblock sb b < state.fssize :=
  Nat.lt_of_lt_of_le (good.layout.bblock_lt_size inside) good.size

theorem freeBlocks_setBit (inside : b < sb.size.toNat)
    {disk disk' : Nat → Bytes} (free : ¬ Marked sb disk b)
    (marked : Marked sb disk' = fun c => c = b ∨ Marked sb disk c) :
    freeBlocks sb disk = freeBlocks sb disk' + 1 := by
  have erased : (Finset.range sb.size.toNat).filter
      (fun c => ¬ Marked sb disk' c) =
        ((Finset.range sb.size.toNat).filter
          fun c => ¬ Marked sb disk c).erase b := by
    ext c
    simp only [Finset.mem_filter, Finset.mem_erase, marked, not_or]
    tauto
  have member : b ∈ (Finset.range sb.size.toNat).filter
      fun c => ¬ Marked sb disk c :=
    Finset.mem_filter.mpr ⟨Finset.mem_range.mpr inside, free⟩
  unfold freeBlocks
  rw [erased, Finset.card_erase_add_one member]

end Blocks

end Xv6.Fs
