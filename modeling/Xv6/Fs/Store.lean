import Mathlib.Tactic.Common
import Xv6.Fs.Codec
import Xv6.Lib.Ownership

/-!
# Inodes and their blocks

A store has the inodes and the data blocks of a file system.  The address of a
block stands in a slot of an inode or in an entry of an indirect block, and
these places are the owners of the blocks.  `byte` is what a file reads at an
offset; a hole reads as zero.
-/

namespace Xv6.Fs

open Lib

/-- Where the address of a block can stand. -/
inductive Place where
  | slot (i : Fin (ndirect + 1))
  | entry (j : Fin nindirect)
  deriving DecidableEq

instance : NeZero nindirect := ⟨by decide⟩

namespace Place

/-- The place of the indirect block. -/
def indirect : Place := .slot (Fin.last ndirect)

/-- The place of the `bn`th block of a file. -/
def ofIndex (bn : Nat) : Place :=
  if inside : bn < ndirect then .slot ⟨bn, Nat.lt_succ_of_lt inside⟩
  else .entry (Fin.ofNat nindirect (bn - ndirect))

theorem ofIndex_ne_indirect (bn : Nat) : ofIndex bn ≠ indirect := by
  unfold ofIndex indirect
  split
  · rename_i inside
    intro same
    have equal : bn = ndirect := by
      simpa [Fin.ext_iff] using same
    omega
  · simp

theorem ofIndex_inj {bn bn' : Nat} (inside : bn < maxfile)
    (inside' : bn' < maxfile) (same : ofIndex bn = ofIndex bn') :
    bn = bn' := by
  unfold maxfile at inside inside'
  unfold ofIndex at same
  split at same <;> split at same
  · simpa using same
  · cases same
  · cases same
  · have equal : (bn - ndirect) % nindirect = (bn' - ndirect) % nindirect := by
      simpa [Fin.ext_iff, Fin.ofNat] using same
    rw [Nat.mod_eq_of_lt (by omega), Nat.mod_eq_of_lt (by omega)] at equal
    omega

end Place

@[ext]
structure Store where
  inode : Nat → Dinode
  data : Nat → Bytes

/-- The address at a place of an inode. -/
def addressIn (data : Nat → Bytes) (dinode : Dinode) : Place → Nat
  | .slot i => (dinode.addrs i).toNat
  | .entry j =>
      if dinode.addrs (Fin.last ndirect) = 0 then 0
      else (word (data (dinode.addrs (Fin.last ndirect)).toNat) j).toNat

/-- An inode is allocated if it has a type. -/
def Dinode.allocated (dinode : Dinode) : Bool := dinode.type ≠ 0

namespace Store

def address (s : Store) (owner : Nat × Place) : Nat :=
  if (s.inode owner.1).allocated then
    addressIn s.data (s.inode owner.1) owner.2
  else 0

/-- The block of a file at an index. -/
def block (s : Store) (x bn : Nat) : Nat := s.address (x, .ofIndex bn)

/-- The byte of a file at an offset. -/
def byte (s : Store) (x offset : Nat) : UInt8 :=
  if s.block x (offset / bsize) = 0 then 0
  else s.data (s.block x (offset / bsize)) (offset % bsize)

def setInode (s : Store) (x : Nat) (dinode : Dinode) : Store :=
  { s with inode := Function.update s.inode x dinode }

def setData (s : Store) (b : Nat) (block : Bytes) : Store :=
  { s with data := Function.update s.data b block }

/-- A zeroed block for a slot of an inode. -/
def growSlot (s : Store) (x : Nat) (i : Fin (ndirect + 1)) (b : Nat) :
    Store :=
  (s.setInode x
    { s.inode x with
      addrs := Function.update (s.inode x).addrs i (UInt32.ofNat b) }).setData
        b zeroes

/-- A zeroed block for an entry of the indirect block of an inode. -/
def growEntry (s : Store) (x : Nat) (j : Fin nindirect) (b : Nat) : Store :=
  (s.setData b zeroes).setData (s.address (x, .indirect))
    (putWord (s.data (s.address (x, .indirect))) j (UInt32.ofNat b))

@[simp]
theorem data_setData (s : Store) (b : Nat) (block : Bytes) :
    (s.setData b block).data = Function.update s.data b block := rfl

@[simp]
theorem inode_setInode_self (s : Store) (x : Nat) (dinode : Dinode) :
    (s.setInode x dinode).inode x = dinode :=
  Function.update_self _ _ _

theorem inode_setInode_of_ne {x y : Nat} (different : y ≠ x) (s : Store)
    (dinode : Dinode) : (s.setInode x dinode).inode y = s.inode y :=
  Function.update_of_ne different _ _

variable {s : Store} {area marked : Nat → Prop} {x y b bn : Nat}
  {i : Fin (ndirect + 1)} {j : Fin nindirect}

theorem address_slot (allocated : (s.inode x).allocated) :
    s.address (x, .slot i) = ((s.inode x).addrs i).toNat := by
  unfold address
  rw [if_pos allocated]
  rfl

theorem addrs_eq_zero_iff (allocated : (s.inode x).allocated) :
    (s.inode x).addrs i = 0 ↔ s.address (x, .slot i) = 0 := by
  rw [address_slot allocated, ← UInt32.toNat_inj]
  rfl

theorem address_entry (allocated : (s.inode x).allocated) :
    s.address (x, .entry j) =
      if s.address (x, .indirect) = 0 then 0
      else (word (s.data (s.address (x, .indirect))) j).toNat := by
  have zero := addrs_eq_zero_iff (i := Fin.last ndirect) allocated
  unfold Place.indirect
  rw [← if_congr zero rfl rfl, address_slot allocated]
  unfold address
  rw [if_pos allocated]
  rfl

theorem address_of_free (free : (s.inode x).allocated = false) (p : Place) :
    s.address (x, p) = 0 := by
  simp [address, free]

/-- The addresses of an inode depend on the inode and its indirect block. -/
theorem address_congr {s' : Store} {p : Place}
    (inode : s'.inode x = s.inode x)
    (data : s.address (x, .indirect) ≠ 0 →
      s'.data (s.address (x, .indirect)) =
        s.data (s.address (x, .indirect))) :
    s'.address (x, p) = s.address (x, p) := by
  by_cases allocated : (s.inode x).allocated
  · have allocated' : (s'.inode x).allocated := by rw [inode, allocated]
    have slot : ∀ i, s'.address (x, .slot i) = s.address (x, .slot i) := by
      intro i
      rw [address_slot allocated, address_slot allocated', inode]
    cases p with
    | slot i => exact slot i
    | entry j =>
        have indirect : s'.address (x, .indirect) = s.address (x, .indirect) :=
          slot _
        rw [address_entry allocated, address_entry allocated', indirect]
        split
        · rfl
        · rename_i some
          rw [data some]
  · rw [Bool.not_eq_true] at allocated
    rw [address_of_free allocated, address_of_free (by rw [inode, allocated])]

theorem byte_congr {s' : Store} (address : s'.address = s.address)
    (data : s'.data = s.data) (x offset : Nat) :
    s'.byte x offset = s.byte x offset := by
  unfold byte block
  rw [address, data]

/-- The fields of an inode besides its addresses do not move blocks. -/
theorem address_setInode {dinode : Dinode}
    (addrs : dinode.addrs = (s.inode x).addrs)
    (allocated : dinode.allocated = (s.inode x).allocated) :
    (s.setInode x dinode).address = s.address := by
  have data : (s.setInode x dinode).data = s.data := rfl
  funext owner
  obtain ⟨y, p⟩ := owner
  by_cases same : y = x
  · subst y
    unfold address
    rw [inode_setInode_self, allocated, data]
    cases p with
    | slot i =>
        unfold addressIn
        rw [addrs]
    | entry j =>
        unfold addressIn
        rw [addrs]
  · exact address_congr (Function.update_of_ne same _ _) fun _ => rfl

theorem address_resize (s : Store) (x : Nat) (size : UInt32) :
    (s.setInode x { s.inode x with size := size }).address = s.address :=
  address_setInode rfl rfl

/-- An inode without blocks may be allocated and freed. -/
theorem address_setInode_empty {dinode : Dinode}
    (nothing : ∀ p, s.address (x, p) = 0)
    (empty : dinode.allocated → ∀ i, dinode.addrs i = 0) :
    (s.setInode x dinode).address = s.address := by
  funext owner
  obtain ⟨y, p⟩ := owner
  by_cases same : y = x
  · subst y
    rw [nothing]
    unfold address
    rw [inode_setInode_self]
    split
    · rename_i allocated
      have zero := empty allocated
      cases p with
      | slot i => simp [addressIn, zero]
      | entry j => simp [addressIn, zero]
    · rfl
  · exact address_congr (inode_setInode_of_ne same _ _) fun _ => rfl

/-! ## New blocks -/

section Grow

variable (owns : Owns area marked s.address)
  (allocated : (s.inode x).allocated) (inside : area b) (free : ¬ marked b)
  (small : b < 2 ^ 32)

include owns allocated inside free small

theorem address_growSlot (nothing : s.address (x, .slot i) = 0) :
    (s.growSlot x i b).address =
      Function.update s.address (x, .slot i) b := by
  have number : (UInt32.ofNat b).toNat = b := UInt32.toNat_ofNat_of_lt' small
  have kept : ∀ y, s.address (y, .indirect) ≠ b := fun y =>
    owns.ne_of_unmarked inside free _
  have data : ∀ c, c ≠ b → (s.growSlot x i b).data c = s.data c := by
    intro c different
    exact Function.update_of_ne different _ _
  funext owner
  obtain ⟨y, p⟩ := owner
  by_cases same : y = x
  · subst y
    have allocated' : ((s.growSlot x i b).inode x).allocated := by
      simpa [growSlot, setInode, setData, Dinode.allocated] using allocated
    have slot : ∀ k, (s.growSlot x i b).address (x, .slot k) =
        Function.update s.address (x, .slot i) b (x, .slot k) := by
      intro k
      rw [address_slot allocated']
      by_cases equal : k = i
      · simp [growSlot, setInode, setData, equal, number]
      · rw [Function.update_of_ne (by simpa using equal),
          address_slot allocated]
        simp [growSlot, setInode, setData, equal]
    cases p with
    | slot k => exact slot k
    | entry j =>
        rw [Function.update_of_ne (by simp), address_entry allocated',
          address_entry allocated]
        by_cases last : i = Fin.last ndirect
        · subst i
          have before : s.address (x, .indirect) = 0 := nothing
          have after : (s.growSlot x (Fin.last ndirect) b).address
              (x, .indirect) = b := by
            unfold Place.indirect
            rw [slot, Function.update_self]
          have zeroed : (s.growSlot x (Fin.last ndirect) b).data b = zeroes :=
            Function.update_self _ _ _
          rw [after, if_neg (owns.ne_zero inside), if_pos before, zeroed,
            word_zeroes]
          rfl
        · have indirect : (s.growSlot x i b).address (x, .indirect) =
              s.address (x, .indirect) := by
            unfold Place.indirect
            rw [slot, Function.update_of_ne (by simpa using Ne.symm last)]
          rw [indirect, data _ (kept x)]
  · rw [Function.update_of_ne (by simp [same])]
    apply address_congr
    · exact Function.update_of_ne same _ _
    · intro _
      exact data _ (kept y)

theorem address_growEntry (some : s.address (x, .indirect) ≠ 0) :
    (s.growEntry x j b).address =
      Function.update s.address (x, .entry j) b := by
  have number : (UInt32.ofNat b).toNat = b := UInt32.toNat_ofNat_of_lt' small
  have kept : ∀ y, s.address (y, .indirect) ≠ b := fun y =>
    owns.ne_of_unmarked inside free _
  have own : (s.growEntry x j b).data (s.address (x, .indirect)) =
      putWord (s.data (s.address (x, .indirect))) j (UInt32.ofNat b) :=
    Function.update_self _ _ _
  have data : ∀ c, c ≠ b → c ≠ s.address (x, .indirect) →
      (s.growEntry x j b).data c = s.data c := by
    intro c first second
    unfold growEntry
    rw [data_setData, Function.update_of_ne second, data_setData,
      Function.update_of_ne first]
  funext owner
  obtain ⟨y, p⟩ := owner
  by_cases same : y = x
  · subst y
    have allocated' : ((s.growEntry x j b).inode x).allocated := allocated
    cases p with
    | slot k =>
        rw [Function.update_of_ne (by simp), address_slot allocated,
          address_slot allocated']
        rfl
    | entry k =>
        have indirect : (s.growEntry x j b).address (x, .indirect) =
            s.address (x, .indirect) := by
          unfold Place.indirect
          rw [address_slot allocated, address_slot allocated']
          rfl
        rw [address_entry allocated', indirect, if_neg some, own]
        by_cases equal : k = j
        · subst k
          rw [word_putWord, number, Function.update_self]
        · rw [word_putWord_of_ne (by simpa [Fin.ext_iff] using equal),
            Function.update_of_ne (by simpa using equal),
            address_entry allocated, if_neg some]
  · rw [Function.update_of_ne (by simp [same])]
    apply address_congr
    · rfl
    · intro owned
      apply data _ (kept y)
      intro equal
      have owners := owns.single _ _ owned equal
      exact same (congrArg Prod.fst owners)

end Grow

/-- A new block is zeroed, so that it reads like the hole it fills. -/
theorem byte_assign {s' : Store} {owner : Nat × Place}
    (address : s'.address = Function.update s.address owner b)
    (nothing : s.address owner = 0) (zeroed : s'.data b = zeroes)
    (kept : ∀ y bn, s.block y bn ≠ 0 →
      s'.data (s.block y bn) = s.data (s.block y bn))
    (y offset : Nat) : s'.byte y offset = s.byte y offset := by
  have step : s'.block y (offset / bsize) =
      Function.update s.address owner b (y, .ofIndex (offset / bsize)) := by
    rw [← address]
    rfl
  unfold byte
  rw [step]
  by_cases same : (y, Place.ofIndex (offset / bsize)) = owner
  · have hole : s.block y (offset / bsize) = 0 := by
      unfold block
      rw [same, nothing]
    rw [same, Function.update_self, zeroed, if_pos hole]
    simp [zeroes]
  · rw [Function.update_of_ne same]
    change (if s.block y (offset / bsize) = 0 then 0
      else s'.data (s.block y (offset / bsize)) (offset % bsize)) = _
    split
    · rfl
    · rename_i some
      rw [kept _ _ some]

section Grow

variable (owns : Owns area marked s.address)
  (allocated : (s.inode x).allocated) (inside : area b) (free : ¬ marked b)
  (small : b < 2 ^ 32)

include owns allocated inside free small

theorem byte_growSlot (nothing : s.address (x, .slot i) = 0)
    (y offset : Nat) :
    (s.growSlot x i b).byte y offset = s.byte y offset := by
  apply byte_assign
    (address_growSlot owns allocated inside free small nothing) nothing
  · exact Function.update_self _ _ _
  · intro y bn _
    exact Function.update_of_ne (owns.ne_of_unmarked inside free _) _ _

theorem byte_growEntry (some : s.address (x, .indirect) ≠ 0)
    (nothing : s.address (x, .entry j) = 0) (y offset : Nat) :
    (s.growEntry x j b).byte y offset = s.byte y offset := by
  apply byte_assign
    (address_growEntry owns allocated inside free small some) nothing
  · unfold growEntry
    rw [data_setData, Function.update_of_ne
        (Ne.symm (owns.ne_of_unmarked inside free (x, .indirect))),
      data_setData, Function.update_self]
  · intro y bn owned
    have different : s.block y bn ≠ s.address (x, .indirect) := by
      intro equal
      have owners := owns.single _ _ owned equal
      exact Place.ofIndex_ne_indirect bn (congrArg Prod.snd owners)
    unfold growEntry
    rw [data_setData, Function.update_of_ne different, data_setData]
    exact Function.update_of_ne (owns.ne_of_unmarked inside free _) _ _

end Grow

/-! ## Writing to a block of a file -/

section Write

variable (owns : Owns area marked s.address) (some : s.block x bn ≠ 0)

include owns some

theorem address_setData (block : Bytes) :
    (s.setData (s.block x bn) block).address = s.address := by
  funext owner
  obtain ⟨y, p⟩ := owner
  apply address_congr
  · rfl
  · intro _
    apply Function.update_of_ne
    intro equal
    have owners := owns.single _ _ some equal.symm
    exact Place.ofIndex_ne_indirect bn (congrArg Prod.snd owners)

theorem byte_setData (inside : bn < maxfile) (block : Bytes) (offset : Nat)
    (inside' : offset / bsize < maxfile) :
    (s.setData (s.block x bn) block).byte y offset =
      if y = x ∧ offset / bsize = bn then block (offset % bsize)
      else s.byte y offset := by
  have same : (s.setData (s.block x bn) block).block y (offset / bsize) =
      s.block y (offset / bsize) :=
    congrFun (address_setData owns some block) _
  unfold byte
  rw [same]
  by_cases written : y = x ∧ offset / bsize = bn
  · obtain ⟨first, second⟩ := written
    subst y
    rw [second, if_neg some, if_pos ⟨rfl, rfl⟩]
    exact congrFun (Function.update_self _ _ _) _
  · rw [if_neg written]
    split
    · rfl
    · rename_i owned
      apply congrFun
      apply Function.update_of_ne
      intro equal
      have owners := owns.single _ _ owned equal
      apply written
      exact ⟨congrArg Prod.fst owners,
        Place.ofIndex_inj inside' inside (congrArg Prod.snd owners)⟩

end Write

/-! ## Changing a file -/

/-- A store with new blocks at some places of an inode and new contents of
that inode. -/
structure Changes (s s' : Store) (x : Nat) (fresh : List Place)
    (contents : Nat → UInt8) : Prop where
  inode : ∀ y, y ≠ x → s'.inode y = s.inode y
  fields : s'.inode x = { s.inode x with addrs := (s'.inode x).addrs }
  byte : ∀ y offset, offset / bsize < maxfile →
    s'.byte y offset = if y = x then contents offset else s.byte y offset
  kept : ∀ y p, (y = x → p ∉ fresh) → s'.address (y, p) = s.address (y, p)
  nothing : ∀ p ∈ fresh, s.address (x, p) = 0
  filled : ∀ p ∈ fresh, s'.address (x, p) ≠ 0

/-- A store in which a file has new blocks and reads as before. -/
abbrev Grows (s s' : Store) (x : Nat) (fresh : List Place) : Prop :=
  Changes s s' x fresh (s.byte x)

namespace Changes

variable {s' s'' : Store} {fresh fresh' : List Place}
  {contents contents' : Nat → UInt8}

protected theorem refl (s : Store) (x : Nat) : Grows s s x [] where
  inode _ _ := rfl
  fields := rfl
  byte y offset _ := by
    split
    · rename_i same
      rw [same]
    · rfl
  kept _ _ _ := rfl
  nothing := by simp
  filled := by simp

theorem keeps (changes : Changes s s' x fresh contents) {owner : Nat × Place}
    (some : s.address owner ≠ 0) : s'.address owner = s.address owner := by
  obtain ⟨y, p⟩ := owner
  apply changes.kept
  intro same member
  subst y
  exact some (changes.nothing p member)

theorem ne_zero (changes : Changes s s' x fresh contents)
    {owner : Nat × Place} (some : s.address owner ≠ 0) :
    s'.address owner ≠ 0 := by
  rw [changes.keeps some]
  exact some

protected theorem trans (first : Changes s s' x fresh contents)
    (second : Changes s' s'' x fresh' contents') :
    Changes s s'' x (fresh ++ fresh') contents' where
  inode y different := by rw [second.inode y different, first.inode y different]
  fields := by rw [second.fields, first.fields]
  byte y offset inside := by
    rw [second.byte y offset inside]
    split
    · rfl
    · rename_i different
      rw [first.byte y offset inside, if_neg different]
  kept y p old := by
    simp only [List.mem_append, not_or] at old
    rw [second.kept y p fun same => (old same).2,
      first.kept y p fun same => (old same).1]
  nothing p member := by
    rcases List.mem_append.mp member with member | member
    · exact first.nothing p member
    · by_contra some
      exact first.ne_zero some (second.nothing p member)
  filled p member := by
    rcases List.mem_append.mp member with member | member
    · exact second.ne_zero (first.filled p member)
    · exact second.filled p member

/-- Only the contents below the largest size matter. -/
theorem congr (changes : Changes s s' x fresh contents)
    (same : ∀ offset, offset / bsize < maxfile →
      contents offset = contents' offset) :
    Changes s s' x fresh contents' where
  inode := changes.inode
  fields := changes.fields
  byte y offset inside := by
    rw [changes.byte y offset inside, same offset inside]
  kept := changes.kept
  nothing := changes.nothing
  filled := changes.filled

end Changes

namespace Grows

variable {s' s'' : Store} {fresh fresh' : List Place}

theorem reads (grows : Grows s s' x fresh) (y : Nat) {offset : Nat}
    (inside : offset / bsize < maxfile) :
    s'.byte y offset = s.byte y offset := by
  rw [grows.byte y offset inside]
  split
  · rename_i same
    rw [same]
  · rfl

protected theorem trans (first : Grows s s' x fresh)
    (second : Grows s' s'' x fresh') : Grows s s'' x (fresh ++ fresh') :=
  (Changes.trans first second).congr fun _ inside => first.reads x inside

end Grows

/-- The places that need a block before a file has one at an index. -/
def missing (s : Store) (x bn : Nat) : List Place :=
  (if ndirect ≤ bn ∧ s.address (x, .indirect) = 0 then [.indirect] else []) ++
    (if s.block x bn = 0 then [.ofIndex bn] else [])

section Grow

variable (owns : Owns area marked s.address)
  (allocated : (s.inode x).allocated) (inside : area b) (free : ¬ marked b)
  (small : b < 2 ^ 32)

include owns allocated inside free small

theorem grows_growSlot (nothing : s.address (x, .slot i) = 0) :
    Grows s (s.growSlot x i b) x [.slot i] := by
  have address := address_growSlot owns allocated inside free small nothing
  refine ⟨?_, ?_, ?_, ?_, ?_, ?_⟩
  · intro y different
    exact Function.update_of_ne different _ _
  · unfold growSlot
    rw [show ((s.setInode x _).setData b zeroes).inode x = _ from
      inode_setInode_self s x _]
  · intro y offset _
    rw [byte_growSlot owns allocated inside free small nothing]
    split
    · rename_i same
      rw [same]
    · rfl
  · intro y p old
    rw [address, Function.update_of_ne]
    simpa using old
  · simpa using nothing
  · simpa [address] using owns.ne_zero inside

theorem grows_growEntry (some : s.address (x, .indirect) ≠ 0)
    (nothing : s.address (x, .entry j) = 0) :
    Grows s (s.growEntry x j b) x [.entry j] := by
  have address :=
    address_growEntry (j := j) owns allocated inside free small some
  refine ⟨fun _ _ => rfl, rfl, ?_, ?_, ?_, ?_⟩
  · intro y offset _
    rw [byte_growEntry owns allocated inside free small some nothing]
    split
    · rename_i same
      rw [same]
    · rfl
  · intro y p old
    rw [address, Function.update_of_ne]
    simpa using old
  · simpa using nothing
  · simpa [address] using owns.ne_zero inside

end Grow

/-- Writing to a block that the file has. -/
theorem changes_setData (owns : Owns area marked s.address)
    (some : s.block x bn ≠ 0) (inside : bn < maxfile) (block : Bytes) :
    Changes s (s.setData (s.block x bn) block) x [] fun offset =>
      if offset / bsize = bn then block (offset % bsize)
      else s.byte x offset where
  inode _ _ := rfl
  fields := rfl
  byte y offset inside' := by
    rw [byte_setData owns some inside block offset inside']
    by_cases same : y = x
    · simp [same]
    · simp [same]
  kept y p _ := congrFun (address_setData owns some block) (y, p)
  nothing := by simp
  filled := by simp

end Store

end Xv6.Fs
