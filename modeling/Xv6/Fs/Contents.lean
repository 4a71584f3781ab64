import Xv6.Fs.Blocks

/-!
# Reading and writing files

`readi` and `writei` cut a range of offsets at the block boundaries.  A file
without holes is read without a change, and writing to it changes the bytes of
the range and nothing else that can be read.
-/

namespace Xv6.Fs

open Lib

/-- A file has a block for every offset below its size. -/
def Store.NoHoles (s : Store) (x : Nat) : Prop :=
  ∀ bn, bn * bsize < (s.inode x).size.toNat → bn < maxfile ∧ s.block x bn ≠ 0

/-- The indices of the blocks for `n` bytes at an offset. -/
def indices (off n : Nat) : List Nat :=
  List.range' (off / bsize)
    (if n = 0 then 0 else (off + n - 1) / bsize - off / bsize + 1)

theorem mem_indices {off n bn : Nat} :
    bn ∈ indices off n ↔ 0 < n ∧ off / bsize ≤ bn ∧ bn * bsize < off + n := by
  unfold indices bsize
  rw [List.mem_range'_1]
  split <;> omega

theorem mem_indices_add {off n m bn : Nat} :
    bn ∈ indices off (n + m) ↔
      bn ∈ indices off n ++ indices (off + n) m := by
  rw [List.mem_append, mem_indices, mem_indices, mem_indices]
  unfold bsize
  omega

/-- The piece of a range in its first block. -/
def piece (off n : Nat) : Nat := min n (bsize - off % bsize)

theorem piece_pos (off : Nat) {n : Nat} (some : n ≠ 0) :
    0 < piece off n := by
  unfold piece bsize
  omega

theorem piece_le (off n : Nat) : piece off n ≤ n := Nat.min_le_left _ _

theorem indices_of_ne_zero {off n : Nat} (some : n ≠ 0) :
    indices off n =
      off / bsize :: indices (off + piece off n) (n - piece off n) := by
  unfold indices piece bsize
  rw [if_neg some, List.range'_succ]
  congr 1
  by_cases last : n ≤ 512 - off % 512
  · rw [Nat.min_eq_left last, Nat.sub_self, if_pos rfl]
    have one : (off + n - 1) / 512 - off / 512 = 0 := by omega
    rw [one]
    rfl
  · rw [Nat.min_eq_right (by omega), if_neg (by omega)]
    have next : (off + (512 - off % 512)) / 512 = off / 512 + 1 := by omega
    have far : off + (512 - off % 512) + (n - (512 - off % 512)) - 1 =
        off + n - 1 := by omega
    rw [next, far]
    congr 1
    omega

/-! ## The blocks that are missing -/

namespace Store

variable {s s' : Store} {x bn : Nat} {bns : List Nat}

theorem mem_missing {p : Place} :
    p ∈ s.missing x bn ↔ p ∈ footprint bn ∧ s.address (x, p) = 0 := by
  unfold missing footprint block
  by_cases direct : bn < ndirect
  · rw [if_neg (fun far => by omega), if_pos direct, List.nil_append]
    by_cases nothing : s.address (x, .ofIndex bn) = 0
    · rw [if_pos nothing, List.mem_singleton]
      constructor
      · rintro rfl
        exact ⟨rfl, nothing⟩
      · exact And.left
    · rw [if_neg nothing, List.mem_singleton]
      constructor
      · nofun
      · rintro ⟨rfl, none⟩
        exact (nothing none).elim
  · have far : ndirect ≤ bn := Nat.le_of_not_lt direct
    rw [if_neg direct, List.mem_append, List.mem_cons, List.mem_singleton]
    constructor
    · rintro (member | member)
      · split at member
        · rename_i nothing
          cases List.mem_singleton.mp member
          exact ⟨.inl rfl, nothing.2⟩
        · cases member
      · split at member
        · rename_i nothing
          cases List.mem_singleton.mp member
          exact ⟨.inr rfl, nothing⟩
        · cases member
    · rintro ⟨rfl | rfl, none⟩
      · left
        rw [if_pos ⟨far, none⟩]
        exact List.mem_singleton_self _
      · right
        rw [if_pos none]
        exact List.mem_singleton_self _

theorem nodup_missing (s : Store) (x bn : Nat) : (s.missing x bn).Nodup := by
  have different := Ne.symm (Place.ofIndex_ne_indirect bn)
  unfold missing
  split <;> split <;> simp [different]

/-- The places that need a block before a file has blocks at some indices. -/
def lacks (s : Store) (x : Nat) (bns : List Nat) : Finset Place :=
  (bns.flatMap footprint).toFinset.filter fun p => s.address (x, p) = 0

theorem mem_lacks {p : Place} :
    p ∈ s.lacks x bns ↔ p ∈ bns.flatMap footprint ∧ s.address (x, p) = 0 := by
  unfold lacks
  rw [Finset.mem_filter, List.mem_toFinset]

theorem lacks_nil (s : Store) (x : Nat) : s.lacks x [] = ∅ := rfl

theorem lacks_congr {other : List Nat} (same : ∀ bn, bn ∈ bns ↔ bn ∈ other) :
    s.lacks x bns = s.lacks x other := by
  ext p
  simp only [mem_lacks, List.mem_flatMap, same]

/-- The file has got the blocks for some of the indices. -/
theorem lacks_append {front : List Nat} {fresh : List Place}
    {contents : Nat → UInt8} (changes : Changes s s' x fresh contents)
    (all : fresh.toFinset = s.lacks x front) (bns : List Nat) :
    s.lacks x (front ++ bns) = fresh.toFinset ∪ s'.lacks x bns ∧
      Disjoint fresh.toFinset (s'.lacks x bns) := by
  have later : ∀ p, s'.address (x, p) = 0 ↔
      s.address (x, p) = 0 ∧ p ∉ fresh := by
    intro p
    by_cases new : p ∈ fresh
    · have filled := changes.filled p new
      tauto
    · rw [changes.kept x p fun _ => new]
      tauto
  have listed : ∀ p, p ∈ fresh ↔
      p ∈ front.flatMap footprint ∧ s.address (x, p) = 0 := by
    intro p
    rw [← List.mem_toFinset, all, mem_lacks]
  constructor
  · ext p
    rw [Finset.mem_union, List.mem_toFinset, mem_lacks, mem_lacks, later,
      List.flatMap_append, List.mem_append, listed]
    tauto
  · rw [Finset.disjoint_left]
    intro p new lacking
    rw [List.mem_toFinset] at new
    exact ((later p).mp (mem_lacks.mp lacking).2).2 new

theorem toFinset_missing :
    (s.missing x bn).toFinset = s.lacks x [bn] := by
  ext p
  rw [List.mem_toFinset, mem_missing, mem_lacks, List.flatMap_cons,
    List.flatMap_nil, List.append_nil]

/-- The file has got the blocks for the first index. -/
theorem lacks_cons {contents : Nat → UInt8}
    (changes : Changes s s' x (s.missing x bn) contents) (bns : List Nat) :
    s.lacks x (bn :: bns) = (s.missing x bn).toFinset ∪ s'.lacks x bns ∧
      Disjoint (s.missing x bn).toFinset (s'.lacks x bns) :=
  lacks_append changes toFinset_missing bns

theorem card_lacks_cons {contents : Nat → UInt8}
    (changes : Changes s s' x (s.missing x bn) contents) :
    (s.lacks x (bn :: bns)).card =
      (s.missing x bn).length + (s'.lacks x bns).card := by
  obtain ⟨union, disjoint⟩ := lacks_cons changes bns
  rw [union, Finset.card_union_of_disjoint disjoint,
    List.toFinset_card_of_nodup (nodup_missing s x bn)]

theorem length_missing_le :
    (s.missing x bn).length ≤ (s.lacks x (bn :: bns)).card := by
  rw [← List.toFinset_card_of_nodup (nodup_missing s x bn)]
  apply Finset.card_le_card
  intro p member
  rw [List.mem_toFinset, mem_missing] at member
  rw [mem_lacks, List.flatMap_cons]
  exact ⟨List.mem_append_left _ member.1, member.2⟩

theorem indirect_of_block (far : ndirect ≤ bn) (some : s.block x bn ≠ 0) :
    s.address (x, .indirect) ≠ 0 := by
  intro none
  apply some
  have place : Place.ofIndex bn =
      .entry (Fin.ofNat nindirect (bn - ndirect)) :=
    dif_neg (Nat.not_lt_of_le far)
  unfold block
  rw [place]
  by_cases allocated : (s.inode x).allocated
  · rw [address_entry allocated, if_pos none]
  · rw [Bool.not_eq_true] at allocated
    exact address_of_free allocated _

theorem missing_of_block (some : s.block x bn ≠ 0) : s.missing x bn = [] := by
  unfold missing
  rw [if_neg some, if_neg fun none => indirect_of_block none.1 some none.2]
  rfl

end Store

/-! ## Reading -/

variable {sb : Superblock} {state : State} {x off n : Nat} {ip : Inode}

/-- `bmap` for a block that the file has. -/
theorem bmap_some_spec (good : Good sb state) (held : Held state x ip)
    (typed : ip.dinode.allocated) {bn : Nat} (inside : bn < maxfile)
    (some : (state.store sb).block x bn ≠ 0) :
    wp (bmap sb x bn)
      (fun addr after => addr = (state.store sb).block x bn ∧ after = state)
      (fun _ => False) state := by
  have mapped := bmap_spec good held typed inside
  rw [Store.missing_of_block some] at mapped
  apply mapped.mono
  · intro addr after mapped
    have same := mapped.grown.same rfl
    subst same
    exact ⟨mapped.address.symm, rfl⟩
  · intro reason short
    exact absurd short.short (Nat.not_lt_zero _)

/-- Every block of a range exists. -/
def Store.Present (s : Store) (x off n : Nat) : Prop :=
  ∀ bn ∈ indices off n, bn < maxfile ∧ s.block x bn ≠ 0

theorem Store.Present.rest {s : Store} (present : s.Present x off n)
    (some : n ≠ 0) :
    s.Present x (off + piece off n) (n - piece off n) := by
  intro bn member
  apply present
  rw [indices_of_ne_zero some]
  exact List.mem_cons_of_mem _ member

theorem Store.NoHoles.present {s : Store} (noHoles : s.NoHoles x)
    (inside : off + n ≤ (s.inode x).size.toNat) : s.Present x off n := by
  intro bn member
  apply noHoles
  have below := (mem_indices.mp member).2.2
  omega

theorem Store.NoHoles.readable {s : Store} (noHoles : s.NoHoles x)
    (within : off ≤ (s.inode x).size.toNat) :
    s.Present x off (min n ((s.inode x).size.toNat - off)) :=
  noHoles.present (by omega)

theorem Store.NoHoles.size_le {s : Store} (noHoles : s.NoHoles x) :
    (s.inode x).size.toNat ≤ maxfile * bsize := by
  by_contra long
  exact absurd (noHoles maxfile (by omega)).1 (Nat.lt_irrefl _)

theorem Store.byte_of_block {s : Store} {bn k : Nat}
    (some : s.block x (off / bsize) ≠ 0) (number : bn = off / bsize)
    (rest : k = off % bsize) : s.byte x off = s.data (s.block x bn) k := by
  unfold Store.byte
  rw [if_neg some, number, rest]

theorem readiLoop_spec (good : Good sb state) (held : Held state x ip)
    (typed : ip.dinode.allocated) :
    ∀ fuel off n, n ≤ fuel → (state.store sb).Present x off n →
      wp (readiLoop sb x fuel off n)
        (fun bytes after => bytes = (List.range n).map
          (fun k => (state.store sb).byte x (off + k)) ∧ after = state)
        (fun _ => False) state := by
  intro fuel
  induction fuel with
  | zero =>
      intro off n enough _
      cases Nat.le_zero.mp enough
      exact wp_pure.mpr ⟨rfl, rfl⟩
  | succ fuel induction =>
      intro off n enough present
      unfold readiLoop
      by_cases none : n = 0
      · rw [if_pos none, none]
        exact wp_pure.mpr ⟨rfl, rfl⟩
      rw [if_neg none]
      have first := present (off / bsize) (by
        rw [indices_of_ne_zero none]
        exact List.mem_cons_self)
      apply (bmap_some_spec good held typed first.1 first.2).bind
      rintro addr after ⟨address, same⟩
      subst same address
      have area := good.owns.inside _ first.2
      apply wp_bind.mpr
      apply bread_spec (good.data_lt_fssize area)
      dsimp only
      have positive := piece_pos off none
      have less := piece_le off n
      apply (induction (off + piece off n) (n - piece off n) (by omega)
        (present.rest none)).bind
      rintro rest last ⟨bytes, same⟩
      subst same
      apply wp_pure.mpr
      refine ⟨?_, rfl⟩
      rw [bytes]
      have whole : n = piece off n + (n - piece off n) := by omega
      conv_rhs => rw [whole, List.range_add, List.map_append, List.map_map]
      congr 1
      · apply List.map_congr_left
        intro k member
        have inside := List.mem_range.mp member
        have below : k < bsize - off % bsize :=
          Nat.lt_of_lt_of_le inside (Nat.min_le_right _ _)
        have number : off / bsize = (off + k) / bsize := by
          unfold bsize at *
          omega
        have rest : off % bsize + k = (off + k) % bsize := by
          unfold bsize at *
          omega
        rw [Store.byte_of_block (by rw [← number]; exact first.2) number rest]
        exact congrFun (State.data_of_area area).symm _
      · apply List.map_congr_left
        intro k _
        rw [Function.comp, Nat.add_assoc]

theorem uintAdd_lt_iff (first : off < 2 ^ 32) (second : n < 2 ^ 32) :
    uintAdd off n < off ↔ 2 ^ 32 ≤ off + n := by
  unfold uintAdd
  omega

/-- The bytes of a file in a range, as far as the file goes. -/
def Store.range (s : Store) (x off n : Nat) : List UInt8 :=
  (List.range (min n ((s.inode x).size.toNat - off))).map
    fun k => s.byte x (off + k)

theorem readi_spec (good : Good sb state) (held : Held state x ip)
    (typed : ip.dinode.allocated) (plain : ip.dinode.type ≠ tDev)
    (readable : off ≤ ((state.store sb).inode x).size.toNat →
      (state.store sb).Present x off
        (min n (((state.store sb).inode x).size.toNat - off)))
    (first : off < 2 ^ 32) (second : n < 2 ^ 32) :
    wp (readi sb x off n)
      (fun bytes after => after = state ∧ bytes =
        if off > ip.dinode.size.toNat ∨ 2 ^ 32 ≤ off + n then none
        else some ((state.store sb).range x off n))
      (fun _ => False) state := by
  have inode : (state.store sb).inode x = ip.dinode := held.dinode
  unfold readi
  apply wp_bind.mpr
  apply fetch_spec held.cached
  rw [if_neg plain]
  dsimp only
  simp only [uintAdd_lt_iff first second]
  by_cases refused : off > ip.dinode.size.toNat ∨ 2 ^ 32 ≤ off + n
  · rw [if_pos refused, if_pos refused]
    exact wp_pure.mpr ⟨rfl, rfl⟩
  · rw [if_neg refused, if_neg refused]
    have sum : uintAdd off n = off + n := by
      unfold uintAdd
      omega
    have count : (if uintAdd off n > ip.dinode.size.toNat then
        ip.dinode.size.toNat - off else n) =
          min n (((state.store sb).inode x).size.toNat - off) := by
      rw [sum, inode]
      split <;> omega
    rw [count]
    have present := readable (by rw [inode]; omega)
    apply (readiLoop_spec good held typed _ _ _ le_rfl present).bind
    rintro bytes after ⟨read, same⟩
    apply wp_pure.mpr
    exact ⟨same, by rw [read]; rfl⟩

/-! ## Writing -/

section Write

variable {src : List UInt8} {after last : State}

/-- The bytes of a file with some of them replaced. -/
def spliced (byte : Nat → UInt8) (off : Nat) (src : List UInt8) :
    Nat → UInt8 :=
  patch byte off src.length fun k => src.getD k 0

/-- A write to the block of a file that `bmap` found. -/
theorem Mapped.write {bn addr : Nat} {places fresh : List Place}
    (mapped : Mapped sb x (.ofIndex bn) places fresh state addr after)
    (held : Held state x ip) (inside : bn < maxfile) (block : Bytes) :
    Extended sb x [.ofIndex bn] [] (fun offset =>
        if offset / bsize = bn then block (offset % bsize)
        else (after.store sb).byte x offset)
      after (after.written addr block) := by
  have good := mapped.grown.extended.good
  have held' := mapped.grown.extended.held held
  have some : (after.store sb).address (x, .ofIndex bn) ≠ 0 := by
    rw [mapped.address]
    exact mapped.some
  have area := good.owns.inside _ some
  rw [mapped.address] at area
  have store : (after.written addr block).store sb = _ :=
    State.store_write_data good.layout area block
  have marked : Marked sb (after.written addr block).disk = _ :=
    marked_write_data good.layout area block
  have number : (after.store sb).block x bn = addr := mapped.address
  have address : ((after.written addr block).store sb).address =
      (after.store sb).address := by
    rw [store, ← number]
    exact Store.address_setData good.owns some block
  exact
    { good := good.congr marked address rfl good.used rfl
      changes := by
        rw [store, ← number]
        exact Store.changes_setData good.owns some inside block
      own := by
        intro ip' cached
        rw [held'.cached] at cached
        cases cached
        rw [held'.written.dinode, held'.written.cached]
      others := fun _ _ => rfl
      slots := rfl
      inodes := by
        change (storeOf sb (Function.update after.disk _ _)).inode = _
        rw [storeOf_write_data good.layout area]
        rfl
      devsw := rfl
      fssize := rfl
      journal := rfl
      logs := by
        intro c member
        rcases List.mem_cons.mp member with rfl | member
        · refine .inr (.inl ⟨_, List.mem_singleton_self _, ?_, mapped.some⟩)
          rw [address, mapped.address]
        · exact .inl member
      free := by
        unfold freeBlocks
        simp only [marked]
        rfl }

/-- The first piece of a write and the rest of it. -/
theorem spliced_cons {byte byte' : Nat → UInt8} {data : Bytes} {offset : Nat}
    (some : src.length ≠ 0)
    (first : byte' offset = if offset / bsize = off / bsize then
      patch data (off % bsize) (piece off src.length)
        (fun k => src.getD k 0) (offset % bsize) else byte offset)
    (old : offset / bsize = off / bsize →
      byte offset = data (offset % bsize)) :
    spliced byte' (off + piece off src.length)
      (src.drop (piece off src.length)) offset =
        spliced byte off src offset := by
  have positive := piece_pos off some
  have less := piece_le off src.length
  have reaches : piece off src.length = src.length ∧
      src.length ≤ bsize - off % bsize ∨
        piece off src.length = bsize - off % bsize := by
    unfold piece
    omega
  generalize piece off src.length = m at *
  unfold spliced
  rw [List.length_drop]
  by_cases later : off + m ≤ offset ∧ offset < off + src.length
  · unfold patch
    rw [if_pos (by omega), if_pos (by omega)]
    simp only [List.getD_eq_getElem?_getD, List.getElem?_drop]
    congr 2
    omega
  · rw [patch_outside (by omega), first]
    unfold patch
    by_cases same : offset / bsize = off / bsize
    · rw [if_pos same, old same]
      by_cases early : off ≤ offset ∧ offset < off + m
      · rw [if_pos (by unfold bsize at *; omega), if_pos (by omega)]
        congr 1
        unfold bsize at *
        omega
      · rw [if_neg (by unfold bsize at *; omega), if_neg (by omega)]
    · rw [if_neg same, if_neg]
      unfold bsize at *
      omega

/-- One turn of the loop of `writei`. -/
theorem Mapped.piece {addr : Nat}
    (mapped : Mapped sb x (.ofIndex (off / bsize)) (footprint (off / bsize))
      ((state.store sb).missing x (off / bsize)) state addr after)
    (held : Held state x ip) (inside : off / bsize < maxfile)
    (block : Bytes) :
    Extended sb x (footprint (off / bsize))
      ((state.store sb).missing x (off / bsize))
      (fun offset =>
        if offset / bsize = off / bsize then block (offset % bsize)
        else (state.store sb).byte x offset)
      state (after.written addr block) := by
  have both := mapped.grown.extended.trans (mapped.write held inside block)
  rw [List.append_nil] at both
  apply (both.widen _).congr
  · intro offset small
    have reads : (after.store sb).byte x offset =
        (state.store sb).byte x offset :=
      Store.Grows.reads mapped.grown.extended.changes x small
    rw [reads]
  · intro p member
    rcases List.mem_append.mp member with member | member
    · exact member
    · cases List.mem_singleton.mp member
      unfold footprint
      split <;> simp

theorem Mapped.byte {addr bn offset : Nat} {places fresh : List Place}
    (mapped : Mapped sb x (.ofIndex bn) places fresh state addr after)
    (number : offset / bsize = bn) (inside : bn < maxfile) :
    (state.store sb).byte x offset = after.disk addr (offset % bsize) := by
  have address : (after.store sb).block x (offset / bsize) = addr := by
    rw [number]
    exact mapped.address
  have some : (after.store sb).block x (offset / bsize) ≠ 0 := by
    rw [address]
    exact mapped.some
  have area : sb.Area ((after.store sb).block x (offset / bsize)) :=
    mapped.grown.extended.good.owns.inside _ some
  rw [← Store.Grows.reads mapped.grown.extended.changes x
      (by rw [number]; exact inside),
    Store.byte_of_block some rfl rfl, State.data_of_area area, address]

/-- What the loop of `writei` has done to an inode. -/
def Spliced (sb : Superblock) (x off : Nat) (src : List UInt8)
    (state after : State) : Prop :=
  ∃ fresh : List Place, fresh.Nodup ∧
    fresh.toFinset = (state.store sb).lacks x (indices off src.length) ∧
    Extended sb x ((indices off src.length).flatMap footprint) fresh
      (spliced ((state.store sb).byte x) off src) state after

theorem Spliced.nil (good : Good sb state) (held : Held state x ip)
    (off : Nat) : Spliced sb x off [] state state := by
  refine ⟨[], List.nodup_nil, rfl, ?_⟩
  apply (Grown.refl good held _).extended.congr
  intro offset _
  rw [spliced, patch_outside (by simp only [List.length_nil]; omega)]

theorem Spliced.cons {addr : Nat} (some : src.length ≠ 0)
    (inside : off / bsize < maxfile) (held : Held state x ip)
    (mapped : Mapped sb x (.ofIndex (off / bsize)) (footprint (off / bsize))
      ((state.store sb).missing x (off / bsize)) state addr after)
    (rest : Spliced sb x (off + Fs.piece off src.length)
      (src.drop (Fs.piece off src.length))
      (after.written addr (patch (after.disk addr) (off % bsize)
        (Fs.piece off src.length) fun k => src.getD k 0)) last) :
    Spliced sb x off src state last := by
  have step := mapped.piece held inside (patch (after.disk addr)
    (off % bsize) (Fs.piece off src.length) fun k => src.getD k 0)
  obtain ⟨fresh, nodup, lacking, extended⟩ := rest
  rw [List.length_drop] at lacking extended
  unfold Spliced
  rw [indices_of_ne_zero some, List.flatMap_cons]
  obtain ⟨union, disjoint⟩ := Store.lacks_cons step.changes _
  refine ⟨(state.store sb).missing x (off / bsize) ++ fresh, ?_, ?_, ?_⟩
  · apply List.Nodup.append (Store.nodup_missing _ _ _) nodup
    rw [← List.disjoint_toFinset_iff_disjoint, lacking]
    exact disjoint
  · rw [List.toFinset_append, lacking, union]
  · apply (step.trans extended).congr
    intro offset small
    apply spliced_cons some
    · rw [step.changes.byte x offset small, if_pos rfl]
    · intro number
      exact mapped.byte number inside

theorem writeiLoop_spec :
    ∀ fuel src off (state : State) ip, src.length ≤ fuel → Good sb state →
      Held state x ip → ip.dinode.allocated →
      off + src.length ≤ maxfile * bsize →
      wp (writeiLoop sb x fuel src off)
        (fun _ => Spliced sb x off src state)
        (OutOfBlocks sb state
          ((state.store sb).lacks x (indices off src.length)).card)
        state := by
  intro fuel
  induction fuel with
  | zero =>
      intro src off state ip enough good held _ _
      have none := List.eq_nil_of_length_eq_zero (Nat.le_zero.mp enough)
      subst none
      exact wp_pure.mpr (.nil good held off)
  | succ fuel induction =>
      intro src off state ip enough good held typed inside
      unfold writeiLoop
      by_cases none : src.length = 0
      · rw [if_pos none]
        have nil := List.eq_nil_of_length_eq_zero none
        subst nil
        exact wp_pure.mpr (.nil good held off)
      rw [if_neg none, indices_of_ne_zero none]
      have positive := piece_pos off none
      have less := piece_le off src.length
      have small : off / bsize < maxfile := by
        rw [Nat.div_lt_iff_lt_mul (by decide)]
        omega
      apply ((bmap_spec good held typed small).mono (fun _ _ => id)
        fun _ short => short.mono Store.length_missing_le).bind
      intro addr after mapped
      have good' := mapped.grown.extended.good
      have area : sb.Area addr := by
        rw [← mapped.address]
        exact good'.owns.inside _ (by rw [mapped.address]; exact mapped.some)
      apply wp_bind.mpr
      apply bread_spec (good'.data_lt_fssize area)
      apply wp_bind.mpr
      apply logWrite_spec
      have step := mapped.piece held small (patch (after.disk addr)
        (off % bsize) (piece off src.length) fun k => src.getD k 0)
      have again := induction (src.drop (piece off src.length))
        (off + piece off src.length) _ _
        (by rw [List.length_drop]; omega) step.good (step.held held)
        (by rw [step.allocated, held.dinode]; exact typed)
        (by rw [List.length_drop]; omega)
      apply again.mono
      · intro _ last rest
        exact .cons none small held mapped rest
      · intro reason short
        rw [List.length_drop] at short
        refine ⟨short.reason, ?_⟩
        rw [Store.card_lacks_cons step.changes, step.free]
        have few := short.short
        omega

end Write

end Xv6.Fs
