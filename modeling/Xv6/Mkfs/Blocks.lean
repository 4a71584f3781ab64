import Xv6.Fs.Layout
import Xv6.Mkfs.Image

/-!
# The blocks that `mkfs` hands out

`mkfs` hands out the blocks in order, so that the blocks below `freeblock` are
the used ones.  Inside `iappend` the inode of the file is in `din`, and the
store is that of the disk with `din` in its place.
-/

namespace Xv6.Mkfs

open Lib Fs

theorem layout : Layout sb := by
  constructor <;> decide

@[simp]
theorem size_sb : sb.size.toNat = fssize := rfl

@[simp]
theorem datastart_sb : sb.datastart = nmeta := rfl

/-- The inodes and blocks of an image, with an inode that is being changed. -/
def storeWith (image : Image) (x : Nat) (din : Dinode) : Store :=
  (storeOf sb image.disk).setInode x din

/-- The blocks in use are those below `freeblock`. -/
structure Built (image : Image) (s : Store) : Prop where
  length : image.length = fssize
  first : nmeta ≤ image.freeblock
  fresh : ∀ b, image.freeblock ≤ b → s.data b = zeroes
  owns : Owns (nmeta ≤ ·) (· < image.freeblock) s.address

theorem wp_rsect {image : Image} {sec : Nat} {post : Bytes → Image → Prop}
    {fault : Fault → Prop} :
    wp (rsect sec) post fault image ↔
      (sec < image.length → post (image.disk sec) image) ∧
        (image.length ≤ sec → fault (.panic "read")) := by
  unfold rsect
  rw [wp_bind, wp_get]
  by_cases inside : sec < image.length
  · rw [if_pos inside, wp_pure]
    constructor
    · exact fun holds => ⟨fun _ => holds, fun outside => by omega⟩
    · exact fun holds => holds.1 inside
  · rw [if_neg inside, wp_throw]
    constructor
    · exact fun holds => ⟨fun inside' => (inside inside').elim, fun _ => holds⟩
    · exact fun holds => holds.2 (by omega)

theorem wp_wsect {image : Image} {sec : Nat} {buf : Bytes}
    {post : Unit → Image → Prop} {fault : Fault → Prop} :
    wp (wsect sec buf) post fault image ↔
      post () { image with
        disk := Function.update image.disk sec buf
        length := max image.length (sec + 1) } :=
  wp_modify

theorem wp_nextBlock {image : Image} {post : Nat → Image → Prop}
    {fault : Fault → Prop} :
    wp nextBlock post fault image ↔
      post image.freeblock
        { image with freeblock := image.freeblock + 1 } := by
  unfold nextBlock
  rw [wp_bind, wp_get, wp_bind, wp_set, wp_pure]

section Slot

variable {image : Image} {x : Nat} {din : Dinode} {i : Fin (ndirect + 1)}

/-- What `din.addrs[i] = freeblock++` makes of the store. -/
theorem storeWith_growSlot (built : Built image (storeWith image x din)) :
    storeWith { image with freeblock := image.freeblock + 1 } x
        { din with
          addrs := Function.update din.addrs i
            (UInt32.ofNat image.freeblock) } =
      (storeWith image x din).growSlot x i image.freeblock := by
  apply Store.ext
  · simp [storeWith, Store.growSlot, Store.setInode, Store.setData]
  · have fresh := built.fresh image.freeblock le_rfl
    have same : Function.update (storeWith image x din).data image.freeblock
        zeroes = (storeWith image x din).data := by
      rw [Function.update_eq_self_iff, fresh]
    exact same.symm

theorem Built.growSlot (built : Built image (storeWith image x din))
    (allocated : din.allocated) (small : image.freeblock < 2 ^ 32)
    (nothing : din.addrs i = 0) :
    Built { image with freeblock := image.freeblock + 1 }
      ((storeWith image x din).growSlot x i image.freeblock) := by
  have own : (storeWith image x din).inode x = din :=
    Function.update_self _ _ _
  have allocated' : ((storeWith image x din).inode x).allocated := by
    rw [own, allocated]
  have nothing' : (storeWith image x din).address (x, .slot i) = 0 := by
    rw [← Store.addrs_eq_zero_iff allocated', own, nothing]
  have free : ¬ image.freeblock < image.freeblock := by omega
  refine ⟨built.length, Nat.le_succ_of_le built.first, ?_, ?_⟩
  · intro b later
    have different : b ≠ image.freeblock := by
      have later' : image.freeblock + 1 ≤ b := later
      omega
    have same := Function.update_of_ne different zeroes
      (storeWith image x din).data
    exact same.trans (built.fresh b (Nat.le_of_succ_le later))
  · rw [Store.address_growSlot built.owns allocated' built.first free small
      nothing']
    have marked : (fun b => b < image.freeblock + 1) =
        fun b => b = image.freeblock ∨ b < image.freeblock := by
      funext b
      apply propext
      omega
    rw [marked]
    exact built.owns.assign nothing' built.first free

end Slot

/-! ## The block of an offset -/

/-- `image` and `din` have new blocks at some places in `after` and `din'`,
which were handed out in that order. -/
structure Appended (image : Image) (x : Nat) (din : Dinode)
    (places : List Place) (after : Image) (din' : Dinode) : Prop where
  built : Built after (storeWith after x din')
  grows : Store.Grows (storeWith image x din) (storeWith after x din') x places
  inodes : (storeOf sb after.disk).inode = (storeOf sb image.disk).inode
  super : after.disk 1 = image.disk 1
  freeinode : after.freeinode = image.freeinode
  freeblock : after.freeblock = image.freeblock + places.length
  newest : ∀ p ∈ places.getLast?,
    (storeWith after x din').address (x, p) + 1 = after.freeblock
  fields : din' = { din with addrs := din'.addrs }

namespace Appended

variable {image middle after : Image} {x : Nat} {din din' din'' : Dinode}
  {places places' : List Place}

protected theorem refl (built : Built image (storeWith image x din)) :
    Appended image x din [] image din :=
  ⟨built, .refl _ _, rfl, rfl, rfl, rfl, by simp, rfl⟩

protected theorem trans (first : Appended image x din places middle din')
    (second : Appended middle x din' places' after din'') :
    Appended image x din (places ++ places') after din'' where
  built := second.built
  grows := first.grows.trans second.grows
  inodes := second.inodes.trans first.inodes
  super := second.super.trans first.super
  freeinode := second.freeinode.trans first.freeinode
  freeblock := by
    rw [second.freeblock, first.freeblock, List.length_append, Nat.add_assoc]
  newest := by
    intro p member
    cases places' with
    | nil =>
        rw [List.append_nil] at member
        have filled := first.grows.filled p (List.mem_of_mem_getLast? member)
        have same : after.freeblock = middle.freeblock := second.freeblock
        rw [second.grows.keeps filled, same]
        exact first.newest p member
    | cons place rest =>
        have some := List.getLast?_isSome.mpr (List.cons_ne_nil place rest)
        rw [List.getLast?_append, Option.or_of_isSome some] at member
        exact second.newest p member
  fields := by
    rw [second.fields, first.fields]

theorem allocated (appended : Appended image x din places after din')
    (allocated : din.allocated) : din'.allocated := by
  rw [appended.fields]
  exact allocated

end Appended

variable {image : Image} {x fbn : Nat} {din : Dinode}

theorem inode_storeWith : (storeWith image x din).inode x = din :=
  Function.update_self _ _ _

/-- The place that `appendSlot` fills. -/
def missingSlot (din : Dinode) (i : Fin (ndirect + 1)) : List Place :=
  if din.addrs i = 0 then [.slot i] else []

theorem appendSlot_spec (built : Built image (storeWith image x din))
    (allocated : din.allocated) (small : image.freeblock < 2 ^ 32)
    (i : Fin (ndirect + 1)) :
    wp (appendSlot din i)
      (fun din' after =>
        Appended image x din (missingSlot din i) after din' ∧
        (storeWith after x din').address (x, .slot i) ≠ 0)
      (fun _ => False) image := by
  have allocated' : ((storeWith image x din).inode x).allocated := by
    rw [inode_storeWith, allocated]
  unfold appendSlot missingSlot
  by_cases nothing : din.addrs i = 0
  · have nothing' : (storeWith image x din).address (x, .slot i) = 0 := by
      rw [← Store.addrs_eq_zero_iff allocated', inode_storeWith, nothing]
    have address := Store.address_growSlot built.owns allocated' built.first
      (by omega) small nothing'
    rw [if_pos nothing, if_pos nothing, wp_bind, wp_nextBlock, wp_pure]
    refine ⟨⟨?_, ?_, rfl, rfl, rfl, rfl, ?_, rfl⟩, ?_⟩
    · rw [storeWith_growSlot built]
      exact built.growSlot allocated small nothing
    · rw [storeWith_growSlot built]
      exact Store.grows_growSlot built.owns allocated' built.first (by omega)
        small nothing'
    · rw [storeWith_growSlot built, address]
      simp
    · rw [storeWith_growSlot built, address, Function.update_self]
      exact built.owns.ne_zero built.first
  · rw [if_neg nothing, if_neg nothing, wp_pure]
    refine ⟨.refl built, ?_⟩
    rw [Ne, ← Store.addrs_eq_zero_iff allocated', inode_storeWith]
    exact nothing

/-- The image behind `indirect[j] = freeblock++; wsect(addr, indirect)`. -/
def Image.withEntry (image : Image) (addr j : Nat) : Image :=
  { image with
    disk := Function.update image.disk addr
      (putWord (image.disk addr) j (UInt32.ofNat image.freeblock))
    length := max image.length (addr + 1)
    freeblock := image.freeblock + 1 }

theorem disk_one_write {disk : Nat → Bytes} {b : Nat} {block : Bytes}
    (area : sb.Area b) : Function.update disk b block 1 = disk 1 := by
  apply Function.update_of_ne
  have first : nmeta ≤ b := area.1
  have far : 1 < nmeta := by decide
  omega

section Entry

variable {addr : Nat} {j : Fin nindirect}
  (built : Built image (storeWith image x din)) (allocated : din.allocated)
  (indirect : (storeWith image x din).address (x, .indirect) = addr)
  (some : addr ≠ 0) (inside : addr < fssize)

include built indirect some inside

theorem area_indirect : sb.Area addr := by
  have first := built.owns.inside (x, .indirect)
  rw [indirect] at first
  exact ⟨first some, inside⟩

theorem data_indirect : (storeWith image x din).data addr = image.disk addr :=
  if_pos (area_indirect built indirect some inside)

theorem storeWith_growEntry :
    storeWith (image.withEntry addr j) x din =
      (storeWith image x din).growEntry x j image.freeblock := by
  have area := area_indirect built indirect some inside
  have fresh : Function.update (storeWith image x din).data image.freeblock
      zeroes = (storeWith image x din).data := by
    rw [Function.update_eq_self_iff, built.fresh image.freeblock le_rfl]
  have written : storeOf sb (Function.update image.disk addr
      (putWord (image.disk addr) j (UInt32.ofNat image.freeblock))) = _ :=
    storeOf_write_data layout area _
  apply Store.ext
  · change Function.update (storeOf sb _).inode x din = _
    unfold Image.withEntry
    rw [written]
    rfl
  · change (storeOf sb _).data = _
    unfold Image.withEntry Store.growEntry
    rw [written, Store.data_setData, Store.data_setData, Store.data_setData,
      fresh, indirect, data_indirect built indirect some inside]
    rfl

include allocated

theorem Appended.entry (small : image.freeblock < 2 ^ 32)
    (nothing : (storeWith image x din).address (x, .entry j) = 0) :
    Appended image x din [.entry j] (image.withEntry addr j) din := by
  have area := area_indirect built indirect some inside
  have allocated' : ((storeWith image x din).inode x).allocated := by
    rw [inode_storeWith, allocated]
  have some' : (storeWith image x din).address (x, .indirect) ≠ 0 := by
    rw [indirect]
    exact some
  have free : ¬ image.freeblock < image.freeblock := by omega
  have address := Store.address_growEntry (j := j) built.owns allocated'
    built.first free small some'
  have store := storeWith_growEntry (j := j) built indirect some inside
  refine ⟨?_, ?_, ?_, disk_one_write area, rfl, rfl, ?_, rfl⟩
  · rw [store]
    refine ⟨?_, Nat.le_succ_of_le built.first, ?_, ?_⟩
    · change max image.length (addr + 1) = fssize
      rw [built.length]
      omega
    · intro b later
      have later' : image.freeblock + 1 ≤ b := later
      have used := built.owns.used (x, .indirect) some'
      unfold Store.growEntry
      rw [Store.data_setData, Function.update_of_ne (by omega),
        Store.data_setData, Function.update_of_ne (by omega)]
      exact built.fresh b (by omega)
    · rw [address]
      have marked : (fun b => b < (image.withEntry addr j).freeblock) =
          fun b => b = image.freeblock ∨ b < image.freeblock := by
        funext b
        apply propext
        change b < image.freeblock + 1 ↔ _
        omega
      rw [marked]
      exact built.owns.assign nothing built.first free
  · rw [store]
    exact Store.grows_growEntry built.owns allocated' built.first free small
      some' nothing
  · unfold Image.withEntry
    rw [storeOf_write_data layout area]
    rfl
  · rw [store, address]
    simp [Image.withEntry]

end Entry

theorem ofIndex_direct (direct : fbn < ndirect) :
    Place.ofIndex fbn = .slot ⟨fbn, Nat.lt_succ_of_lt direct⟩ :=
  dif_pos direct

theorem ofIndex_entry (far : ¬ fbn < ndirect) :
    Place.ofIndex fbn = .entry (Fin.ofNat nindirect (fbn - ndirect)) :=
  dif_neg far

theorem missing_direct (allocated : din.allocated) (direct : fbn < ndirect) :
    (storeWith image x din).missing x fbn =
      missingSlot din ⟨fbn, Nat.lt_succ_of_lt direct⟩ := by
  have allocated' : ((storeWith image x din).inode x).allocated := by
    rw [inode_storeWith, allocated]
  have zero := Store.addrs_eq_zero_iff (i := ⟨fbn, by omega⟩) allocated'
  rw [inode_storeWith] at zero
  unfold Store.missing missingSlot Store.block
  rw [if_neg (by omega), ofIndex_direct direct, if_congr zero rfl rfl,
    List.nil_append]

theorem missing_indirect (allocated : din.allocated) (far : ¬ fbn < ndirect) :
    (storeWith image x din).missing x fbn =
      missingSlot din (Fin.last ndirect) ++
        if (storeWith image x din).block x fbn = 0 then [.ofIndex fbn]
        else [] := by
  have allocated' : ((storeWith image x din).inode x).allocated := by
    rw [inode_storeWith, allocated]
  have zero : din.addrs (Fin.last ndirect) = 0 ↔
      ndirect ≤ fbn ∧ (storeWith image x din).address (x, .indirect) = 0 := by
    have slot := Store.addrs_eq_zero_iff (i := Fin.last ndirect) allocated'
    rw [inode_storeWith] at slot
    unfold Place.indirect
    rw [← slot]
    exact ⟨fun zero => ⟨by omega, zero⟩, fun both => both.2⟩
  unfold Store.missing missingSlot
  rw [if_congr zero rfl rfl]
  rfl

theorem appendEntry_spec (built : Built image (storeWith image x din))
    (allocated : din.allocated) (far : ¬ fbn < ndirect)
    (inside : fbn < maxfile) (small : image.freeblock < 2 ^ 32)
    (some : (storeWith image x din).address (x, .indirect) ≠ 0) :
    wp (appendEntry din fbn)
      (fun a after =>
        Appended image x din
          (if (storeWith image x din).block x fbn = 0 then [.ofIndex fbn]
            else []) after din ∧
        (storeWith after x din).block x fbn = a)
      (fun _ => fssize ≤ (storeWith image x din).address (x, .indirect))
      image := by
  have allocated' : ((storeWith image x din).inode x).allocated := by
    rw [inode_storeWith, allocated]
  have indirect : (storeWith image x din).address (x, .indirect) =
      (din.addrs (Fin.last ndirect)).toNat := by
    unfold Place.indirect
    rw [Store.address_slot allocated', inode_storeWith]
  rw [indirect] at some ⊢
  have index : (Fin.ofNat nindirect (fbn - ndirect)).val = fbn - ndirect := by
    unfold maxfile at inside
    exact Nat.mod_eq_of_lt (by omega)
  unfold appendEntry
  dsimp only
  rw [wp_bind, wp_rsect, built.length]
  refine ⟨?_, id⟩
  intro inDisk
  have data := data_indirect built indirect some inDisk
  have entry : (storeWith image x din).block x fbn =
      (word (image.disk (din.addrs (Fin.last ndirect)).toNat)
        (fbn - ndirect)).toNat := by
    unfold Store.block
    rw [ofIndex_entry far, Store.address_entry allocated', indirect,
      if_neg some, data, index]
  by_cases nothing : word (image.disk (din.addrs (Fin.last ndirect)).toNat)
      (fbn - ndirect) = 0
  · have nothing' : (storeWith image x din).block x fbn = 0 := by
      rw [entry, nothing]
      rfl
    have nothing'' : (storeWith image x din).address
        (x, .entry (Fin.ofNat nindirect (fbn - ndirect))) = 0 := by
      rw [← ofIndex_entry far]
      exact nothing'
    have appended := Appended.entry built allocated indirect some inDisk small
      nothing''
    rw [if_pos nothing, if_pos nothing', ofIndex_entry far]
    rw [index] at appended
    rw [wp_bind, wp_nextBlock, wp_bind, wp_wsect, wp_pure]
    refine ⟨appended, ?_⟩
    have newest := appended.newest _ rfl
    unfold Store.block
    rw [ofIndex_entry far, word_putWord, UInt32.toNat_ofNat_of_lt' small]
    exact Nat.succ_injective newest
  · have some' : (storeWith image x din).block x fbn ≠ 0 := by
      rw [entry]
      intro zero
      exact nothing (UInt32.toNat_inj.mp zero)
    rw [if_neg nothing, if_neg some', wp_pure]
    exact ⟨.refl built, entry⟩

/-- `iappend` finds a block for every offset, or runs out of blocks. -/
theorem appendBlock_spec (built : Built image (storeWith image x din))
    (allocated : din.allocated) (inside : fbn < maxfile)
    (last : image.freeblock ≤ fssize) :
    wp (appendBlock din fbn)
      (fun result after =>
        Appended image x din ((storeWith image x din).missing x fbn) after
          result.1 ∧
        (storeWith after x result.1).block x fbn = result.2)
      (fun _ => fssize <
        image.freeblock + ((storeWith image x din).missing x fbn).length)
      image := by
  have small : image.freeblock < 2 ^ 31 :=
    lt_of_le_of_lt last (by decide)
  unfold appendBlock
  by_cases direct : fbn < ndirect
  · rw [dif_pos direct, missing_direct allocated direct]
    apply wp.bind ((appendSlot_spec built allocated (by omega) _).mono
      (fun _ _ => id) (fun _ => False.elim))
    intro din' after ⟨appended, _⟩
    rw [wp_pure]
    refine ⟨appended, ?_⟩
    have allocated' : ((storeWith after x din').inode x).allocated := by
      rw [inode_storeWith, appended.allocated allocated]
    unfold Store.block
    rw [ofIndex_direct direct, Store.address_slot allocated', inode_storeWith]
  · rw [dif_neg direct, missing_indirect allocated direct]
    apply wp.bind ((appendSlot_spec built allocated (by omega) _).mono
      (fun _ _ => id) (fun _ => False.elim))
    intro din' middle ⟨appended, filled⟩
    have block : (storeWith middle x din').block x fbn =
        (storeWith image x din).block x fbn := by
      apply appended.grows.kept
      intro _
      unfold missingSlot
      rw [ofIndex_entry direct]
      split <;> simp
    rw [← block]
    apply wp.bind ((appendEntry_spec appended.built
      (appended.allocated allocated) direct inside ?_ filled).mono
        (fun _ _ => id) ?_)
    · intro a after ⟨appended', found⟩
      rw [wp_pure]
      exact ⟨appended.trans appended', found⟩
    · have one : (missingSlot din (Fin.last ndirect)).length ≤ 1 := by
        unfold missingSlot
        split <;> simp
      rw [appended.freeblock]
      omega
    · intro _ outside
      rw [List.length_append]
      have used := appended.built.owns.used (x, .indirect) filled
      have freeblock := appended.freeblock
      omega

end Xv6.Mkfs
