import Xv6.Mkfs.Blocks

/-!
# What `iappend` does

`iappend` makes a file longer and leaves the other files alone.  It fails if
the file is too long or if there are not enough blocks.
-/

namespace Xv6.Mkfs

open Lib Fs

variable {image : Image} {x : Nat} {din : Dinode}

/-! ## Contents -/

/-- The blocks of a file with `n` bytes, with its indirect block. -/
def blocksOf (n : Nat) : Nat :=
  (n + bsize - 1) / bsize + if n ≤ ndirect * bsize then 0 else 1

/-- A file with some contents, and no more blocks than it needs. -/
structure Holds (s : Store) (x : Nat) (bytes : List UInt8) : Prop where
  fits : bytes.length ≤ maxfile * bsize
  blocks : ∀ bn, bn < maxfile →
    (s.block x bn = 0 ↔ bytes.length ≤ bn * bsize)
  indirect : s.address (x, .indirect) = 0 ↔ bytes.length ≤ ndirect * bsize
  content : ∀ k, k < maxfile * bsize → s.byte x k = bytes.getD k 0

/-- Between `image` with `din` and `after` with `din'` the file `x` has grown
from `old` to `new`, and nothing else has changed. -/
structure Extended (image : Image) (x : Nat) (din : Dinode)
    (old new : List UInt8) (after : Image) (din' : Dinode) : Prop where
  built : Built after (storeWith after x din')
  last : after.freeblock ≤ fssize
  holds : Holds (storeWith after x din') x new
  address : ∀ y, y ≠ x → ∀ p, (storeWith after x din').address (y, p) =
    (storeWith image x din).address (y, p)
  byte : ∀ y, y ≠ x → ∀ k, k < maxfile * bsize →
    (storeWith after x din').byte y k = (storeWith image x din).byte y k
  inodes : (storeOf sb after.disk).inode = (storeOf sb image.disk).inode
  super : after.disk 1 = image.disk 1
  freeinode : after.freeinode = image.freeinode
  freeblock : after.freeblock + blocksOf old.length =
    image.freeblock + blocksOf new.length
  fields : din' = { din with addrs := din'.addrs }

namespace Extended

variable {image middle after : Image} {x : Nat} {din din' din'' : Dinode}
  {old new newer : List UInt8}

protected theorem refl (built : Built image (storeWith image x din))
    (last : image.freeblock ≤ fssize)
    (holds : Holds (storeWith image x din) x old) :
    Extended image x din old old image din :=
  ⟨built, last, holds, fun _ _ _ => rfl, fun _ _ _ _ => rfl, rfl, rfl, rfl,
    rfl, rfl⟩

protected theorem trans (first : Extended image x din old new middle din')
    (second : Extended middle x din' new newer after din'') :
    Extended image x din old newer after din'' where
  built := second.built
  last := second.last
  holds := second.holds
  address y different p := by
    rw [second.address y different, first.address y different]
  byte y different k inside := by
    rw [second.byte y different k inside, first.byte y different k inside]
  inodes := second.inodes.trans first.inodes
  super := second.super.trans first.super
  freeinode := second.freeinode.trans first.freeinode
  freeblock := by
    have before := first.freeblock
    have behind := second.freeblock
    omega
  fields := by
    rw [second.fields, first.fields]

end Extended

section Chunk

variable {bytes : List UInt8} (holds : Holds (storeWith image x din) x bytes)
  (room : bytes.length / bsize < maxfile)

include holds room

/-- A file without a block at its end needs this block, and one more where
its indirect block begins. -/
theorem missing_eq :
    (storeWith image x din).missing x (bytes.length / bsize) =
      if bytes.length % bsize = 0 then
        (if bytes.length = ndirect * bsize then [.indirect] else []) ++
          [.ofIndex (bytes.length / bsize)]
      else [] := by
  have block := holds.blocks _ room
  have indirect := holds.indirect
  unfold Store.missing
  rw [if_congr block rfl rfl, if_congr (and_congr_right' indirect) rfl rfl]
  unfold ndirect bsize
  by_cases aligned : bytes.length % 512 = 0
  · rw [if_pos aligned]
    have full : bytes.length ≤ bytes.length / 512 * 512 := by omega
    have first : 12 ≤ bytes.length / 512 ∧ bytes.length ≤ 12 * 512 ↔
        bytes.length = 12 * 512 := by omega
    rw [if_pos full, if_congr first rfl rfl]
  · rw [if_neg aligned]
    have rest : ¬ bytes.length ≤ bytes.length / 512 * 512 := by omega
    have later : ¬ (12 ≤ bytes.length / 512 ∧ bytes.length ≤ 12 * 512) := by
      omega
    rw [if_neg rest, if_neg later]
    rfl

omit holds room in
theorem blocksOf_step {n count : Nat} (some : 0 < count)
    (within : n + count ≤ (n / bsize + 1) * bsize) :
    blocksOf (n + count) = blocksOf n +
      if n % bsize = 0 then (if n = ndirect * bsize then 2 else 1) else 0 := by
  unfold blocksOf
  unfold ndirect bsize at *
  by_cases aligned : n % 512 = 0
  · rw [if_pos aligned]
    by_cases first : n = 12 * 512
    · have beyond : ¬ n + count ≤ 12 * 512 := by omega
      rw [if_pos first, if_neg beyond, if_pos first.le]
      omega
    · rw [if_neg first]
      split <;> split <;> omega
  · rw [if_neg aligned]
    split <;> split <;> omega

omit holds room in
theorem storeWith_write {a : Nat} (area : sb.Area a) (block : Bytes)
    (length : Nat) :
    storeWith
        { image with
          disk := Function.update image.disk a block
          length := length } x din =
      (storeWith image x din).setData a block := by
  unfold storeWith
  rw [storeOf_write_data layout area]
  rfl

variable {middle : Image} {din' : Dinode}
  (appended : Appended image x din
    ((storeWith image x din).missing x (bytes.length / bsize)) middle din')

include appended

/-- There is a block at the end of the file. -/
theorem Appended.block_ne_zero :
    (storeWith middle x din').block x (bytes.length / bsize) ≠ 0 := by
  by_cases aligned : bytes.length % bsize = 0
  · apply appended.grows.filled
    rw [missing_eq holds room, if_pos aligned]
    simp
  · apply appended.grows.ne_zero
    intro zero
    have short := (holds.blocks _ room).mp zero
    unfold bsize at *
    omega

/-- The block at the end of the file is the last one, if it is new. -/
theorem Appended.freeblock_le (last : image.freeblock ≤ fssize)
    (inside : (storeWith middle x din').block x (bytes.length / bsize) <
      fssize) : middle.freeblock ≤ fssize := by
  have newest := appended.newest
  have freeblock := appended.freeblock
  rw [missing_eq holds room] at newest freeblock
  by_cases aligned : bytes.length % bsize = 0
  · rw [if_pos aligned] at newest
    have equal := newest (.ofIndex (bytes.length / bsize)) (by simp)
    unfold Store.block at inside
    omega
  · rw [if_neg aligned] at freeblock
    simp only [List.length_nil, Nat.add_zero] at freeblock
    omega

theorem Appended.blocksOf {count : Nat} (some : 0 < count)
    (within : bytes.length + count ≤ (bytes.length / bsize + 1) * bsize) :
    middle.freeblock + blocksOf bytes.length =
      image.freeblock + blocksOf (bytes.length + count) := by
  rw [appended.freeblock, missing_eq holds room, blocksOf_step some within]
  split
  · split
    · simp
      omega
    · simp
      omega
  · simp

/-- The bytes before the end are where they were. -/
theorem Appended.holds_before {count : Nat} (some : 0 < count)
    (within : bytes.length + count ≤ (bytes.length / bsize + 1) * bsize) :
    (∀ bn, bn < maxfile → ((storeWith middle x din').block x bn = 0 ↔
      bytes.length + count ≤ bn * bsize)) ∧
    ((storeWith middle x din').address (x, .indirect) = 0 ↔
      bytes.length + count ≤ ndirect * bsize) := by
  have missing := missing_eq holds room
  constructor
  · intro bn inside
    by_cases same : bn = bytes.length / bsize
    · have nonzero := appended.block_ne_zero holds room
      rw [← same] at nonzero
      rw [iff_false_left nonzero]
      unfold bsize at *
      omega
    · have kept : (storeWith middle x din').block x bn =
          (storeWith image x din).block x bn := by
        apply appended.grows.kept
        intro _
        rw [missing]
        have first := Place.ofIndex_ne_indirect bn
        have second : Place.ofIndex bn ≠ .ofIndex (bytes.length / bsize) :=
          fun equal => same (Place.ofIndex_inj inside room equal)
        split
        · split <;> simp [first, second]
        · simp
      rw [kept, holds.blocks bn inside]
      unfold bsize at *
      omega
  · by_cases first : bytes.length = ndirect * bsize
    · have filled : (storeWith middle x din').address (x, .indirect) ≠ 0 := by
        apply appended.grows.filled
        rw [missing, if_pos (by rw [first]; decide), if_pos first]
        simp
      rw [iff_false_left filled]
      omega
    · have kept : (storeWith middle x din').address (x, .indirect) =
          (storeWith image x din).address (x, .indirect) := by
        apply appended.grows.kept
        intro _
        have different := Ne.symm
          (Place.ofIndex_ne_indirect (bytes.length / bsize))
        rw [missing, if_neg first]
        split <;> simp [different]
      rw [kept, holds.indirect]
      unfold ndirect bsize at *
      omega

omit appended holds room in
theorem getD_append_of_not {bytes chunk : List UInt8} {k : Nat}
    (outside : ¬ (bytes.length ≤ k ∧ k < bytes.length + chunk.length)) :
    (bytes ++ chunk).getD k 0 = bytes.getD k 0 := by
  by_cases early : k < bytes.length
  · exact List.getD_append _ _ _ _ early
  · rw [List.getD_eq_default _ _ (by rw [List.length_append]; omega),
      List.getD_eq_default _ _ (by omega)]

/-- One turn of the loop of `iappend`. -/
theorem Appended.extended {a : Nat} {chunk : List UInt8}
    {source : Nat → UInt8} (last : image.freeblock ≤ fssize)
    (found : (storeWith middle x din').block x (bytes.length / bsize) = a)
    (inside : a < fssize) (some : 0 < chunk.length)
    (within : bytes.length + chunk.length ≤
      (bytes.length / bsize + 1) * bsize)
    (copied : ∀ k, k < chunk.length → source k = chunk.getD k 0) :
    Extended image x din bytes (bytes ++ chunk)
      { middle with
        disk := Function.update middle.disk a
          (patch (middle.disk a)
            (bytes.length - bytes.length / bsize * bsize) chunk.length source)
        length := max middle.length (a + 1) } din' := by
  have nonzero := appended.block_ne_zero holds room
  have owns := appended.built.owns
  have area : sb.Area a := by
    refine ⟨?_, inside⟩
    rw [← found]
    exact owns.inside _ nonzero
  have data : (storeWith middle x din').data a = middle.disk a := if_pos area
  have before := appended.holds_before holds room some within
  rw [← List.length_append] at before
  have used : a < middle.freeblock := by
    rw [← found]
    exact owns.used _ nonzero
  have address := Store.address_setData owns nonzero
  have byte := fun y block offset inside' =>
    Store.byte_setData (y := y) owns nonzero room block offset inside'
  simp only [found] at address byte nonzero
  have store : storeWith
      { middle with
        disk := Function.update middle.disk a
          (patch (middle.disk a)
            (bytes.length - bytes.length / bsize * bsize) chunk.length source)
        length := max middle.length (a + 1) } x din' =
      (storeWith middle x din').setData a _ := storeWith_write area _ _
  constructor
  case built =>
      rw [store]
      refine ⟨?_, appended.built.first, ?_, ?_⟩
      · change max middle.length (a + 1) = fssize
        rw [appended.built.length]
        omega
      · intro b later
        have later' : middle.freeblock ≤ b := later
        rw [Store.data_setData, Function.update_of_ne (by omega)]
        exact appended.built.fresh b later'
      · rw [address]
        exact owns
  case last =>
      apply appended.freeblock_le holds room last
      rw [found]
      exact inside
  case holds =>
      rw [store]
      refine ⟨?_, ?_, ?_, ?_⟩
      · rw [List.length_append]
        exact le_trans within (Nat.mul_le_mul_right _ room)
      · intro bn inside'
        unfold Store.block
        rw [address]
        exact before.1 bn inside'
      · rw [address]
        exact before.2
      · intro k short
        have inside' : k / bsize < maxfile :=
          (Nat.div_lt_iff_lt_mul (by decide)).mpr short
        have same : (storeWith middle x din').byte x k = bytes.getD k 0 := by
          rw [appended.grows.reads x inside', holds.content k short]
        rw [byte x _ k inside']
        by_cases new : bytes.length ≤ k ∧ k < bytes.length + chunk.length
        · have block : k / bsize = bytes.length / bsize := by
            unfold bsize at *
            omega
          have start : k % bsize =
              bytes.length - bytes.length / bsize * bsize +
                (k - bytes.length) := by
            unfold bsize at *
            omega
          rw [if_pos ⟨rfl, block⟩, start, patch_inside (by omega),
            copied _ (by omega),
            List.getD_append_right _ _ _ _ (by omega)]
        · rw [getD_append_of_not (by omega), ← same]
          by_cases block : k / bsize = bytes.length / bsize
          · rw [if_pos ⟨rfl, block⟩, patch_outside]
            · unfold Store.byte
              rw [block, found, if_neg nonzero, data]
            · unfold bsize at *
              omega
          · rw [if_neg (fun both => block both.2)]
  case address =>
      intro y different p
      rw [store, address]
      exact appended.grows.kept y p fun same => (different same).elim
  case byte =>
      intro y different k short
      have inside' : k / bsize < maxfile := by
        unfold bsize at *
        omega
      rw [store, byte y _ k inside', if_neg (fun both => different both.1)]
      exact appended.grows.reads y inside'
  case inodes =>
      rw [storeOf_write_data layout area]
      exact appended.inodes
  case super => exact (disk_one_write area).trans appended.super
  case freeinode => exact appended.freeinode
  case freeblock =>
      rw [List.length_append]
      exact appended.blocksOf holds room some within
  case fields => exact appended.fields

end Chunk

/-- A file of `new` bytes is too long, or there are no blocks for it. -/
def Exceeds (freeblock old new : Nat) : Prop :=
  maxfile * bsize < new ∨ fssize + blocksOf old < freeblock + blocksOf new

theorem blocksOf_mono {n m : Nat} (le : n ≤ m) : blocksOf n ≤ blocksOf m := by
  unfold blocksOf
  unfold bsize ndirect
  split <;> split <;> omega

theorem iappendLoop_spec {image : Image} {din : Dinode} {bytes p : List UInt8}
    (fuel : Nat) (enough : p.length ≤ fuel)
    (built : Built image (storeWith image x din))
    (last : image.freeblock ≤ fssize) (allocated : din.allocated)
    (holds : Holds (storeWith image x din) x bytes) :
    wp (iappendLoop fuel din bytes.length p)
      (fun result after =>
        Extended image x din bytes (bytes ++ p) after result.1 ∧
        result.2 = (bytes ++ p).length)
      (fun _ => Exceeds image.freeblock bytes.length (bytes ++ p).length)
      image := by
  induction fuel generalizing image din bytes p with
  | zero =>
      have empty : p = [] := List.eq_nil_of_length_eq_zero (by omega)
      subst p
      unfold iappendLoop
      rw [List.append_nil, wp_pure]
      exact ⟨.refl built last holds, rfl⟩
  | succ fuel induction =>
      unfold iappendLoop
      by_cases empty : p.length = 0
      · rw [if_pos empty, List.eq_nil_of_length_eq_zero empty,
          List.append_nil, wp_pure]
        exact ⟨.refl built last holds, rfl⟩
      rw [if_neg empty]
      by_cases room : bytes.length / bsize < maxfile
      · rw [if_pos room]
        have taken : ∃ n1, n1 = min p.length
            ((bytes.length / bsize + 1) * bsize - bytes.length) := ⟨_, rfl⟩
        obtain ⟨n1, taken⟩ := taken
        rw [← taken]
        have some : 0 < n1 := by
          unfold bsize at *
          omega
        have length : (p.take n1).length = n1 := by
          rw [List.length_take]
          omega
        have within : bytes.length + n1 ≤
            (bytes.length / bsize + 1) * bsize := by
          unfold bsize at *
          omega
        have copied : ∀ k, k < (p.take n1).length →
            p.getD k 0 = (p.take n1).getD k 0 := by
          intro k short
          rw [length] at short
          simp [List.getD_eq_getElem?_getD, short]
        have whole : (bytes ++ p.take n1) ++ p.drop n1 = bytes ++ p := by
          rw [List.append_assoc, List.take_append_drop]
        have more : blocksOf (bytes.length + n1) ≤
            blocksOf (bytes ++ p).length := by
          apply blocksOf_mono
          rw [List.length_append]
          omega
        have need : ((storeWith image x din).missing x
            (bytes.length / bsize)).length + blocksOf bytes.length =
              blocksOf (bytes.length + n1) := by
          rw [missing_eq holds room, blocksOf_step some within]
          split
          · split <;> simp <;> omega
          · simp
        apply wp.bind ((appendBlock_spec built allocated room last).mono
          (fun _ _ => id) ?_)
        · rintro ⟨din', a⟩ middle ⟨appended, found⟩
          dsimp only at found ⊢
          rw [wp_bind, wp_rsect]
          constructor
          · intro inside
            rw [appended.built.length] at inside
            rw [wp_bind, wp_wsect]
            have extended := appended.extended holds room last found inside
              (by rw [length]; exact some) (by rw [length]; exact within)
              copied
            rw [length] at extended
            have end' : bytes.length + n1 = (bytes ++ p.take n1).length := by
              rw [List.length_append, length]
            rw [end']
            have rest := induction (p := p.drop n1)
              (by rw [List.length_drop]; omega) extended.built extended.last
              (appended.allocated allocated) extended.holds
            rw [whole] at rest
            apply rest.mono
            · intro result after ⟨extended', length'⟩
              exact ⟨extended.trans extended', length'⟩
            · intro _ exceeds
              have blocks := extended.freeblock
              rcases exceeds with long | full
              · exact Or.inl long
              · right
                omega
          · intro outside
            have used := appended.built.owns.used _
              (appended.block_ne_zero holds room)
            have blocks := appended.freeblock
            rw [appended.built.length] at outside
            change Store.block _ _ _ < _ at used
            rw [found] at used
            right
            omega
        · intro _ outside
          right
          omega
      · rw [if_neg room, wp_throw]
        left
        rw [List.length_append]
        unfold bsize at *
        omega

/-! ## Whole files -/

/-- Between two images the file `x` has grown from `old` to `new`, and nothing
else has changed. -/
structure Grown (image : Image) (x : Nat) (old new : List UInt8)
    (after : Image) : Prop where
  built : Built after (storeOf sb after.disk)
  last : after.freeblock ≤ fssize
  holds : Holds (storeOf sb after.disk) x new
  size : ((storeOf sb after.disk).inode x).size.toNat = new.length
  type : ((storeOf sb after.disk).inode x).type =
    ((storeOf sb image.disk).inode x).type
  nlink : ((storeOf sb after.disk).inode x).nlink =
    ((storeOf sb image.disk).inode x).nlink
  inode : ∀ y, y ≠ x →
    (storeOf sb after.disk).inode y = (storeOf sb image.disk).inode y
  address : ∀ y, y ≠ x → ∀ p, (storeOf sb after.disk).address (y, p) =
    (storeOf sb image.disk).address (y, p)
  byte : ∀ y, y ≠ x → ∀ k, k < maxfile * bsize →
    (storeOf sb after.disk).byte y k = (storeOf sb image.disk).byte y k
  super : after.disk 1 = image.disk 1
  freeinode : after.freeinode = image.freeinode
  freeblock : after.freeblock + blocksOf old.length =
    image.freeblock + blocksOf new.length

theorem storeWith_self :
    storeWith image x ((storeOf sb image.disk).inode x) =
      storeOf sb image.disk := by
  apply Store.ext
  · exact Function.update_eq_self _ _
  · rfl

theorem disk_one_winode (inside : x < ninodes) (disk : Nat → Bytes)
    (block : Bytes) :
    Function.update disk (iblock sb x) block 1 = disk 1 := by
  apply Function.update_of_ne
  have first := (layout.iblock_lt inside).1
  have far : 1 < sb.inodestart.toNat := by decide
  omega

theorem wp_winode {post : Unit → Image → Prop} {fault : Fault → Prop}
    (inside : x < ninodes) (length : image.length = fssize)
    (holds : post ()
      { image with
        disk := Function.update image.disk (iblock sb x)
          (putDinode (image.disk (iblock sb x)) x din) }) :
    wp (winode x din) post fault image := by
  have small : iblock sb x < fssize := layout.iblock_lt_size inside
  unfold winode
  rw [wp_bind, wp_rsect, length]
  refine ⟨fun _ => ?_, fun outside => by omega⟩
  rw [wp_wsect]
  have same : max image.length (iblock sb x + 1) = image.length := by omega
  rw [same]
  exact holds

theorem wp_rinode {post : Dinode → Image → Prop} {fault : Fault → Prop}
    (inside : x < ninodes) (length : image.length = fssize)
    (holds : post ((storeOf sb image.disk).inode x) image) :
    wp (rinode x) post fault image := by
  have small : iblock sb x < fssize := layout.iblock_lt_size inside
  have read : (storeOf sb image.disk).inode x =
      getDinode (image.disk (iblock sb x)) x := if_pos inside
  unfold rinode
  rw [wp_bind, wp_rsect, length]
  refine ⟨fun _ => ?_, fun outside => by omega⟩
  rw [wp_pure, ← read]
  exact holds

theorem iappend_spec {bytes p : List UInt8} (inside : x < ninodes)
    (built : Built image (storeOf sb image.disk))
    (last : image.freeblock ≤ fssize)
    (allocated : ((storeOf sb image.disk).inode x).allocated)
    (size : ((storeOf sb image.disk).inode x).size.toNat = bytes.length)
    (holds : Holds (storeOf sb image.disk) x bytes) :
    wp (iappend x p) (fun _ after => Grown image x bytes (bytes ++ p) after)
      (fun _ => Exceeds image.freeblock bytes.length (bytes ++ p).length)
      image := by
  unfold iappend
  rw [wp_bind]
  apply wp_rinode inside built.length
  rw [size]
  have self : storeWith image x ((storeOf sb image.disk).inode x) = _ :=
    storeWith_self
  apply wp.bind (iappendLoop_spec (x := x) p.length le_rfl
    (by rw [self]; exact built) last allocated (by rw [self]; exact holds))
  rintro ⟨din, off⟩ after ⟨extended, length⟩
  dsimp only at extended length ⊢
  subst off
  apply wp_winode inside extended.built.length
  have own : (storeWith after x din).inode x = din := inode_storeWith
  have number : (UInt32.ofNat (bytes ++ p).length).toNat =
      (bytes ++ p).length := by
    apply UInt32.toNat_ofNat_of_lt'
    exact lt_of_le_of_lt extended.holds.fits (by decide)
  have store : storeOf sb (Function.update after.disk (iblock sb x)
      (putDinode (after.disk (iblock sb x)) x
        { din with size := UInt32.ofNat (bytes ++ p).length })) =
      (storeWith after x din).setInode x
        { din with size := UInt32.ofNat (bytes ++ p).length } := by
    rw [storeOf_write_inode layout inside]
    unfold storeWith Store.setInode
    rw [Function.update_idem]
  have address : ((storeWith after x din).setInode x
      { din with size := UInt32.ofNat (bytes ++ p).length }).address =
      (storeWith after x din).address :=
    Store.address_setInode (by rw [own]) (by rw [own]; rfl)
  have byte := Store.byte_congr address rfl
  constructor
  case built =>
      rw [store]
      refine ⟨extended.built.length, extended.built.first,
        extended.built.fresh, ?_⟩
      rw [address]
      exact extended.built.owns
  case last => exact extended.last
  case holds =>
      rw [store]
      refine ⟨extended.holds.fits, ?_, ?_, ?_⟩
      · unfold Store.block
        rw [address]
        exact extended.holds.blocks
      · rw [address]
        exact extended.holds.indirect
      · intro k short
        rw [byte]
        exact extended.holds.content k short
  case size => rw [store, Store.inode_setInode_self, number]
  case type => rw [store, Store.inode_setInode_self, extended.fields]
  case nlink => rw [store, Store.inode_setInode_self, extended.fields]
  case inode =>
      intro y different
      rw [store, Store.inode_setInode_of_ne different, ← extended.inodes]
      exact Store.inode_setInode_of_ne different _ _
  case address =>
      intro y different p
      rw [store, address, extended.address y different, self]
  case byte =>
      intro y different k short
      rw [store, byte, extended.byte y different k short, self]
  case super =>
      dsimp only
      rw [disk_one_winode inside, extended.super]
  case freeinode => exact extended.freeinode
  case freeblock => exact extended.freeblock

end Xv6.Mkfs
