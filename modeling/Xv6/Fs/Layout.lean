import Xv6.Fs.Store

/-!
# The regions of a disk

The superblock says where the inodes, the bitmap and the data blocks are.
Where these regions are apart, a disk is a store and a set of marked blocks,
and a write to one region leaves the others alone.
-/

namespace Xv6.Fs

open Lib

/-- The first data block. -/
def Superblock.datastart (sb : Superblock) : Nat :=
  sb.size.toNat - sb.nblocks.toNat

/-- The data area. -/
def Superblock.Area (sb : Superblock) (b : Nat) : Prop :=
  sb.datastart ≤ b ∧ b < sb.size.toNat

/-- The regions follow one another: the boot block and the superblock, the
log, the inodes, the bitmap and the data blocks. -/
structure Layout (sb : Superblock) : Prop where
  boot : 2 ≤ sb.logstart.toNat
  log : sb.logstart.toNat + sb.nlog.toNat ≤ sb.inodestart.toNat
  inodes : sb.inodestart.toNat + (sb.ninodes.toNat + ipb - 1) / ipb ≤
    sb.bmapstart.toNat
  bitmap : sb.bmapstart.toNat + (sb.size.toNat + bpb - 1) / bpb ≤ sb.datastart
  ninodes : sb.ninodes.toNat ≤ 2 ^ 16

/-- The inodes and data blocks of a disk. -/
def storeOf (sb : Superblock) (disk : Nat → Bytes) : Store where
  inode x :=
    if x < sb.ninodes.toNat then getDinode (disk (iblock sb x)) x
    else Dinode.zero
  data b := if sb.datastart ≤ b ∧ b < sb.size.toNat then disk b else zeroes

/-- The bit of a block. -/
def Marked (sb : Superblock) (disk : Nat → Bytes) (b : Nat) : Prop :=
  b < sb.size.toNat ∧ bitSet (disk (bblock sb b)) (b % bpb) = true

section Regions

variable {sb : Superblock} (layout : Layout sb) {disk : Nat → Bytes}

include layout

theorem Layout.not_area_zero : ¬ sb.Area 0 := by
  intro ⟨first, second⟩
  have bitmap := layout.bitmap
  unfold bpb bsize at bitmap
  omega

theorem Layout.iblock_lt {x : Nat} (inside : x < sb.ninodes.toNat) :
    sb.inodestart.toNat ≤ iblock sb x ∧ iblock sb x < sb.bmapstart.toNat := by
  have inodes := layout.inodes
  unfold iblock
  unfold ipb bsize dinodeSize at *
  omega

theorem Layout.bblock_lt {b : Nat} (inside : b < sb.size.toNat) :
    sb.bmapstart.toNat ≤ bblock sb b ∧ bblock sb b < sb.datastart := by
  have bitmap := layout.bitmap
  unfold bblock
  unfold bpb bsize at *
  omega

theorem Layout.bmapstart_le : sb.bmapstart.toNat ≤ sb.datastart :=
  le_trans (Nat.le_add_right _ _) layout.bitmap

theorem Layout.iblock_lt_size {x : Nat} (inside : x < sb.ninodes.toNat) :
    iblock sb x < sb.size.toNat := by
  have bitmap := layout.bmapstart_le
  have first := layout.iblock_lt inside
  have second : sb.datastart ≤ sb.size.toNat := Nat.sub_le _ _
  omega

theorem Layout.bblock_lt_size {b : Nat} (inside : b < sb.size.toNat) :
    bblock sb b < sb.size.toNat := by
  have first := layout.bblock_lt inside
  have second : sb.datastart ≤ sb.size.toNat := Nat.sub_le _ _
  omega

theorem storeOf_write_data {b : Nat} (inside : sb.Area b) (block : Bytes) :
    storeOf sb (Function.update disk b block) =
      (storeOf sb disk).setData b block := by
  apply Store.ext
  · funext x
    unfold storeOf Store.setData
    dsimp only
    split
    · rename_i inside'
      have region := layout.iblock_lt inside'
      have bitmap := layout.bmapstart_le
      rw [Function.update_of_ne]
      unfold Superblock.Area at inside
      omega
    · rfl
  · funext c
    unfold storeOf Store.setData
    dsimp only
    by_cases same : c = b
    · subst c
      rw [Function.update_self, Function.update_self]
      exact if_pos inside
    · rw [Function.update_of_ne same, Function.update_of_ne same]

theorem storeOf_write_inode {x : Nat} (inside : x < sb.ninodes.toNat)
    (dinode : Dinode) :
    storeOf sb (Function.update disk (iblock sb x)
        (putDinode (disk (iblock sb x)) x dinode)) =
      (storeOf sb disk).setInode x dinode := by
  apply Store.ext
  · funext y
    unfold storeOf Store.setInode
    dsimp only
    by_cases same : y = x
    · subst y
      rw [if_pos inside, Function.update_self, Function.update_self,
        getDinode_putDinode]
    · rw [Function.update_of_ne same]
      split
      · by_cases block : iblock sb y = iblock sb x
        · rw [block, Function.update_self, getDinode_putDinode_of_ne]
          intro equal
          apply same
          unfold iblock at block
          have quotient : y / ipb = x / ipb := by omega
          rw [← Nat.div_add_mod y ipb, ← Nat.div_add_mod x ipb, quotient,
            equal]
        · rw [Function.update_of_ne block]
      · rfl
  · funext b
    unfold storeOf Store.setInode
    dsimp only
    split
    · rename_i inside'
      have region := layout.iblock_lt inside
      have bitmap := layout.bmapstart_le
      rw [Function.update_of_ne]
      omega
    · rfl

theorem storeOf_write_bitmap {b : Nat} (inside : b < sb.size.toNat)
    (block : Bytes) :
    storeOf sb (Function.update disk (bblock sb b) block) =
      storeOf sb disk := by
  have region := layout.bblock_lt inside
  unfold storeOf
  apply Store.ext
  · funext x
    dsimp only
    split
    · rename_i inside'
      have region' := layout.iblock_lt inside'
      rw [Function.update_of_ne]
      omega
    · rfl
  · funext c
    dsimp only
    split
    · rw [Function.update_of_ne]
      omega
    · rfl

theorem marked_write_data {b : Nat} (inside : sb.Area b) (block : Bytes) :
    Marked sb (Function.update disk b block) = Marked sb disk := by
  funext c
  unfold Marked
  apply propext
  apply and_congr_right
  intro inside'
  have region := layout.bblock_lt inside'
  unfold Superblock.Area at inside
  rw [Function.update_of_ne]
  omega

theorem marked_write_inode {x : Nat} (inside : x < sb.ninodes.toNat)
    (block : Bytes) :
    Marked sb (Function.update disk (iblock sb x) block) = Marked sb disk := by
  funext c
  unfold Marked
  apply propext
  apply and_congr_right
  intro inside'
  have region := layout.bblock_lt inside'
  have region' := layout.iblock_lt inside
  rw [Function.update_of_ne]
  omega

omit layout in
private theorem bit_of_block {b c : Nat} (same : bblock sb c = bblock sb b) :
    c % bpb = b % bpb ↔ c = b := by
  unfold bblock at same
  have quotient : c / bpb = b / bpb := by omega
  constructor
  · intro rest
    rw [← Nat.div_add_mod c bpb, ← Nat.div_add_mod b bpb, quotient, rest]
  · intro equal
    rw [equal]

omit layout in
theorem marked_setBit {b : Nat} (inside : b < sb.size.toNat) :
    Marked sb (Function.update disk (bblock sb b)
        (setBit (disk (bblock sb b)) (b % bpb))) =
      fun c => c = b ∨ Marked sb disk c := by
  funext c
  apply propext
  unfold Marked
  by_cases block : bblock sb c = bblock sb b
  · rw [block, Function.update_self, bitSet_setBit]
    have bit := bit_of_block block
    by_cases same : c = b
    · simp [same, inside]
    · simp [same, bit]
  · have different : c ≠ b := fun same => block (by rw [same])
    rw [Function.update_of_ne block]
    simp [different]

end Regions

end Xv6.Fs
