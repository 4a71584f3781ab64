import Xv6.Mkfs.Build

/-!
# What the kernel relies on

The kernel takes from an image that a file has a block wherever its size
covers one, that the bitmap marks the blocks in use, and that no two inodes
share a block.  `main` gives the root directory a size that ends behind its
last entry even if that entry is the last of its block, so that a root
directory of full blocks gets a size that covers a block which it does not
have.
-/

namespace Xv6.Mkfs

open Lib Fs

structure Relied (image : Image) : Prop where
  covered : ∀ x bn,
    bn < (((storeOf sb image.disk).inode x).size.toNat + bsize - 1) / bsize →
    (storeOf sb image.disk).block x bn ≠ 0
  bitmap : ∀ b, b < bpb →
    (bitSet (image.disk sb.bmapstart.toNat) b ↔ b < image.freeblock)
  used : ∀ owner, (storeOf sb image.disk).address owner ≠ 0 →
    (storeOf sb image.disk).address owner < image.freeblock
  single : ∀ owner other, (storeOf sb image.disk).address owner ≠ 0 →
    (storeOf sb image.disk).address owner =
      (storeOf sb image.disk).address other → owner = other

/-- The entries of a directory in one block. -/
def direntsPerBlock : Nat := bsize / direntSize

namespace Made

variable {files : List Input} {image : Image}

/-- A file has the blocks that its size covers. -/
theorem file_covered (made : Made files image) {x bn : Nat}
    (other : x ≠ rootino)
    (covers : bn <
      (((storeOf sb image.disk).inode x).size.toNat + bsize - 1) / bsize) :
    (storeOf sb image.disk).block x bn ≠ 0 := by
  by_cases unused : x = 0 ∨ files.length + 2 ≤ x
  · rw [made.unused x unused] at covers
    have empty : (Dinode.zero.size.toNat + bsize - 1) / bsize = 0 := by decide
    omega
  · unfold rootino at other
    obtain ⟨i, rfl⟩ : ∃ i, x = i + 2 := ⟨x - 2, by omega⟩
    have inside : i < files.length := by omega
    have is := made.file i _ (List.getElem?_eq_getElem inside)
    have fits := is.holds.fits
    rw [is.size] at covers
    unfold bsize at covers fits
    rw [Ne, is.holds.blocks bn (by omega)]
    unfold bsize
    omega

/-- The root directory has the blocks that its size covers, unless its last
block is full. -/
theorem root_covered_iff (few : files.length + 1 < ninodes)
    (made : Made files image) :
    (∀ bn, bn < (((storeOf sb image.disk).inode rootino).size.toNat +
        bsize - 1) / bsize → (storeOf sb image.disk).block rootino bn ≠ 0) ↔
      (files.length + 2) % direntsPerBlock ≠ 0 := by
  have blocks := made.root.blocks
  rw [length_rootBytes] at blocks
  rw [made.rootSize, length_rootBytes]
  have perBlock : direntsPerBlock = 32 := rfl
  have small : ninodes = 200 := rfl
  rw [perBlock]
  unfold bsize direntSize maxfile ndirect nindirect bsize at *
  constructor
  · intro covered full
    apply covered ((files.length + 2) / 32) (by omega)
    rw [blocks _ (by omega)]
    omega
  · intro partly bn covers
    rw [Ne, blocks bn (by omega)]
    omega

theorem relied_iff (few : files.length + 1 < ninodes)
    (made : Made files image) :
    Relied image ↔ (files.length + 2) % direntsPerBlock ≠ 0 := by
  constructor
  · intro relied
    exact (made.root_covered_iff few).mp (relied.covered rootino)
  · intro partly
    constructor
    case covered =>
        intro x bn covers
        by_cases root : x = rootino
        · subst x
          exact (made.root_covered_iff few).mpr partly bn covers
        · exact made.file_covered root covers
    case bitmap =>
        intro b _
        rw [made.bitmap, bitSet_foldl_setBit, decide_eq_true_iff]
    case used => exact made.owns.used
    case single => exact made.owns.single

end Made

/-- An image is what the kernel relies on exactly if the entries of the root
directory do not fill their last block. -/
theorem main_relied_iff (files : List Input)
    (few : files.length < ninodes - 1) (image : Image)
    (exits : (main files).run Image.start = .ok ((), image)) :
    Relied image ↔ (files.length + 2) % direntsPerBlock ≠ 0 := by
  have few' : files.length + 1 < ninodes := by omega
  exact ((main_spec few').ok exits).relied_iff few'

/-- Files with one-letter names and without contents. -/
def emptyFiles (count : Nat) : List Input :=
  (List.range count).map fun i =>
    ⟨[slash, UInt8.ofNat (i + 96)], [], by simp, by simp⟩

theorem main_exits {files : List Input} (few : files.length + 1 < ninodes)
    (fits : Fits files) :
    ∃ image, (main files).run Image.start = .ok ((), image) := by
  have spec : wp (main files) (fun _ after => Made files after)
      (fun _ => False) Image.start :=
    (main_spec few).mono (fun _ _ => id) fun _ wrong => wrong fits
  obtain ⟨_, image, success, _⟩ := spec.returns
  exact ⟨image, success⟩

/-- With thirty files the root directory has thirty-two entries. -/
theorem main_not_relied :
    ((emptyFiles 30).map fun input => shortname input.path).Nodup ∧
      ∃ image, (main (emptyFiles 30)).run Image.start = .ok ((), image) ∧
        ¬ Relied image := by
  refine ⟨by decide, ?_⟩
  have few : (emptyFiles 30).length + 1 < ninodes := by decide
  obtain ⟨image, success⟩ :=
    main_exits few ⟨by decide, by decide, by decide⟩
  refine ⟨image, success, ?_⟩
  rw [((main_spec few).ok success).relied_iff few]
  decide

theorem main_relied_emptyFiles :
    ∃ image, (main (emptyFiles 29)).run Image.start = .ok ((), image) ∧
      Relied image := by
  have few : (emptyFiles 29).length + 1 < ninodes := by decide
  obtain ⟨image, success⟩ :=
    main_exits few ⟨by decide, by decide, by decide⟩
  exact ⟨image, success,
    (main_relied_iff (emptyFiles 29) (by decide) image success).mpr
      (by decide)⟩

end Xv6.Mkfs
