import Mathlib.Data.Nat.Bitwise
import Mathlib.Tactic.IntervalCases
import Xv6.Fs.Format

/-!
# Reading what was written

Every record of the format is read back as it was written, and a write leaves
the other records of its block alone.
-/

namespace Xv6.Fs

open Lib

/-! ## Bytes -/

theorem patch_inside {block : Bytes} {start count offset : Nat}
    {source : Nat → UInt8} (inside : offset < count) :
    patch block start count source (start + offset) = source offset := by
  unfold patch
  rw [if_pos (by omega), Nat.add_sub_cancel_left]

theorem patch_outside {block : Bytes} {start count offset : Nat}
    {source : Nat → UInt8}
    (outside : offset < start ∨ start + count ≤ offset) :
    patch block start count source offset = block offset := by
  unfold patch
  rw [if_neg (by omega)]

theorem uint_congr {bytes bytes' : Nat → UInt8}
    (same : ∀ offset, offset < 4 → bytes offset = bytes' offset) :
    uint bytes = uint bytes' := by
  unfold uint
  rw [littleValue_congr same]

theorem ushort_congr {bytes bytes' : Nat → UInt8}
    (same : ∀ offset, offset < 2 → bytes offset = bytes' offset) :
    ushort bytes = ushort bytes' := by
  unfold ushort
  rw [littleValue_congr same]

theorem uint_littleByte (value : UInt32) :
    uint (littleByte value.toNat) = value := by
  have small : value.toNat < 256 ^ 4 := value.toNat_lt
  unfold uint
  rw [littleValue_littleByte, Nat.mod_eq_of_lt small, UInt32.ofNat_toNat]

theorem ushort_littleByte (value : UInt16) :
    ushort (littleByte value.toNat) = value := by
  have small : value.toNat < 256 ^ 2 := value.toNat_lt
  unfold ushort
  rw [littleValue_littleByte, Nat.mod_eq_of_lt small, UInt16.ofNat_toNat]

theorem word_putWord (block : Bytes) (index : Nat) (value : UInt32) :
    word (putWord block index value) index = value := by
  calc
    word (putWord block index value) index
        = uint (littleByte value.toNat) := by
          apply uint_congr
          intro offset inside
          exact patch_inside inside
    _ = value := uint_littleByte value

theorem word_putWord_of_ne {index other : Nat} (different : other ≠ index)
    (block : Bytes) (value : UInt32) :
    word (putWord block index value) other = word block other := by
  apply uint_congr
  intro offset inside
  apply patch_outside
  omega

@[simp]
theorem uint_zeroes (start : Nat) : uint (bytesFrom zeroes start) = 0 := by
  simp [uint, littleValue, bytesFrom, zeroes]

@[simp]
theorem ushort_zeroes (start : Nat) : ushort (bytesFrom zeroes start) = 0 := by
  simp [ushort, littleValue, bytesFrom, zeroes]

theorem word_zeroes (index : Nat) : word zeroes index = 0 :=
  uint_zeroes _

/-! ## Bits -/

private theorem toNat_mask (bi : Nat) : (mask bi).toNat = 2 ^ (bi % 8) := by
  have small : bi % 8 < 8 := Nat.mod_lt _ (by decide)
  unfold mask
  generalize bi % 8 = i at small
  interval_cases i <;> rfl

theorem bitSet_eq_testBit (block : Bytes) (bi : Nat) :
    bitSet block bi = (block (bi / 8)).toNat.testBit (bi % 8) := by
  unfold bitSet
  rw [Bool.eq_iff_iff, bne_iff_ne, Ne, ← UInt8.toNat_inj, UInt8.toNat_and,
    toNat_mask, Nat.and_two_pow]
  cases (block (bi / 8)).toNat.testBit (bi % 8) <;> simp

theorem bitSet_setBit (block : Bytes) (bi other : Nat) :
    bitSet (setBit block bi) other =
      (decide (other = bi) || bitSet block other) := by
  rw [bitSet_eq_testBit, bitSet_eq_testBit]
  unfold setBit
  by_cases sameByte : other / 8 = bi / 8
  · rw [sameByte, Function.update_self, UInt8.toNat_or, Nat.testBit_or,
      toNat_mask, Nat.testBit_two_pow, Bool.or_comm]
    congr 1
    rw [decide_eq_decide]
    omega
  · have different : other ≠ bi := fun same => sameByte (by rw [same])
    rw [Function.update_of_ne sameByte, decide_eq_false different,
      Bool.false_or]

/-! ## Records -/

theorem Dinode.decode_congr {bytes bytes' : Nat → UInt8}
    (same : ∀ offset, offset < dinodeSize → bytes offset = bytes' offset) :
    Dinode.decode bytes = Dinode.decode bytes' := by
  have short : ∀ start, start + 2 ≤ dinodeSize →
      ushort (bytesFrom bytes start) = ushort (bytesFrom bytes' start) := by
    intro start inside
    apply ushort_congr
    intro offset small
    exact same _ (by omega)
  have long : ∀ start, start + 4 ≤ dinodeSize →
      uint (bytesFrom bytes start) = uint (bytesFrom bytes' start) := by
    intro start inside
    apply uint_congr
    intro offset small
    exact same _ (by omega)
  have slots : ∀ i : Fin (ndirect + 1), 12 + i * 4 + 4 ≤ dinodeSize := by
    decide
  unfold Dinode.decode
  rw [short 0 (by decide), short 2 (by decide), short 4 (by decide),
    short 6 (by decide), long 8 (by decide)]
  congr 1
  funext i
  exact long _ (slots i)

theorem Dirent.decode_congr {bytes bytes' : Nat → UInt8}
    (same : ∀ offset, offset < direntSize → bytes offset = bytes' offset) :
    Dirent.decode bytes = Dirent.decode bytes' := by
  have inum : ushort bytes = ushort bytes' := by
    apply ushort_congr
    intro offset small
    exact same _ (by unfold direntSize; omega)
  unfold Dirent.decode
  rw [inum]
  congr 1
  apply List.map_congr_left
  intro offset inside
  rw [List.mem_range] at inside
  apply same
  unfold dirsiz at inside
  unfold direntSize
  omega

theorem Dinode.decode_encode (dinode : Dinode) :
    Dinode.decode dinode.encode = dinode := by
  have short : ∀ (start : Nat) (value : UInt16),
      (∀ offset, offset < 2 → dinode.encode (start + offset) =
        littleByte value.toNat offset) →
      ushort (bytesFrom dinode.encode start) = value := by
    intro start value written
    rw [← ushort_littleByte value]
    exact ushort_congr written
  have long : ∀ (start : Nat) (value : UInt32),
      (∀ offset, offset < 4 → dinode.encode (start + offset) =
        littleByte value.toNat offset) →
      uint (bytesFrom dinode.encode start) = value := by
    intro start value written
    rw [← uint_littleByte value]
    exact uint_congr written
  have slots : ∀ i : Fin (ndirect + 1),
      uint (bytesFrom dinode.encode (12 + i * 4)) = dinode.addrs i := by
    intro i
    apply long
    intro offset small
    unfold Dinode.encode
    rw [if_neg (by omega), if_neg (by omega), if_neg (by omega),
      if_neg (by omega), if_neg (by omega)]
    have index : (12 + i * 4 + offset - 12) / 4 = i := by omega
    have rest : (12 + i * 4 + offset - 12) % 4 = offset := by omega
    rw [index, rest]
    congr 3
    exact Fin.ofNat_val_eq_self i
  unfold Dinode.decode
  rw [short 0 dinode.type, short 2 dinode.major, short 4 dinode.minor,
    short 6 dinode.nlink, long 8 dinode.size, funext slots]
  all_goals
    intro offset small
    interval_cases offset <;> rfl

theorem Dirent.decode_encode {de : Dirent} (full : de.name.length = dirsiz) :
    Dirent.decode de.encode = de := by
  have inum : ushort de.encode = de.inum := by
    calc
      ushort de.encode = ushort (littleByte de.inum.toNat) := by
        apply ushort_congr
        intro offset small
        unfold Dirent.encode
        rw [if_pos small]
      _ = de.inum := ushort_littleByte de.inum
  have name : (List.range dirsiz).map (bytesFrom de.encode 2) = de.name := by
    apply List.ext_getElem
    · simp [full]
    · intro i _ inside
      have behind : ¬ 2 + i < 2 := by omega
      have shift : 2 + i - 2 = i := by omega
      rw [List.getElem_map, List.getElem_range]
      unfold bytesFrom Dirent.encode
      rw [if_neg behind, shift, List.getD_eq_getElem _ _ inside]
  unfold Dirent.decode
  rw [inum, name]

@[simp]
theorem Dirent.length_bytes (de : Dirent) : de.bytes.length = direntSize := by
  simp [Dirent.bytes]

theorem getDinode_putDinode (block : Bytes) (inum : Nat) (dinode : Dinode) :
    getDinode (putDinode block inum dinode) inum = dinode := by
  calc
    getDinode (putDinode block inum dinode) inum
        = Dinode.decode dinode.encode := by
          apply Dinode.decode_congr
          intro offset inside
          exact patch_inside inside
    _ = dinode := dinode.decode_encode

theorem getDinode_putDinode_of_ne {inum other : Nat}
    (different : other % ipb ≠ inum % ipb) (block : Bytes) (dinode : Dinode) :
    getDinode (putDinode block inum dinode) other = getDinode block other := by
  apply Dinode.decode_congr
  intro offset inside
  apply patch_outside
  unfold dinodeStart
  unfold dinodeSize at *
  omega

theorem getDinode_zeroes (inum : Nat) :
    getDinode zeroes inum = Dinode.zero := by
  have shift : ∀ start, bytesFrom (bytesFrom zeroes (dinodeStart inum)) start
      = bytesFrom zeroes start := fun _ => rfl
  simp [getDinode, Dinode.decode, shift, Dinode.zero]

end Xv6.Fs
