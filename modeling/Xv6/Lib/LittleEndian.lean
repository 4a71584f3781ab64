import Mathlib.Data.Nat.Basic
import Mathlib.Data.Nat.ModEq

/-!
# Numbers in little-endian bytes

A number of a fixed width lies in memory with its lowest byte first.  Memory is
a function from offsets to bytes, so that a number can be read at any offset.
-/

namespace Xv6.Lib

/-- The byte at an offset of a number. -/
def littleByte (number offset : Nat) : UInt8 :=
  UInt8.ofNat (number / 256 ^ offset)

/-- The number in the first `width` bytes. -/
def littleValue (bytes : Nat → UInt8) : Nat → Nat
  | 0 => 0
  | width + 1 => littleValue bytes width + (bytes width).toNat * 256 ^ width

theorem littleValue_congr {bytes bytes' : Nat → UInt8} {width : Nat}
    (same : ∀ offset, offset < width → bytes offset = bytes' offset) :
    littleValue bytes width = littleValue bytes' width := by
  induction width with
  | zero => rfl
  | succ width induction =>
      rw [littleValue, littleValue, same width (by omega),
        induction fun offset inside => same offset (by omega)]

/-- What is written is read back, up to the width. -/
theorem littleValue_littleByte (number width : Nat) :
    littleValue (littleByte number) width = number % 256 ^ width := by
  induction width with
  | zero => simp [littleValue, Nat.mod_one]
  | succ width induction =>
      rw [littleValue, induction, Nat.pow_succ, Nat.mod_mul, littleByte,
        UInt8.toNat_ofNat']
      rw [Nat.mul_comm (256 ^ width)]

end Xv6.Lib
