import Mathlib.Logic.Function.Basic
import Xv6.Param

/-!
# The two `memmove`s

The kernel's `memmove` copies from the end when the destination starts inside
the source.  That of the user library always copies from the start, and reads
bytes that it has written when the ranges overlap that way.

Pointers are numbers below `2 ^ 32`, and a pointer behind the last byte of the
address space is zero.
-/

namespace Xv6.Memmove

abbrev Memory := Nat → UInt8

/-- `while(n-- > 0) *d++ = *s++;` -/
def copyForward : Nat → Memory → Nat → Nat → Memory
  | 0, mem, _, _ => mem
  | n + 1, mem, d, s =>
      copyForward n (Function.update mem d (mem s)) (uintAdd d 1) (uintAdd s 1)

/-- `--p` of a pointer. -/
def decrement (p : Nat) : Nat := if p = 0 then 2 ^ 32 - 1 else p - 1

/-- `while(n-- > 0) *--d = *--s;` -/
def copyBackward : Nat → Memory → Nat → Nat → Memory
  | 0, mem, _, _ => mem
  | n + 1, mem, d, s =>
      copyBackward n (Function.update mem (decrement d) (mem (decrement s)))
        (decrement d) (decrement s)

/-- `memmove` of `kernel/string.c`: the pointer that it returns and the
memory. -/
def Kernel.memmove (mem : Memory) (dst src n : Nat) : Nat × Memory :=
  if src < dst ∧ dst < uintAdd src n then
    (dst, copyBackward n mem (uintAdd dst n) (uintAdd src n))
  else (dst, copyForward n mem dst src)

/-- `memmove` of `libs/ulib.c`, whose `n` is an `int`. -/
def User.memmove (mem : Memory) (vdst vsrc : Nat) (n : Int) : Nat × Memory :=
  (vdst, copyForward n.toNat mem vdst vsrc)

/-- The `n` bytes at `dst` are those that were at `src`, and every other byte
is as it was. -/
structure Moved (dst src n : Nat) (mem after : Memory) : Prop where
  bytes : ∀ i, i < n → after (dst + i) = mem (src + i)
  others : ∀ x, x < dst ∨ dst + n ≤ x → after x = mem x

/-- Where the destination starts inside the source, the source repeats itself
at the distance of the two. -/
def Repeats (dst src n : Nat) (mem : Memory) : Prop :=
  src < dst → ∀ i, dst + i < src + n → mem (dst + i) = mem (src + i)

variable {mem : Memory} {dst src n : Nat}

/-! ## Copying from the start -/

/-- The pointers do not wrap as long as there is something to copy. -/
theorem copyForward_succ (fits : dst + (n + 1) ≤ 2 ^ 32)
    (fits' : src + (n + 1) ≤ 2 ^ 32) :
    copyForward (n + 1) mem dst src =
      copyForward n (Function.update mem dst (mem src)) (dst + 1)
        (src + 1) := by
  cases n with
  | zero => rfl
  | succ n =>
      rw [copyForward, uintAdd_of_lt (by omega), uintAdd_of_lt (by omega)]

section Forward

variable (fits : dst + n ≤ 2 ^ 32) (fits' : src + n ≤ 2 ^ 32)

include fits fits'

theorem copyForward_others {x : Nat} (outside : x < dst ∨ dst + n ≤ x) :
    copyForward n mem dst src x = mem x := by
  induction n generalizing mem dst src with
  | zero => rfl
  | succ n induction =>
      rw [copyForward_succ fits fits',
        induction (by omega) (by omega) (by omega),
        Function.update_of_ne (by omega)]

/-- Below the source, no byte is overwritten before it is read. -/
theorem copyForward_below (below : dst ≤ src) {i : Nat} (inside : i < n) :
    copyForward n mem dst src (dst + i) = mem (src + i) := by
  induction n generalizing mem dst src i with
  | zero => exact absurd inside (Nat.not_lt_zero i)
  | succ n induction =>
      rw [copyForward_succ fits fits']
      cases i with
      | zero =>
          rw [copyForward_others (by omega) (by omega) (by omega)]
          exact Function.update_self ..
      | succ i =>
          rw [show dst + (i + 1) = dst + 1 + i by omega,
            show src + (i + 1) = src + 1 + i by omega,
            induction (by omega) (by omega) (by omega) (by omega),
            Function.update_of_ne (by omega)]

/-- Above the source, a byte is copied from what the loop has made of the
source. -/
theorem copyForward_above (above : src < dst) {i : Nat} (inside : i < n) :
    copyForward n mem dst src (dst + i) =
      copyForward n mem dst src (src + i) := by
  induction n generalizing mem dst src i with
  | zero => exact absurd inside (Nat.not_lt_zero i)
  | succ n induction =>
      rw [copyForward_succ fits fits']
      cases i with
      | zero =>
          rw [copyForward_others (by omega) (by omega) (by omega),
            copyForward_others (by omega) (by omega) (by omega)]
          exact (Function.update_self ..).trans
            (Function.update_of_ne (Nat.ne_of_lt above) ..).symm
      | succ i =>
          rw [show dst + (i + 1) = dst + 1 + i by omega,
            show src + (i + 1) = src + 1 + i by omega]
          exact induction (by omega) (by omega) (by omega) (by omega)

/-- The loop is right exactly where the source repeats itself. -/
theorem moved_copyForward_iff :
    Moved dst src n mem (copyForward n mem dst src) ↔
      Repeats dst src n mem := by
  constructor
  · intro moved above i inside
    obtain ⟨j, rfl⟩ := Nat.exists_eq_add_of_le (Nat.le_of_lt above)
    have later := moved.bytes (j + i) (by omega)
    rw [copyForward_above fits fits' above (by omega), ← Nat.add_assoc,
      moved.bytes i (by omega)] at later
    exact later.symm
  · intro repeats
    refine ⟨fun i inside => ?_, fun x => copyForward_others fits fits'⟩
    by_cases above : src < dst
    · induction i using Nat.strongRecOn with
      | ind i induction =>
          rw [copyForward_above fits fits' above inside]
          by_cases early : src + i < dst
          · exact copyForward_others fits fits' (.inl early)
          · obtain ⟨j, reached⟩ := Nat.exists_eq_add_of_le (Nat.not_lt.mp early)
            rw [reached, induction j (by omega) (by omega)]
            exact (repeats above j (by omega)).symm
    · exact copyForward_below fits fits' (by omega) inside

end Forward

/-! ## Copying from the end -/

/-- The pointers start behind the ranges, at zero if these end with the
address space. -/
theorem moved_copyBackward (fits : dst + n ≤ 2 ^ 32)
    (fits' : src + n ≤ 2 ^ 32) (above : src ≤ dst) :
    Moved dst src n mem
      (copyBackward n mem (uintAdd dst n) (uintAdd src n)) := by
  induction n generalizing mem with
  | zero => exact ⟨fun i inside => absurd inside (Nat.not_lt_zero i),
      fun _ _ => rfl⟩
  | succ n induction =>
      have back : ∀ p, p + (n + 1) ≤ 2 ^ 32 →
          decrement (uintAdd p (n + 1)) = uintAdd p n ∧
            uintAdd p n = p + n := by
        intro p fits
        unfold decrement uintAdd
        split <;> omega
      rw [copyBackward, (back dst fits).1, (back src fits').1]
      have moved : Moved dst src n
          (Function.update mem (uintAdd dst n) (mem (uintAdd src n))) _ :=
        induction (by omega) (by omega)
      rw [(back dst fits).2] at moved ⊢
      refine ⟨fun i inside => ?_, fun x outside => ?_⟩
      · rcases Nat.lt_succ_iff_lt_or_eq.mp inside with before | rfl
        · rw [moved.bytes i before, Function.update_of_ne (by omega)]
        · rw [moved.others _ (.inr (Nat.le_refl _)), Function.update_self,
            (back src fits').2]
      · rw [moved.others x (by omega), Function.update_of_ne (by omega)]

/-! ## Both functions -/

/-- The kernel takes the other direction where it matters. -/
theorem Kernel.moved_memmove (fits : dst + n ≤ 2 ^ 32)
    (fits' : src + n ≤ 2 ^ 32) :
    Moved dst src n mem (Kernel.memmove mem dst src n).2 := by
  unfold Kernel.memmove
  split
  · rename_i overlap
    exact moved_copyBackward fits fits' (Nat.le_of_lt overlap.1)
  · rename_i apart
    refine (moved_copyForward_iff fits fits').mpr fun above i inside => ?_
    rw [uintAdd_of_lt (by omega)] at apart
    omega

/-- Where the ranges lie in the address space, the kernel's `memmove` copies
`n` bytes, a `uint`.  That of the user library copies `k` bytes, an `int`,
exactly if the source repeats itself where the destination covers it. -/
theorem memmoves_iff_repeats {k : Int}
    (kernel : dst + n ≤ 2 ^ 32 ∧ src + n ≤ 2 ^ 32)
    (user : dst + k.toNat ≤ 2 ^ 32 ∧ src + k.toNat ≤ 2 ^ 32) :
    Moved dst src n mem (Kernel.memmove mem dst src n).2 ∧
      Moved dst src k.toNat mem (User.memmove mem dst src k).2 ↔
    Repeats dst src k.toNat mem := by
  have copied : Moved dst src n mem (Kernel.memmove mem dst src n).2 :=
    Kernel.moved_memmove kernel.1 kernel.2
  exact (and_iff_right copied).trans (moved_copyForward_iff user.1 user.2)

/-- A memory in which no byte is like the one before it. -/
def counting : Memory := UInt8.ofNat

/-- Two bytes go to the two addresses behind them. -/
theorem memmoves_iff_repeats_adjacent :
    Moved 2 0 2 counting (Kernel.memmove counting 2 0 2).2 ∧
      Moved 2 0 2 counting (User.memmove counting 2 0 2).2 := by
  have apart : Repeats 2 0 (2 : Int).toNat counting := by
    intro _ i inside
    omega
  exact (memmoves_iff_repeats (by decide) (by decide)).mpr apart

/-- Two bytes are moved up by one: the second of them is lost. -/
theorem User.memmove_loses :
    (User.memmove counting 1 0 2).2 2 = 0 ∧ counting 1 = 1 ∧
      ¬ Moved 1 0 2 counting (User.memmove counting 1 0 2).2 := by
  refine ⟨rfl, rfl, fun moved => ?_⟩
  have wrong : (0 : UInt8) = 1 := moved.bytes 1 (by decide)
  exact absurd wrong (by decide)

end Xv6.Memmove
