import Mathlib.Logic.Function.Iterate
import Mathlib.Logic.Relation
import Xv6.Param

/-!
# The multiprocessor tables, `kernel/mp.c`

Memory is a function from addresses of 32 bits to bytes, and pointers wrap
around.  `mpinit` walks over the entries of the configuration table.  The
`break` behind an unknown entry leaves the `switch` and not the loop, so that
the loop looks at the same entry for ever.
-/

namespace Xv6.Mp

abbrev Memory := UInt32 → UInt8

/-- `P2V`. -/
def p2v (a : UInt32) : UInt32 := a + 0x80000000

/-- The bytes at an address. -/
def bytes (mem : Memory) (addr : UInt32) (len : Nat) : List UInt8 :=
  (List.range len).map fun i => mem (addr + UInt32.ofNat i)

def ushort (mem : Memory) (addr : UInt32) : Nat :=
  (mem addr).toNat + 2 ^ 8 * (mem (addr + 1)).toNat

def uint (mem : Memory) (addr : UInt32) : UInt32 :=
  UInt32.ofNat (ushort mem addr + 2 ^ 16 * ushort mem (addr + 2))

/-- `sum`. -/
def sum (mem : Memory) (addr : UInt32) (len : Nat) : UInt8 :=
  (bytes mem addr len).foldl (· + ·) 0

/-- `sizeof(struct mp)`. -/
def mpSize : Nat := 16

/-- `mpsearch1`, for `len` a multiple of the size of `struct mp`. -/
def mpsearch1 (mem : Memory) (a : UInt32) (len : Nat) : Option UInt32 :=
  ((List.range (len / mpSize)).map
    fun i => p2v a + UInt32.ofNat (i * mpSize)).find? fun p =>
      bytes mem p 4 = "_MP_".toList.map Char.toUInt8 ∧ sum mem p mpSize = 0

/-- `mpsearch`. -/
def mpsearch (mem : Memory) : Option UInt32 :=
  let bda := p2v 0x400
  let p := UInt32.ofNat (ushort mem (bda + 0x0e)) <<< 4
  let q := UInt32.ofNat (ushort mem (bda + 0x13)) * 1024
  let first :=
    if p ≠ 0 then mpsearch1 mem p 1024 else mpsearch1 mem (q - 1024) 1024
  match first with
  | some mp => some mp
  | none => mpsearch1 mem 0xf0000 0x10000

/-- `mpconfig`: the floating pointer and the configuration table. -/
def mpconfig (mem : Memory) : Option (UInt32 × UInt32) :=
  match mpsearch mem with
  | none => none
  | some mp =>
      let physaddr := uint mem (mp + 4)
      let conf := p2v physaddr
      let version := mem (conf + 6)
      if physaddr = 0 then none
      else if bytes mem conf 4 ≠ "PCMP".toList.map Char.toUInt8 then none
      else if version ≠ 1 ∧ version ≠ 4 then none
      else if sum mem conf (ushort mem (conf + 4)) ≠ 0 then none
      else some (mp, conf)

/-! ## The scan -/

/-- `NCPU`. -/
def ncpus : Nat := 8

/-- `sizeof(struct mpconf)`. -/
def mpconfSize : UInt32 := 44

/-- The types of the entries. -/
inductive Entry where
  | mpproc
  | mpbus
  | mpioapic
  | mpiointr
  | mplintr

/-- The type that a byte stands for. -/
def Entry.ofByte (b : UInt8) : Option Entry :=
  if b = 0x00 then some .mpproc
  else if b = 0x01 then some .mpbus
  else if b = 0x02 then some .mpioapic
  else if b = 0x03 then some .mpiointr
  else if b = 0x04 then some .mplintr
  else none

/-- What the loop adds to `p`. -/
def Entry.size : Entry → UInt32
  | .mpproc => 20
  | .mpbus | .mpioapic | .mpiointr | .mplintr => 8

/-- The variables that the loop changes. -/
structure Scan where
  p : UInt32
  ismp : Bool
  cpus : Fin ncpus → UInt8
  ncpu : Nat
  ioapicid : UInt8

/-- The body of the loop. -/
def Scan.next (mem : Memory) (scan : Scan) : Scan :=
  match Entry.ofByte (mem scan.p) with
  | some .mpproc =>
      if room : scan.ncpu < ncpus then
        { scan with
          p := scan.p + Entry.mpproc.size
          cpus := Function.update scan.cpus ⟨scan.ncpu, room⟩ (mem (scan.p + 1))
          ncpu := scan.ncpu + 1 }
      else { scan with p := scan.p + Entry.mpproc.size }
  | some .mpioapic =>
      { scan with
        p := scan.p + Entry.mpioapic.size
        ioapicid := mem (scan.p + 1) }
  | some entry => { scan with p := scan.p + entry.size }
  | none => { scan with ismp := false }

/-- The loop.  `none` is a loop that has not ended after `fuel` turns. -/
def Scan.loop (mem : Memory) (e : UInt32) : Nat → Scan → Option Scan
  | 0, _ => none
  | fuel + 1, scan =>
      if scan.p < e then Scan.loop mem e fuel (scan.next mem) else some scan

/-- What `mpinit` leaves behind. -/
structure Machine where
  lapic : UInt32
  cpus : Fin ncpus → UInt8
  ncpu : Nat
  ioapicid : UInt8
  imcr : Bool

/-- The variables before the loop. -/
def Scan.start (conf : UInt32) : Scan :=
  ⟨conf + mpconfSize, true, fun _ => 0, 0, 0⟩

/-- The address behind the table. -/
def tableEnd (mem : Memory) (conf : UInt32) : UInt32 :=
  conf + UInt32.ofNat (ushort mem (conf + 4))

/-- `mpinit`. -/
def mpinit (mem : Memory) (fuel : Nat) : Option (Except Fault Machine) :=
  match mpconfig mem with
  | none => some (.error (.panic "Expect to run on an SMP"))
  | some (mp, conf) =>
      (Scan.loop mem (tableEnd mem conf) fuel (.start conf)).map fun scan =>
        if scan.ismp then
          .ok
            { lapic := uint mem (conf + 36)
              cpus := scan.cpus
              ncpu := scan.ncpu
              ioapicid := scan.ioapicid
              imcr := mem (mp + 12) ≠ 0 }
        else .error (.panic "Didn't find a suitable machine")

/-! ## When the scan ends -/

/-- From `p` the entries up to `e` are of known types. -/
inductive Walks (mem : Memory) (e : UInt32) : UInt32 → Prop where
  | finished {p : UInt32} : ¬ p < e → Walks mem e p
  | entry {p : UInt32} {entry : Entry} : p < e →
      Entry.ofByte (mem p) = some entry → Walks mem e (p + entry.size) →
      Walks mem e p

variable {mem : Memory} {e : UInt32} {scan : Scan} {entry : Entry}

theorem Scan.next_p (known : Entry.ofByte (mem scan.p) = some entry) :
    (scan.next mem).p = scan.p + entry.size ∧
      (scan.next mem).ismp = scan.ismp := by
  unfold Scan.next
  rw [known]
  cases entry with
  | mpproc =>
      dsimp only
      split <;> exact ⟨rfl, rfl⟩
  | mpbus => exact ⟨rfl, rfl⟩
  | mpioapic => exact ⟨rfl, rfl⟩
  | mpiointr => exact ⟨rfl, rfl⟩
  | mplintr => exact ⟨rfl, rfl⟩

theorem Scan.next_stuck (unknown : Entry.ofByte (mem scan.p) = none) :
    (scan.next mem).p = scan.p := by
  unfold Scan.next
  rw [unknown]

/-- An unknown entry keeps the loop where it is. -/
theorem Scan.loop_stuck (inside : scan.p < e)
    (unknown : Entry.ofByte (mem scan.p) = none) (fuel : Nat) :
    Scan.loop mem e fuel scan = none := by
  induction fuel generalizing scan with
  | zero => rfl
  | succ fuel ih =>
      have stays := Scan.next_stuck unknown
      rw [Scan.loop, if_pos inside]
      apply ih
      · rw [stays]
        exact inside
      · rw [stays]
        exact unknown

theorem Scan.loop_of_walks (walks : Walks mem e scan.p) :
    ∃ fuel last, Scan.loop mem e fuel scan = some last := by
  generalize place : scan.p = p at walks
  induction walks generalizing scan with
  | finished outside =>
      refine ⟨1, scan, ?_⟩
      rw [Scan.loop, place, if_neg outside]
  | entry inside known _ ih =>
      rw [← place] at known inside
      obtain ⟨moved, _⟩ := Scan.next_p known
      obtain ⟨fuel, last, found⟩ := ih (by rw [moved, place])
      refine ⟨fuel + 1, last, ?_⟩
      rw [Scan.loop, if_pos inside, found]

theorem Scan.walks_of_loop {fuel : Nat} {last : Scan}
    (found : Scan.loop mem e fuel scan = some last) :
    Walks mem e scan.p ∧ last.ismp = scan.ismp := by
  induction fuel generalizing scan with
  | zero => cases found
  | succ fuel ih =>
      by_cases inside : scan.p < e
      · cases known : Entry.ofByte (mem scan.p) with
        | none =>
            rw [Scan.loop_stuck inside known] at found
            cases found
        | some entry =>
            rw [Scan.loop, if_pos inside] at found
            obtain ⟨moved, same⟩ := Scan.next_p known
            obtain ⟨walks, ismp⟩ := ih found
            rw [moved] at walks
            exact ⟨.entry inside known walks, ismp.trans same⟩
      · rw [Scan.loop, if_neg inside] at found
        cases found
        exact ⟨.finished inside, rfl⟩

/-- `ncpu` stays a number of processors. -/
theorem Scan.next_ncpu (few : scan.ncpu ≤ ncpus) :
    (scan.next mem).ncpu ≤ ncpus := by
  unfold Scan.next
  split
  · split
    · assumption
    · exact few
  · exact few
  · exact few
  · exact few

theorem Scan.iterate_ncpu (few : scan.ncpu ≤ ncpus) (turns : Nat) :
    ((Scan.next mem)^[turns] scan).ncpu ≤ ncpus := by
  induction turns generalizing scan with
  | zero => exact few
  | succ turns ih => exact ih (Scan.next_ncpu few)

/-- One entry of a known type is followed by `q`. -/
def Follows (mem : Memory) (e p q : UInt32) : Prop :=
  p < e ∧ ∃ entry, Entry.ofByte (mem p) = some entry ∧ q = p + entry.size

/-- Every entry that the loop comes to is of a known type. -/
def Known (mem : Memory) (e p : UInt32) : Prop :=
  ∀ q, Relation.ReflTransGen (Follows mem e) p q → q < e →
    Entry.ofByte (mem q) ≠ none

theorem Walks.known {p : UInt32} (walks : Walks mem e p) : Known mem e p := by
  induction walks with
  | finished outside =>
      intro q reached inside
      rcases reached.cases_head with rfl | ⟨_, first, _⟩
      · exact (outside inside).elim
      · exact (outside first.1).elim
  | entry inside known _ ih =>
      intro q reached inside'
      rcases reached.cases_head with rfl | ⟨middle, first, rest⟩
      · rw [known]
        exact Option.some_ne_none _
      · obtain ⟨_, entry, same, rfl⟩ := first
        rw [known] at same
        cases same
        exact ih q rest inside'

theorem Entry.size_pos (entry : Entry) :
    0 < entry.size.toNat ∧ entry.size.toNat ≤ 20 := by
  cases entry <;> decide

/-- Below the last bytes of the address space every entry brings `p` nearer
to the end. -/
theorem Known.walks (room : e.toNat + 20 ≤ 2 ^ 32) {p : UInt32}
    (known : Known mem e p) : Walks mem e p := by
  induction left : e.toNat - p.toNat using Nat.strongRecOn
    generalizing p with
  | ind left ih =>
      by_cases inside : p < e
      · have below := UInt32.lt_iff_toNat_lt.mp inside
        obtain ⟨entry, type⟩ :=
          Option.ne_none_iff_exists'.mp (known p .refl inside)
        obtain ⟨positive, small⟩ := entry.size_pos
        have sum : (p + entry.size).toNat = p.toNat + entry.size.toNat := by
          rw [UInt32.toNat_add]
          omega
        refine .entry inside type (ih _ ?_ ?_ rfl)
        · omega
        · intro q reached
          exact known q (reached.head ⟨inside, entry, type, rfl⟩)
      · exact .finished inside

/-- `mpinit` ends exactly if the entries of the table are of known types, and
then it does not panic. -/
theorem mpinit_ends_iff (mem : Memory) (mp conf : UInt32)
    (accepted : mpconfig mem = some (mp, conf)) :
    ((∃ fuel outcome, mpinit mem fuel = some outcome) ↔
      Walks mem (tableEnd mem conf) (conf + mpconfSize)) ∧
    ((tableEnd mem conf).toNat + 20 ≤ 2 ^ 32 →
      (Walks mem (tableEnd mem conf) (conf + mpconfSize) ↔
        Known mem (tableEnd mem conf) (conf + mpconfSize))) ∧
    (∀ fuel reason, mpinit mem fuel ≠ some (.error reason)) ∧
    ∀ turns, ((Scan.next mem)^[turns] (.start conf)).ncpu ≤ ncpus := by
  refine ⟨⟨?_, ?_⟩, fun room => ⟨Walks.known, Known.walks room⟩, ?_, ?_⟩
  · rintro ⟨fuel, outcome, found⟩
    rw [mpinit, accepted] at found
    obtain ⟨last, found, _⟩ := Option.map_eq_some_iff.mp found
    exact (Scan.walks_of_loop found).1
  · intro walks
    have walks : Walks mem (tableEnd mem conf) (Scan.start conf).p := walks
    obtain ⟨fuel, last, found⟩ := Scan.loop_of_walks walks
    refine ⟨fuel, Option.isSome_iff_exists.mp ?_⟩
    rw [mpinit, accepted]
    dsimp only
    rw [found, Option.map_some, Option.isSome_some]
  · intro fuel reason found
    rw [mpinit, accepted] at found
    obtain ⟨last, found, outcome⟩ := Option.map_eq_some_iff.mp found
    rw [(Scan.walks_of_loop found).2] at outcome
    cases outcome
  · exact Scan.iterate_ncpu (Nat.zero_le _)

/-- Bytes at some addresses, zeroes everywhere else. -/
def Memory.ofList (table : List (UInt32 × UInt8)) : Memory :=
  fun a => (table.lookup a).getD 0

/-- A configuration table whose only entry has the given type. -/
def tableWith (type checksum : UInt8) : Memory :=
  .ofList
    [(0x8000040e, 0x10),
      (0x80000100, 0x5f), (0x80000101, 0x4d), (0x80000102, 0x50),
      (0x80000103, 0x5f), (0x80000105, 0x02), (0x80000108, 0x01),
      (0x80000109, 0x04), (0x8000010a, 0x9e),
      (0x80000200, 0x50), (0x80000201, 0x43), (0x80000202, 0x4d),
      (0x80000203, 0x50), (0x80000204, 0x2d), (0x80000206, 0x04),
      (0x80000207, checksum), (0x8000022c, type)]

/-- A table of version 4 with a bus entry is scanned to its end. -/
theorem mpinit_ends_iff_bus :
    ∃ fuel outcome, mpinit (tableWith 1 0x9e) fuel = some outcome := by
  have accepted : mpconfig (tableWith 1 0x9e) =
      some (0x80000100, 0x80000200) := by decide +kernel
  apply (mpinit_ends_iff _ _ _ accepted).1.mpr
  exact .entry (by decide +kernel) (rfl : _ = some Entry.mpbus)
    (.finished (by decide +kernel))

/-- The table has an entry of type 5, and `mpinit` never ends. -/
theorem mpinit_hangs :
    mpconfig (tableWith 5 0x9a) = some (0x80000100, 0x80000200) ∧
      ∀ fuel, mpinit (tableWith 5 0x9a) fuel = none := by
  have accepted : mpconfig (tableWith 5 0x9a) =
      some (0x80000100, 0x80000200) := by decide +kernel
  refine ⟨accepted, fun fuel => ?_⟩
  rw [mpinit, accepted]
  dsimp only
  rw [Scan.loop_stuck (by decide +kernel) rfl]
  rfl

end Xv6.Mp
