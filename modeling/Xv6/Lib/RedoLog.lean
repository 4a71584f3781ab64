import Mathlib.Data.List.Basic
import Mathlib.Logic.Function.Basic

/-!
# Physical redo logs

A disk maps addresses to blocks.  A redo log is a header block, which names
the addresses of one transaction, and a number of slots, which hold its
contents.  Writing the header is the commit: before it the home addresses
still have their old contents, after it the contents of the whole transaction
can be installed from the slots, as often as it takes.

`Pending` says what the home addresses amount to once the transaction named
in the header is installed.  It has one rule for every block that is written
while a transaction commits or is recovered.
-/

namespace Xv6.Lib

universe u v

variable {Addr : Type u} {Block : Type v} [DecidableEq Addr]

/-- Writes of whole blocks, oldest first. -/
abbrev Writes (Addr : Type u) (Block : Type v) := List (Addr × Block)

namespace Writes

variable {writes later : Writes Addr Block} {disk left right : Addr → Block}
  {address : Addr}

def apply (writes : Writes Addr Block) (disk : Addr → Block) : Addr → Block :=
  writes.foldl (fun disk write => Function.update disk write.1 write.2) disk

@[simp] theorem apply_nil (disk : Addr → Block) :
    apply ([] : Writes Addr Block) disk = disk := rfl

theorem apply_cons (write : Addr × Block) (disk : Addr → Block) :
    apply (write :: writes) disk =
      apply writes (Function.update disk write.1 write.2) := rfl

theorem apply_append (disk : Addr → Block) :
    apply (writes ++ later) disk = apply later (apply writes disk) :=
  List.foldl_append

theorem apply_concat (write : Addr × Block) (disk : Addr → Block) :
    apply (writes ++ [write]) disk =
      Function.update (apply writes disk) write.1 write.2 :=
  apply_append disk

theorem apply_of_notMem (absent : address ∉ writes.map Prod.fst) :
    apply writes disk address = disk address := by
  induction writes generalizing disk with
  | nil => rfl
  | cons write writes induction =>
      rw [List.map_cons, List.mem_cons, not_or] at absent
      rw [apply_cons, induction absent.2, Function.update_of_ne absent.1]

/-- What a disk has at an address after some writes depends on what it had
there before only if none of them is to the address. -/
theorem apply_congr
    (covered : address ∉ writes.map Prod.fst →
      left address = right address) :
    apply writes left address = apply writes right address := by
  induction writes generalizing left right with
  | nil => exact covered (by simp)
  | cons write writes induction =>
      rw [apply_cons, apply_cons]
      apply induction
      intro absent
      by_cases same : address = write.1
      · subst same
        rw [Function.update_self, Function.update_self]
      · rw [Function.update_of_ne same, Function.update_of_ne same]
        exact covered (by simp [same, absent])

theorem apply_map (addresses : List Addr) (value : Addr → Block)
    (disk : Addr → Block) (address : Addr) :
    apply (addresses.map fun address => (address, value address)) disk
        address =
      if address ∈ addresses then value address else disk address := by
  induction addresses generalizing disk with
  | nil => simp
  | cons first addresses induction =>
      rw [List.map_cons, apply_cons, induction]
      by_cases later : address ∈ addresses
      · simp [later]
      · by_cases same : address = first
        · subst same
          simp [later]
        · simp [later, same]

end Writes

/-- The layout of a redo log.  The header can name as many addresses as there
are slots. -/
structure RedoLog (Addr : Type u) (Block : Type v) where
  head : Addr
  slot : Nat → Addr
  capacity : Nat
  encode : List Addr → Block → Block
  decode : Block → Option (List Addr)
  apart : ∀ i, i < capacity → slot i ≠ head
  distinct : ∀ i j, i < capacity → j < capacity → slot i = slot j → i = j
  roundTrip : ∀ addresses old, addresses.length ≤ capacity →
    decode (encode addresses old) = some addresses

namespace RedoLog

/-- The addresses outside the log. -/
def Home (log : RedoLog Addr Block) (address : Addr) : Prop :=
  address ≠ log.head ∧ ∀ i, i < log.capacity → address ≠ log.slot i

/-- The header names the addresses of `writes`, the slots have their
contents, and with them the home addresses become those of `target`. -/
structure Pending (log : RedoLog Addr Block) (disk : Addr → Block)
    (writes : Writes Addr Block) (target : Addr → Block) : Prop where
  header : log.decode (disk log.head) = some (writes.map Prod.fst)
  logged : ∀ i write, writes[i]? = some write →
    disk (log.slot i) = write.2
  home : ∀ write ∈ writes, log.Home write.1
  fits : writes.length ≤ log.capacity
  result : ∀ address, log.Home address →
    writes.apply disk address = target address

/-- The first `tail` writes have been installed. -/
def Installed (log : RedoLog Addr Block) (disk : Addr → Block)
    (writes : Writes Addr Block) (tail : Nat) (target : Addr → Block) :
    Prop :=
  ∃ base : Addr → Block,
    (∀ address, log.Home address →
      disk address = Writes.apply (writes.take tail) base address) ∧
    ∀ address, log.Home address →
      writes.apply base address = target address

variable {log : RedoLog Addr Block} {disk target : Addr → Block}
  {writes : Writes Addr Block} {write : Addr × Block} {i tail : Nat}

theorem Home.apply_update {address other : Addr} {value : Block}
    (home : log.Home address) (away : ¬ log.Home other) :
    Function.update disk other value address = disk address := by
  apply Function.update_of_ne
  rintro rfl
  exact away home

omit [DecidableEq Addr] in
theorem not_home_head : ¬ log.Home log.head :=
  fun home => home.1 rfl

omit [DecidableEq Addr] in
theorem not_home_slot (inside : i < log.capacity) :
    ¬ log.Home (log.slot i) :=
  fun home => home.2 i inside rfl

/-- Writing a slot while the header names nothing. -/
theorem Pending.writeSlot (pending : log.Pending disk [] target)
    (inside : i < log.capacity) (value : Block) :
    log.Pending (Function.update disk (log.slot i) value) [] target := by
  constructor
  · rw [Function.update_of_ne (log.apart i inside).symm]
    exact pending.header
  · intro j write found
    simp at found
  · exact pending.home
  · exact pending.fits
  · intro address home
    rw [Writes.apply_nil, home.apply_update (not_home_slot inside)]
    exact pending.result address home

/-- Writing the header commits what is in the slots. -/
theorem Pending.commit (pending : log.Pending disk [] target)
    (logged : ∀ i write, writes[i]? = some write →
      disk (log.slot i) = write.2)
    (home : ∀ write ∈ writes, log.Home write.1)
    (fits : writes.length ≤ log.capacity) (old : Block) :
    log.Pending
      (Function.update disk log.head
        (log.encode (writes.map Prod.fst) old))
      writes (writes.apply target) := by
  constructor
  · rw [Function.update_self]
    exact log.roundTrip _ _ (by simpa using fits)
  · intro j write found
    have inside : j < log.capacity := by
      obtain ⟨short, _⟩ := List.getElem?_eq_some_iff.mp found
      omega
    rw [Function.update_of_ne (log.apart j inside)]
    exact logged j write found
  · exact home
  · exact fits
  · intro address isHome
    apply Writes.apply_congr
    intro _
    rw [isHome.apply_update not_home_head]
    exact pending.result address isHome

/-- Installing any write of the transaction, at any time. -/
theorem Pending.install (pending : log.Pending disk writes target)
    (member : write ∈ writes) :
    log.Pending (Function.update disk write.1 write.2) writes target := by
  have home := pending.home write member
  constructor
  · rw [Function.update_of_ne home.1.symm]
    exact pending.header
  · intro j other found
    have inside : j < log.capacity := by
      obtain ⟨short, _⟩ := List.getElem?_eq_some_iff.mp found
      have fits := pending.fits
      omega
    rw [Function.update_of_ne (home.2 j inside).symm]
    exact pending.logged j other found
  · exact pending.home
  · exact pending.fits
  · intro address isHome
    rw [← pending.result address isHome]
    apply Writes.apply_congr
    intro absent
    apply Function.update_of_ne
    rintro rfl
    exact absent (List.mem_map_of_mem member)

/-- Clearing the header when the home addresses are as they should be. -/
theorem pending_clear
    (installed : ∀ address, log.Home address →
      disk address = target address) (old : Block) :
    log.Pending (Function.update disk log.head (log.encode [] old)) []
      target := by
  constructor
  · rw [Function.update_self]
    exact log.roundTrip [] old (Nat.zero_le _)
  · intro j write found
    simp at found
  · simp
  · exact Nat.zero_le _
  · intro address home
    rw [Writes.apply_nil, home.apply_update not_home_head]
    exact installed address home

/-! ## The loop that installs a transaction -/

theorem Pending.start (pending : log.Pending disk writes target) :
    log.Installed disk writes 0 target :=
  ⟨disk, fun _ _ => rfl, pending.result⟩

theorem Installed.next (installed : log.Installed disk writes tail target)
    (found : writes[tail]? = some write) :
    log.Installed (Function.update disk write.1 write.2) writes (tail + 1)
      target := by
  obtain ⟨base, reached, result⟩ := installed
  refine ⟨base, ?_, result⟩
  intro address home
  rw [List.take_add_one, found, Option.toList_some, Writes.apply_concat]
  by_cases same : address = write.1
  · subst same
    rw [Function.update_self, Function.update_self]
  · rw [Function.update_of_ne same, Function.update_of_ne same]
    exact reached address home

theorem Installed.done (installed : log.Installed disk writes tail target)
    (all : writes.length ≤ tail) (address : Addr)
    (home : log.Home address) : disk address = target address := by
  obtain ⟨base, reached, result⟩ := installed
  rw [reached address home, List.take_of_length_le all]
  exact result address home

end RedoLog

end Xv6.Lib
