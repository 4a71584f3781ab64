import Xv6.Mkfs.Booted

/-!
# Path resolution

`skipelem` takes the components of a path one by one.  `namex` follows them
from directory to directory, and moves one reference along.
-/

namespace Xv6.Fs

open Lib

/-! ## Components -/

namespace Store

variable (s : Store)

/-- Look a component up in a directory. -/
def enter (d : Nat) (name : List UInt8) : Option Nat :=
  if (s.inode d).type = tDir then (s.lookup d name).map Prod.fst else none

/-- Look one component up after the other. -/
def resolve (start : Nat) (names : List (List UInt8)) : Option Nat :=
  names.foldlM s.enter start

/-- The directory of the last component, and that component. -/
def resolveParent (start : Nat) (names : List (List UInt8)) :
    Option (Nat × List UInt8) :=
  names.getLast?.bind fun name =>
    (s.resolve start names.dropLast).bind fun d =>
      if (s.inode d).type = tDir then some (d, name) else none

end Store

section Resolve

variable {s : Store} {d e : Nat} {name : List UInt8}
  {names : List (List UInt8)}

end Resolve

variable {sb : Superblock} {state after cur : State} {ip : Nat}

theorem State.cached_of_mem (distinct : (state.icache.map Inode.inum).Nodup)
    {ip : Inode} (member : ip ∈ state.icache) :
    state.cached ip.inum = some ip := by
  cases found : state.cached ip.inum with
  | none =>
      have wrong := List.find?_eq_none.mp found ip member
      simp at wrong
  | some other =>
      congr 1
      exact List.inj_on_of_nodup_map distinct (State.mem_of_cached found)
        member (State.inum_of_cached found)

/-- There are as many slots as inodes with references. -/
theorem Settled.length_icache (settled : Settled sb state) :
    state.icache.length = ((Finset.range sb.ninodes.toNat).filter
      fun x => state.refs x ≠ 0).card := by
  have distinct := settled.good.distinct
  rw [← List.length_map Inode.inum, ← List.toFinset_card_of_nodup distinct]
  congr 1
  ext x
  rw [List.mem_toFinset, List.mem_map, Finset.mem_filter, Finset.mem_range]
  constructor
  · rintro ⟨ip, member, rfl⟩
    refine ⟨settled.good.numbers ip member, ?_⟩
    rw [State.refs_of_cached (State.cached_of_mem distinct member)]
    exact settled.good.used ip member
  · rintro ⟨_, some⟩
    obtain ⟨ip, cached, _⟩ := State.cached_of_refs some
    exact ⟨ip, State.mem_of_cached cached, State.inum_of_cached cached⟩

theorem Store.lookup_eq_some {s : Store} {d : Nat} {name : List UInt8}
    {found : Nat × Nat} (looked : s.lookup d name = some found) :
    ∃ i, i < s.direntCount d ∧ (s.dirent d i).inum ≠ 0 ∧
      namecmp name (s.dirent d i).name = 0 ∧
      found = ((s.dirent d i).inum.toNat, i * direntSize) := by
  obtain ⟨i, member, entry⟩ := List.exists_of_findSome?_eq_some looked
  unfold Store.entryAt at entry
  split at entry
  · rename_i named
    exact ⟨i, List.mem_range.mp member, named.1, named.2,
      (Option.some.inj entry).symm⟩
  · cases entry

/-- What `namex` finds for the components of a path. -/
def followed (s : Store) (start : Nat) (nameiparent : Bool)
    (names : List (List UInt8)) (found : Option (Nat × List UInt8)) : Prop :=
  if nameiparent then found = s.resolveParent start names
  else found.map Prod.fst = s.resolve start names

section Followed

variable {s : Store} {d e : Nat} {nameiparent : Bool} {name : List UInt8}
  {names : List (List UInt8)} {found : Option (Nat × List UInt8)}

end Followed

theorem Sound.anchored (sound : Sound sb state) {d : Nat} {name : List UInt8}
    {found : Nat × Nat} (type : ((state.files sb).inode d).type = tDir)
    (looked : (state.files sb).lookup d name = some found) :
    Anchored sb state found.1 := by
  obtain ⟨i, inside, live, _, rfl⟩ := Store.lookup_eq_some looked
  exact sound.linked d type i inside live

section Namex

variable {cwd : Nat} (sound : Sound sb state) (used : state.refs cwd ≠ 0)
  (allocated : ((state.files sb).inode cwd).allocated) (path : List UInt8)

include sound used allocated

end Namex

/-! ## The folds -/

section Folds

variable {s : Store} {start : Nat} {names : List (List UInt8)}

end Folds

end Xv6.Fs
