import Xv6.Vm.Account

/-!
# Where a page is

A page of the allocator is free, or it is in one place of one process, in one
pipe, or among the pages that were taken at boot.
-/

namespace Xv6.Vm

open Lib

/-- The places of a page. -/
inductive Place where
  | free
  | user (i : Fin nproc) (n : Nat)
  | table (i : Fin nproc) (l : Nat)
  | dir (i : Fin nproc)
  | kstack (i : Fin nproc)
  | pipe (page : Nat)
  | fixed

/-- The page with a frame is in some place. -/
def Stands (k : Kernel) (boot : List Nat) (s : State) (f : Nat) :
    Place → Prop
  | .free => f ∈ s.memory.freelist
  | .user i n => ∃ p, s.tables.procs i = some p ∧ n < userPages ∧
      present (pteAt s.memory p.pgdir n) = true ∧
      frame (pteAt s.memory p.pgdir n) = f
  | .table i l => ∃ p, s.tables.procs i = some p ∧ l < npdentries ∧
      present (pdeAt s.memory p.pgdir l) = true ∧
      frame (pdeAt s.memory p.pgdir l) = f
  | .dir i => ∃ p, s.tables.procs i = some p ∧ p.pgdir = f
  | .kstack i => ∃ p, s.tables.procs i = some p ∧ p.kstack = f
  | .pipe page => (∃ ends, s.tables.pipes page = some ends) ∧ page = f
  | .fixed => k.Area f ∧ f ∉ boot

/-- The owner of a page in some place. -/
inductive Owned (s : State) (f : Nat) : Place → Owner → Prop where
  | user (i : Fin nproc) (n : Nat) (p : Proc)
      (found : s.tables.procs i = some p) :
      Owned s f (.user i n) (.page p.pgdir n)
  | table (i : Fin nproc) (l : Nat) (p : Proc)
      (found : s.tables.procs i = some p) :
      Owned s f (.table i l) (.table p.pgdir l)
  | dir (i : Fin nproc) (p : Proc) (found : s.tables.procs i = some p) :
      Owned s f (.dir i) (.dir p.pgdir)
  | kstack (i : Fin nproc) : Owned s f (.kstack i) (.held (.kstack i))
  | pipe (page : Nat) : Owned s f (.pipe page) (.held (.pipe page))
  | fixed : Owned s f .fixed (.held (.fixed f))

section Places

variable {k : Kernel} {boot : List Nat} {s : State} {f : Nat}
  {place place' : Place} {owner : Owner}

theorem Stands.owned (stands : Stands k boot s f place)
    (other : place ≠ .free) :
    ∃ owner, Owned s f place owner ∧
      address s.tables.dirs (s.tables.holders k boot) s.memory owner = f := by
  cases place with
  | free => exact absurd rfl other
  | user i n =>
      obtain ⟨p, found, inside, here, equal⟩ := stands
      refine ⟨_, .user i n p found, ?_⟩
      rw [address_page (Tables.pgdir_mem found) inside, ← equal]
      exact frameOf_of_present here
  | table i l =>
      obtain ⟨p, found, inside, here, equal⟩ := stands
      refine ⟨_, .table i l p found, ?_⟩
      rw [address_table (Tables.pgdir_mem found) inside, ← equal]
      exact frameOf_of_present here
  | dir i =>
      obtain ⟨p, found, equal⟩ := stands
      refine ⟨_, .dir i p found, ?_⟩
      rw [address_dir (Tables.pgdir_mem found), equal]
  | kstack i =>
      obtain ⟨p, found, equal⟩ := stands
      refine ⟨_, .kstack i, ?_⟩
      rw [address_held, Tables.holders_of_procs found, equal]
  | pipe page =>
      obtain ⟨⟨ends, found⟩, equal⟩ := stands
      refine ⟨_, .pipe page, ?_⟩
      rw [address_held, ← equal]
      unfold Tables.holders
      dsimp only
      rw [found]
      rfl
  | fixed =>
      obtain ⟨area, taken⟩ := stands
      exact ⟨_, .fixed, fixedPages_fixed area taken⟩

/-- An owner is in one place. -/
theorem Owned.unique (sound : Sound k boot s.tables s.memory)
    (owned : Owned s f place owner) (owned' : Owned s f place' owner) :
    place = place' := by
  cases owned with
  | user i n p found =>
      generalize equal : Owner.page p.pgdir n = owner at owned'
      cases owned' with
      | user j l q found' =>
          injection equal with dirs pages
          rw [sound.distinct found found' dirs, pages]
      | _ => cases equal
  | table i n p found =>
      generalize equal : Owner.table p.pgdir n = owner at owned'
      cases owned' with
      | table j l q found' =>
          injection equal with dirs pages
          rw [sound.distinct found found' dirs, pages]
      | _ => cases equal
  | dir i p found =>
      generalize equal : Owner.dir p.pgdir = owner at owned'
      cases owned' with
      | dir j q found' =>
          injection equal with dirs
          rw [sound.distinct found found' dirs]
      | _ => cases equal
  | kstack i =>
      generalize equal : Owner.held (.kstack i) = owner at owned'
      cases owned' with
      | kstack j =>
          injection equal with equal
          injection equal with equal
          rw [Fin.ext equal]
      | _ => cases equal
  | pipe page =>
      cases owned' with
      | pipe => rfl
  | fixed =>
      cases owned' with
      | fixed => rfl

theorem Stands.ne_zero (sound : Sound k boot s.tables s.memory)
    (stands : Stands k boot s f place) : f ≠ 0 := by
  have a := sound.accounted
  cases place with
  | free => exact a.pool.ne_zero stands
  | user i n =>
      obtain ⟨p, found, inside, here, equal⟩ := stands
      rw [← equal, ← frameOf_of_present here]
      exact a.page _ (Tables.pgdir_mem found) n inside
        (ne_zero_of_present here)
  | table i l =>
      obtain ⟨p, found, inside, here, equal⟩ := stands
      rw [← equal, ← frameOf_of_present here]
      exact a.table _ (Tables.pgdir_mem found) l inside
        (ne_zero_of_present here)
  | dir i =>
      obtain ⟨p, found, equal⟩ := stands
      rw [← equal]
      exact a.dir _ (Tables.pgdir_mem found)
  | kstack i =>
      obtain ⟨p, found, equal⟩ := stands
      rw [← equal]
      exact sound.kstack found
  | pipe page =>
      obtain ⟨⟨ends, found⟩, equal⟩ := stands
      rw [← equal]
      exact sound.pipe found
  | fixed => exact area_ne_zero stands.1

theorem Stands.area (sound : Sound k boot s.tables s.memory)
    (stands : Stands k boot s f place) : k.Area f := by
  have nonzero := stands.ne_zero sound
  by_cases free : place = .free
  · subst place
    exact sound.accounted.pool.inside f stands
  · obtain ⟨owner, _, holds⟩ := stands.owned free
    rw [← holds] at nonzero ⊢
    exact sound.accounted.area nonzero

theorem Stands.unique (sound : Sound k boot s.tables s.memory)
    (stands : Stands k boot s f place) (stands' : Stands k boot s f place') :
    place = place' := by
  have pool := sound.accounted.pool
  have nonzero := stands.ne_zero sound
  have apart : ∀ {place}, Stands k boot s f place → f ∈ s.memory.freelist →
      place = .free := by
    intro place stands free
    by_contra other
    obtain ⟨owner, _, holds⟩ := stands.owned other
    exact pool.ne_of_mem free owner holds
  by_cases free : place = .free
  · subst place
    exact (apart stands' stands).symm
  · by_cases free' : place' = .free
    · subst place'
      exact apart stands stands'
    · obtain ⟨owner, owned, holds⟩ := stands.owned free
      obtain ⟨owner', owned', holds'⟩ := stands'.owned free'
      have same := pool.owns.single owner owner' (by rwa [holds])
        (holds.trans holds'.symm)
      rw [← same] at owned'
      exact owned.unique sound owned'

end Places

end Xv6.Vm
