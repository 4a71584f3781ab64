import Xv6.Vm.Account

/-!
# Runs of calls that succeed

A process that is well mapped has all pages below its size, each in a frame
of its own, and nothing else that the user can reach.  `exec`, `fork` and
`growproc` keep all processes well mapped if they succeed, and do not panic
if all processes are well mapped.
-/

namespace Xv6.Vm

open Lib
open Fs (zeroes)

/-- All processes are well mapped, and no two pages have the same frame. -/
structure Tables.WellMapped (t : Tables) (m : Memory) : Prop where
  each : ∀ {i p}, t.procs i = some p → Vm.WellMapped m p.pgdir p.sz
  apart : ∀ {i j p q n l}, t.procs i = some p → t.procs j = some q →
    n < pageCount p.sz → l < pageCount q.sz →
    pageAt m p.pgdir n = pageAt m q.pgdir l → i = j ∧ n = l

section Calls

variable {k : Kernel} {boot : List Nat} {t t' : Tables} {m m' : Memory}
  {i j : Fin nproc} {p q : Proc}

/-- The account keeps the frames apart. -/
theorem Sound.wellMapped (sound : Sound k boot t m)
    (each : ∀ {i p}, t.procs i = some p → WellMapped m p.pgdir p.sz) :
    t.WellMapped m := by
  refine ⟨each, ?_⟩
  intro i j p q n l found found' below below' same
  have last := pageCount_le (le_of_lt (each found).small)
  have last' := pageCount_le (le_of_lt (each found').small)
  have equal := sound.accounted.page_inj (Tables.pgdir_mem found)
    (Tables.pgdir_mem found') (by omega) (by omega)
    ((each found).mapped n below) same
  exact ⟨sound.distinct found found' equal.1, equal.2⟩

theorem Resized.wellMapped {dirs : Finset Nat} {rest : Holder → Nat}
    {d sz sz' : Nat} (resized : Resized k dirs rest d sz sz' m m')
    (a : Accounted k dirs rest m') (live : d ∈ dirs)
    (mapped : WellMapped m d sz) (small : sz' < kernbase) :
    WellMapped m' d sz' := by
  have last := pageCount_le (le_of_lt small)
  have last' := pageCount_le (le_of_lt mapped.small)
  have here : ∀ n, n < pageCount sz' → present (pteAt m' d n) = true := by
    intro n below
    exact (resized.present_iff mapped (by omega)).mpr below
  refine ⟨small, here, ?_, ?_, ?_⟩
  · intro n l below below' same
    exact (a.page_inj live live (by omega) (by omega) (here n below) same).2
  · intro n above inside
    rw [Bool.eq_false_iff]
    intro wrong
    have below := (resized.present_iff mapped inside).mp wrong
    omega
  · intro n low high
    rw [resized.change.pte n high (by unfold Between; omega)]
    exact mapped.system n low high

end Calls

end Xv6.Vm
