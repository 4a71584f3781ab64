import Xv6.Vm.Arguments
import Xv6.Vm.Growproc

/-!
# Reading the memory of the calling process, `kernel/syscall.c`

The kernel checks an address against the size of the process and then loads
through its page table.  A load from a page that is not mapped is a fault of
the kernel, and the fault conditions below say for which addresses that can
be.
-/

namespace Xv6.Vm

open Lib
open Fs (word)

/-- No page is mapped for one of the addresses from `lower` up to `upper`. -/
def Gap (m : Memory) (d lower upper : Nat) : Prop :=
  ∃ va, lower ≤ va ∧ va < upper ∧ ¬ present (pteAt m d (va / pgsize))

theorem page_lt_pageCount {va sz : Nat} (below : va < sz) :
    va / pgsize < pageCount sz := by
  rw [lt_pageCount]
  exact lt_of_le_of_lt (Nat.div_mul_le_self va pgsize) below

namespace Gap

variable {m : Memory} {d lower lower' upper sz : Nat}

theorem lacks (gap : Gap m d lower upper) (le : upper ≤ sz) :
    Lacks m d sz := by
  obtain ⟨va, _, below, absent⟩ := gap
  exact ⟨va / pgsize, page_lt_pageCount (lt_of_lt_of_le below le), absent⟩

theorem mono (gap : Gap m d lower upper) (le : lower' ≤ lower) :
    Gap m d lower' upper := by
  obtain ⟨va, above, below, absent⟩ := gap
  exact ⟨va, le.trans above, below, absent⟩

theorem wider (gap : Gap m d lower upper) (le : upper ≤ sz) :
    Gap m d lower sz := by
  obtain ⟨va, above, below, absent⟩ := gap
  exact ⟨va, above, lt_of_lt_of_le below le, absent⟩

end Gap

theorem WellMapped.not_gap {m : Memory} {d lower upper sz : Nat}
    (mapped : WellMapped m d sz) (le : upper ≤ sz) :
    ¬ Gap m d lower upper := by
  intro gap
  obtain ⟨n, below, absent⟩ := gap.lacks le
  exact absent (mapped.mapped n below)

section Fetch

variable {k : Kernel} {dirs : Finset Nat} {rest : Holder → Nat} {m : Memory}
  {p : Proc}

theorem walkpgdir_rounded (d va : Nat) (alloc : Bool) :
    walkpgdir d va alloc = walkpgdir d (va / pgsize * pgsize) alloc := by
  have directory : pdx (va / pgsize * pgsize) = pdx va := by
    unfold pdx pgsize npdentries
    omega
  have table : ptx (va / pgsize * pgsize) = ptx va := by
    unfold ptx pgsize npdentries
    omega
  unfold walkpgdir
  rw [directory, table]

/-- A byte below the size of the process. -/
theorem loadByte_spec (a : Accounted k dirs rest m) (live : p.pgdir ∈ dirs)
    (small : p.sz < kernbase) {va : Nat} (below : va < p.sz) :
    wp (loadByte p.pgdir va)
      (fun byte m' => m' = m ∧ byte = userByte m p.pgdir p.sz va)
      (fun _ => ¬ present (pteAt m p.pgdir (va / pgsize))) m := by
  have page := page_lt_pageCount below
  have last := pageCount_le (le_of_lt small)
  have inside : va / pgsize < allPages := lt_allPages (by omega)
  unfold loadByte
  rw [walkpgdir_rounded, wp_bind]
  apply wp_walkpgdir (a.present_iff live (div_lt_npdentries inside)).mp inside
  · intro missing
    rw [wp_throw]
    unfold pteAt
    rw [if_pos missing]
    decide
  · intro table
    have loaded : word (m.pages (tableAt m p.pgdir
        (va / pgsize / npdentries))) (va / pgsize % npdentries) =
        pteAt m p.pgdir (va / pgsize) := (if_neg table).symm
    dsimp only
    rw [wp_bind, wp_getEntry, loaded]
    split
    · rename_i here
      rw [wp_bind, wp_get, wp_pure]
      refine ⟨rfl, ?_⟩
      unfold userByte
      rw [if_pos below]
      unfold pageAt
      rw [frameOf_of_present here]
    · rename_i absent
      rw [wp_throw]
      exact absent

variable (a : Accounted k dirs rest m) (live : p.pgdir ∈ dirs)
  (small : p.sz < kernbase)

include a live small

theorem fetchint_spec {addr : Nat} (fits : addr < 2 ^ 32) :
    wp (fetchint p addr)
      (fun result m' => m' = m ∧ result =
        if addr + 4 ≤ p.sz then some (wordAt (userByte m p.pgdir p.sz) addr)
        else none)
      (fun _ => addr + 4 ≤ p.sz ∧ Gap m p.pgdir addr (addr + 4)) m := by
  unfold fetchint
  split
  · rename_i outside
    rw [wp_pure, if_neg]
    · exact ⟨rfl, rfl⟩
    · unfold uintAdd kernbase at *
      omega
  · rename_i inside
    have bound : addr + 4 ≤ p.sz := by
      unfold uintAdd kernbase at *
      omega
    have load : ∀ va, addr ≤ va → va < addr + 4 → wp (loadByte p.pgdir va)
        (fun byte m' => m' = m ∧ byte = userByte m p.pgdir p.sz va)
        (fun _ => addr + 4 ≤ p.sz ∧ Gap m p.pgdir addr (addr + 4)) m := by
      intro va above below
      exact (loadByte_spec a live small (by omega)).mono (fun _ _ => id)
        fun _ absent => ⟨bound, va, above, below, absent⟩
    apply wp.bind (load addr (by omega) (by omega))
    intro b0 m' ⟨same, first⟩
    subst m'
    apply wp.bind (load (addr + 1) (by omega) (by omega))
    intro b1 m' ⟨same, second⟩
    subst m'
    apply wp.bind (load (addr + 2) (by omega) (by omega))
    intro b2 m' ⟨same, third⟩
    subst m'
    apply wp.bind (load (addr + 3) (by omega) (by omega))
    intro b3 m' ⟨same, fourth⟩
    subst m'
    rw [wp_pure, if_pos bound]
    refine ⟨rfl, congrArg some ?_⟩
    apply littleValue_congr
    intro offset less
    rw [first, second, third, fourth]
    have cases : offset = 0 ∨ offset = 1 ∨ offset = 2 ∨ offset = 3 := by omega
    rcases cases with zero | one | two | three
    · subst offset
      rfl
    · subst offset
      rfl
    · subst offset
      rfl
    · subst offset
      rfl

/-- The string at an address, or none if no zero follows. -/
theorem fetchstrLoop_spec (count : Nat) :
    ∀ {s : Nat}, s + count ≤ p.sz →
      wp (fetchstrLoop p.pgdir count s)
        (fun result m' => m' = m ∧ match result with
          | some string => string.length < count ∧ 0 ∉ string ∧
              StringAt (userByte m p.pgdir p.sz) s string
          | none => ∀ j, j < count → userByte m p.pgdir p.sz (s + j) ≠ 0)
        (fun _ => Gap m p.pgdir s (s + count)) m := by
  induction count with
  | zero =>
      intro s _
      unfold fetchstrLoop
      rw [wp_pure]
      exact ⟨rfl, fun j wrong => by omega⟩
  | succ count induction =>
      intro s inside
      unfold fetchstrLoop
      apply wp.bind ((loadByte_spec a live small (by omega)).mono
        (fun _ _ => id) fun _ absent => ⟨s, le_refl s, by omega, absent⟩)
      intro byte m' ⟨same, loaded⟩
      subst m'
      by_cases zero : byte = 0
      · rw [if_pos zero, wp_pure]
        refine ⟨rfl, by simp, by simp, ⟨by simp, ?_⟩⟩
        rw [List.length_nil, Nat.add_zero, ← loaded, zero]
      · rw [if_neg zero]
        have shift : s + 1 + count = s + (count + 1) := by omega
        apply wp.bind ((induction (by omega)).mono (fun _ _ => id)
          fun _ gap => (shift ▸ gap).mono (by omega))
        intro result m' ⟨same, rest'⟩
        subst m'
        rw [wp_pure]
        refine ⟨rfl, ?_⟩
        cases result with
        | none =>
            intro j less
            cases j with
            | zero => rwa [Nat.add_zero, ← loaded]
            | succ j =>
                have shift : s + (j + 1) = s + 1 + j := by omega
                rw [shift]
                exact rest' j (by omega)
        | some tail =>
            obtain ⟨short, clean, bytes, nul⟩ := rest'
            refine ⟨by simpa using short, ?_, ⟨?_, ?_⟩⟩
            · simp [clean, Ne.symm zero]
            · intro j less
              cases j with
              | zero =>
                  rw [Nat.add_zero, ← loaded]
                  rfl
              | succ j =>
                  have shift : s + (j + 1) = s + 1 + j := by omega
                  rw [shift, List.getD_cons_succ]
                  exact bytes j (by simpa using less)
            · have shift : s + (byte :: tail).length = s + 1 + tail.length := by
                rw [List.length_cons]
                omega
              rw [shift]
              exact nul

end Fetch

end Xv6.Vm
