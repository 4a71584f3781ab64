import Xv6.Vm.Fork

/-!
# Loading a program

`exec` builds the new address space in a directory of its own.  `Image` is
what holds of that directory at every moment: all pages below the size are
there, none behind them, and the other address spaces are as they were.
-/

namespace Xv6.Vm

open Lib
open Fs (Bytes word putWord zeroes patch)

structure Image (k : Kernel) (dirs : Finset Nat) (rest : Holder → Nat)
    (c sz : Nat) (m m' : Memory) : Prop where
  accounted : Accounted k (insert c dirs) rest m'
  others : ∀ e ∈ dirs, Same m m' e
  kernel : KernelHalf m' c
  small : sz < kernbase
  mapped : ∀ n, n < pageCount sz →
    present (pteAt m' c n) = true ∧ user (pteAt m' c n) = true
  absent : ∀ n, pageCount sz ≤ n → n < userPages → pteAt m' c n = 0

theorem ne_of_fresh {dirs : Finset Nat} {c e : Nat} (fresh : c ∉ dirs)
    (live : e ∈ dirs) : e ≠ c := by
  intro same
  rw [same] at live
  exact fresh live

namespace Image

variable {k : Kernel} {dirs : Finset Nat} {rest : Holder → Nat}
  {c sz n : Nat} {m m' : Memory}

theorem of_setup (setup : Setup k dirs rest m c m') :
    Image k dirs rest c 0 m m' where
  accounted := setup.accounted
  others := setup.others
  kernel := setup.kernel
  small := by decide
  mapped n wrong := absurd wrong (Nat.not_lt_zero n)
  absent n _ := setup.empty n

theorem page_ne_zero (image : Image k dirs rest c sz m m')
    (below : n < pageCount sz) : pageAt m' c n ≠ 0 := by
  have inside : n < userPages :=
    lt_of_lt_of_le below (pageCount_le (le_of_lt image.small))
  exact image.accounted.page c (Finset.mem_insert_self c dirs) n inside
    (ne_zero_of_present (image.mapped n below).1)

theorem pteAt_page (image : Image k dirs rest c sz m m')
    (below : n < pageCount sz) (page : Bytes) {l : Nat}
    (inside : l < allPages) :
    pteAt (m'.write (pageAt m' c n) page) c l = pteAt m' c l := by
  have live : c ∈ insert c dirs := Finset.mem_insert_self c dirs
  have inside' : n < userPages :=
    lt_of_lt_of_le below (pageCount_le (le_of_lt image.small))
  exact Accounted.pteAt_write (image.accounted.plain_page live inside'
    (image.page_ne_zero below)) page live inside

theorem write (fresh : c ∉ dirs) (image : Image k dirs rest c sz m m')
    (below : n < pageCount sz) (page : Bytes) :
    Image k dirs rest c sz m (m'.write (pageAt m' c n) page) := by
  have live : c ∈ insert c dirs := Finset.mem_insert_self c dirs
  have last := pageCount_le (le_of_lt image.small)
  have change := change_page image.accounted live (by omega)
    (image.page_ne_zero below) page
  refine ⟨?_, ?_, ?_, image.small, ?_, ?_⟩
  · exact image.accounted.write (image.accounted.plain_page live (by omega)
      (image.page_ne_zero below)) page
  · intro e live'
    exact (image.others e live').trans (change.same
      (Finset.mem_insert_of_mem live') image.accounted
      (ne_of_fresh fresh live'))
  · exact image.kernel.change change fun l equal => by omega
  · intro l below'
    rw [image.pteAt_page below page (lt_allPages (by omega))]
    exact image.mapped l below'
  · intro l above inside
    rw [image.pteAt_page below page (lt_allPages inside)]
    exact image.absent l above inside

/-- The entry of a page of the image. -/
theorem walkpgdir (image : Image k dirs rest c sz m m')
    (below : n < pageCount sz) {fault : Fault → Prop}
    {post : Option (Nat × Nat) → Memory → Prop}
    (found : ∀ t i, word (m'.pages t) i = pteAt m' c n →
      post (some (t, i)) m') :
    wp (Vm.walkpgdir c (n * pgsize) false) post fault m' := by
  have live : c ∈ insert c dirs := Finset.mem_insert_self c dirs
  have inside : n < userPages :=
    lt_of_lt_of_le below (pageCount_le (le_of_lt image.small))
  have inside' := lt_allPages inside
  apply wp_walkpgdir
    (image.accounted.present_iff live (div_lt_npdentries inside')).mp inside'
  · intro missing
    exact absurd missing (table_of_page (image.page_ne_zero below))
  · intro table
    exact found _ _ (if_neg table).symm

end Image

end Xv6.Vm
