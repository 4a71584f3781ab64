import Xv6.Vm.Mapping

/-!
# Unmapping pages

`deallocuvm` frees the pages between two sizes and jumps behind the addresses
of a missing page table.  For every page directory whose tables and user pages
are distinct pages of the allocator it does what the plain loop does that looks
at one page after the other.
-/

namespace Xv6.Vm

open Lib
open Fs (word putWord word_putWord word_putWord_of_ne)

/-- The pages of a process of some size. -/
def pageCount (sz : Nat) : Nat := (sz + pgsize - 1) / pgsize

theorem pgroundup_eq {sz : Nat} (small : sz ≤ kernbase) :
    pgroundup sz = pageCount sz * pgsize := by
  have unsigned : uintAdd sz (pgsize - 1) = sz + (pgsize - 1) := by
    apply uintAdd_of_lt
    unfold kernbase pgsize at *
    omega
  unfold pgroundup pageCount
  rw [unsigned]
  rfl

theorem lt_pageCount {sz n : Nat} : n < pageCount sz ↔ n * pgsize < sz := by
  unfold pageCount pgsize
  omega

theorem pageCount_le {sz : Nat} (small : sz ≤ kernbase) :
    pageCount sz ≤ userPages := by
  unfold pageCount userPages kernbase pgsize at *
  omega

theorem pageCount_mono {sz sz' : Nat} (le : sz ≤ sz') :
    pageCount sz ≤ pageCount sz' := by
  unfold pageCount pgsize
  omega

/-- `a += PGSIZE`. -/
theorem next_page {n : Nat} (inside : n < userPages) :
    uintAdd (n * pgsize) pgsize = (n + 1) * pgsize := by
  rw [uintAdd_of_lt, Nat.succ_mul]
  unfold userPages kernbase pgsize at *
  omega

/-- `a = PGADDR(PDX(a) + 1, 0, 0) - PGSIZE; a += PGSIZE`. -/
theorem next_table {n : Nat} (inside : n < userPages) :
    uintAdd (uintSub (pgaddr (pdx (n * pgsize) + 1)) pgsize) pgsize =
      (n / npdentries + 1) * npdentries * pgsize := by
  rw [pdx_page (lt_allPages inside)]
  unfold uintAdd uintSub pgaddr
  unfold userPages kernbase npdentries pgsize at *
  norm_num
  omega

/-! ## Page directories -/

/-- Two pages with one frame are the same page. -/
theorem Accounted.page_inj {k : Kernel} {dirs : Finset Nat}
    {rest : Holder → Nat} {m : Memory} {d e n l : Nat}
    (a : Accounted k dirs rest m) (live : d ∈ dirs)
    (live' : e ∈ dirs) (inside : n < userPages) (inside' : l < userPages)
    (here : present (pteAt m d n) = true)
    (same : pageAt m d n = pageAt m e l) : d = e ∧ n = l := by
  have owned := a.page d live n inside (ne_zero_of_present here)
  have owners := a.pool.owns.single (.page d n) (.page e l)
    (by rwa [address_page live inside])
    (by rw [address_page live inside, address_page live' inside', same])
  injection owners with first second
  exact ⟨first, second⟩

/-- A page directory with its page tables and user pages. -/
structure Directory (k : Kernel) (m : Memory) (d : Nat) : Prop where
  table : ∀ i, i < npdentries → present (pdeAt m d i) →
    k.Area (tableAt m d i) ∧ tableAt m d i ≠ d
  tables : ∀ i j, i < npdentries → j < npdentries → tableAt m d i ≠ 0 →
    tableAt m d i = tableAt m d j → i = j
  page : ∀ n, n < userPages → present (pteAt m d n) →
    k.Area (pageAt m d n) ∧ pageAt m d n ≠ d ∧
      ∀ i, i < npdentries → tableAt m d i ≠ pageAt m d n
  pages : ∀ n l, n < userPages → l < userPages → present (pteAt m d n) →
    pageAt m d n = pageAt m d l → n = l

/-- The page directories of an account. -/
theorem Accounted.directory {k : Kernel} {dirs : Finset Nat}
    {rest : Holder → Nat} {m : Memory} {d : Nat}
    (a : Accounted k dirs rest m) (live : d ∈ dirs) : Directory k m d where
  table i inside here := by
    have some := (a.present_iff live inside).mp here
    have owner : address dirs rest m (.table d i) = tableAt m d i :=
      address_table live inside
    refine ⟨?_, a.table_ne_dir live live inside⟩
    rw [← owner]
    exact a.area (by rwa [owner])
  tables i j inside inside' some same :=
    ((a.table_inj live live inside inside' some same.symm).2).symm
  page n inside here := by
    have some := a.page d live n inside (ne_zero_of_present here)
    have owner : address dirs rest m (.page d n) = pageAt m d n :=
      address_page live inside
    have plain := a.plain_page live inside some
    refine ⟨?_, (plain.dir d live).symm, plain.table d live⟩
    rw [← owner]
    exact a.area (by rwa [owner])
  pages n l inside inside' here same :=
    (a.page_inj live live inside inside' here same).2

/-- `kfree(v); *pte = 0`. -/
def Memory.unmap (m : Memory) (d n : Nat) : Memory :=
  (m.free (pageAt m d n)).store (tableAt m d (n / npdentries))
    (n % npdentries) 0

theorem table_of_page {m : Memory} {d n : Nat} (some : pageAt m d n ≠ 0) :
    tableAt m d (n / npdentries) ≠ 0 := by
  intro zero
  apply some
  unfold pageAt pteAt
  rw [if_pos zero]
  rfl

/-- The plain loop: look at one page after the other and unmap those that are
present. -/
def Memory.unmapPages (m : Memory) (d : Nat) : List Nat → Memory
  | [] => m
  | n :: rest =>
      if present (pteAt m d n) then (m.unmap d n).unmapPages d rest
      else m.unmapPages d rest

namespace Directory

variable {k : Kernel} {m : Memory} {d n : Nat}

section Unmap

variable (dir : Directory k m d) (inside : n < userPages)
  (here : present (pteAt m d n))

include dir inside here

theorem page_ne_zero : pageAt m d n ≠ 0 :=
  area_ne_zero (dir.page n inside here).1

theorem table_ne_zero : tableAt m d (n / npdentries) ≠ 0 :=
  table_of_page (dir.page_ne_zero inside here)

theorem table_ne_dir : tableAt m d (n / npdentries) ≠ d := by
  have some := dir.table_ne_zero inside here
  exact (dir.table _ (div_lt_npdentries (lt_allPages inside))
    (present_of_frameOf some)).2

theorem pdeAt_unmap (i : Nat) : pdeAt (m.unmap d n) d i = pdeAt m d i := by
  apply pdeAt_congr
  unfold Memory.unmap Memory.store Memory.write Memory.free
  dsimp only
  rw [Function.update_of_ne (dir.table_ne_dir inside here).symm,
    Function.update_of_ne (dir.page n inside here).2.1.symm]

theorem tableAt_unmap (i : Nat) :
    tableAt (m.unmap d n) d i = tableAt m d i :=
  congrArg frameOf (dir.pdeAt_unmap inside here i)

/-- Unmapping a page clears its entry and no other. -/
theorem pteAt_unmap {l : Nat} (below : l < allPages) :
    pteAt (m.unmap d n) d l = if l = n then 0 else pteAt m d l := by
  have some := dir.table_ne_zero inside here
  have index := div_lt_npdentries (lt_allPages inside)
  have index' := div_lt_npdentries below
  have plain := (dir.page n inside here).2.2
  unfold pteAt
  rw [dir.tableAt_unmap inside here]
  by_cases zero : tableAt m d (l / npdentries) = 0
  · rw [if_pos zero, if_pos zero, ite_self]
  · rw [if_neg zero, if_neg zero]
    unfold Memory.unmap Memory.store Memory.write Memory.free
    dsimp only
    by_cases same : tableAt m d (l / npdentries) = tableAt m d (n / npdentries)
    · have quotient := dir.tables _ _ index' index zero same
      rw [same, Function.update_self, Function.update_of_ne (plain _ index)]
      by_cases entry : l % npdentries = n % npdentries
      · have equal : l = n := by
          unfold npdentries at *
          omega
        rw [entry, word_putWord, if_pos equal]
      · rw [word_putWord_of_ne entry, if_neg]
        intro equal
        exact entry (congrArg (· % npdentries) equal)
    · rw [Function.update_of_ne same, Function.update_of_ne (plain _ index'),
        if_neg]
      intro equal
      exact same (congrArg (fun n => tableAt m d (n / npdentries)) equal)

theorem unmap : Directory k (m.unmap d n) d := by
  have table := dir.tableAt_unmap inside here
  have pte : ∀ {l}, l < userPages → present (pteAt (m.unmap d n) d l) →
      l ≠ n ∧ present (pteAt m d l) ∧
        pageAt (m.unmap d n) d l = pageAt m d l := by
    intro l below there
    have read := dir.pteAt_unmap inside here (lt_allPages below)
    by_cases equal : l = n
    · rw [read, if_pos equal] at there
      cases there
    · rw [if_neg equal] at read
      rw [read] at there
      exact ⟨equal, there, congrArg frameOf read⟩
  constructor
  · intro i below there
    rw [dir.pdeAt_unmap inside here] at there
    rw [table]
    exact dir.table i below there
  · intro i j below below'
    rw [table, table]
    exact dir.tables i j below below'
  · intro l below there
    obtain ⟨_, there, page⟩ := pte below there
    rw [page]
    obtain ⟨area, other, plain⟩ := dir.page l below there
    refine ⟨area, other, ?_⟩
    intro i below'
    rw [table]
    exact plain i below'
  · intro l l' below below' there same
    have some : pageAt (m.unmap d n) d l' ≠ 0 := by
      rw [← same, (pte below there).2.2]
      exact dir.page_ne_zero below (pte below there).2.1
    have there' := present_of_frameOf some
    rw [(pte below there).2.2, (pte below' there').2.2] at same
    exact dir.pages l l' below below' (pte below there).2.1 same

end Unmap

theorem unmapPages_absent (m : Memory) (d : Nat) (pages : List Nat)
    (absent : ∀ n ∈ pages, present (pteAt m d n) = false) :
    m.unmapPages d pages = m := by
  induction pages with
  | nil => rfl
  | cons n pages induction =>
      have missing := absent n List.mem_cons_self
      unfold Memory.unmapPages
      rw [if_neg (by simp [missing])]
      exact induction fun l member => absent l (List.mem_cons_of_mem n member)

theorem unmapPages_append (d : Nat) (first second : List Nat) :
    ∀ m : Memory, m.unmapPages d (first ++ second) =
      (m.unmapPages d first).unmapPages d second := by
  induction first with
  | nil => exact fun _ => rfl
  | cons n first induction =>
      intro m
      simp only [List.cons_append, Memory.unmapPages]
      split
      · exact induction _
      · exact induction _

/-- A missing table is a missing page at each of its addresses. -/
theorem unmapPages_skip {stop : Nat}
    (missing : tableAt m d (n / npdentries) = 0) :
    m.unmapPages d (List.range' n (stop - n)) =
      m.unmapPages d (List.range' ((n / npdentries + 1) * npdentries)
        (stop - (n / npdentries + 1) * npdentries)) := by
  have absent : ∀ l ∈ List.range' n
      (min stop ((n / npdentries + 1) * npdentries) - n),
      present (pteAt m d l) = false := by
    intro l member
    rw [List.mem_range'_1] at member
    have same : l / npdentries = n / npdentries := by
      unfold npdentries at *
      omega
    unfold pteAt
    rw [same, if_pos missing]
    rfl
  have next : n < (n / npdentries + 1) * npdentries := by
    unfold npdentries
    omega
  by_cases short : stop ≤ (n / npdentries + 1) * npdentries
  · rw [Nat.sub_eq_zero_of_le short]
    rw [min_eq_left short] at absent
    exact unmapPages_absent m d _ absent
  · rw [min_eq_right (by omega)] at absent
    have split : List.range' n (stop - n) =
        List.range' n ((n / npdentries + 1) * npdentries - n) ++
          List.range' ((n / npdentries + 1) * npdentries)
            (stop - (n / npdentries + 1) * npdentries) := by
      have joined := List.range'_append_1 (s := n)
        (m := (n / npdentries + 1) * npdentries - n)
        (n := stop - (n / npdentries + 1) * npdentries)
      rw [Nat.add_sub_cancel' next.le] at joined
      rw [joined]
      congr 1
      omega
    rw [split, unmapPages_append, unmapPages_absent m d _ absent]

theorem deallocuvmLoop {oldsz : Nat} (small : oldsz ≤ kernbase) (fuel : Nat) :
    ∀ {n : Nat} {m : Memory}, Directory k m d → 0 < fuel →
      pageCount oldsz < n + fuel →
      wp (Vm.deallocuvmLoop k d oldsz fuel (n * pgsize))
        (fun _ m' => m' =
          m.unmapPages d (List.range' n (pageCount oldsz - n)))
        (fun _ => False) m := by
  have last := pageCount_le small
  induction fuel with
  | zero =>
      intro n m dir positive
      exact absurd positive (lt_irrefl 0)
  | succ fuel induction =>
      intro n m dir _ enough
      unfold Vm.deallocuvmLoop
      by_cases more : n * pgsize < oldsz
      · have below : n < pageCount oldsz := lt_pageCount.mpr more
        have inside : n < userPages := lt_of_lt_of_le below last
        have inside' := lt_allPages inside
        have cons : List.range' n (pageCount oldsz - n) =
            n :: List.range' (n + 1) (pageCount oldsz - (n + 1)) := by
          rw [← List.range'_succ]
          congr 1
          omega
        rw [if_pos more, wp_bind]
        have sound := fun here => area_ne_zero
          (dir.table _ (div_lt_npdentries inside') here).1
        apply wp_walkpgdir sound inside'
        · intro missing
          have step : n < (n / npdentries + 1) * npdentries := by
            unfold npdentries
            omega
          dsimp only
          rw [next_table inside, unmapPages_skip missing]
          exact induction dir (by omega) (by omega)
        · intro table
          have pte : word (m.pages (tableAt m d (n / npdentries)))
              (n % npdentries) = pteAt m d n := (if_neg table).symm
          dsimp only
          rw [wp_bind, wp_getEntry, pte, next_page inside, wp_bind, cons,
            Memory.unmapPages]
          by_cases here : present (pteAt m d n)
          · have page : pageAt m d n = frame (pteAt m d n) :=
              frameOf_of_present here
            rw [if_pos here, if_pos here, ← page,
              if_neg (dir.page_ne_zero inside here), wp_bind,
              wp_kfree (dir.page n inside here).1, wp_setEntry]
            exact induction (n := n + 1) (dir.unmap inside here) (by omega)
              (by omega)
          · rw [if_neg here, if_neg here, wp_pure]
            exact induction (n := n + 1) dir (by omega) (by omega)
      · have above : pageCount oldsz ≤ n := by
          by_contra short
          exact more (lt_pageCount.mp (by omega))
        rw [if_neg more, wp_pure, Nat.sub_eq_zero_of_le above]
        rfl

end Directory

end Xv6.Vm
