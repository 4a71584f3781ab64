import Xv6.Vm.Image

/-!
# The stack of a new image

The last page of an image is its stack, and the page below it is the guard
page, which the user cannot reach.  `copyout` succeeds for bytes in the stack
page, and fails if it meets the guard page or an address of the kernel.  If it
meets an address without a page table, it follows a null pointer.
-/

namespace Xv6.Vm

open Lib
open Fs (Bytes word putWord zeroes patch)

/-- An image of `count` pages with a guard page. -/
structure Stacked (k : Kernel) (dirs : Finset Nat) (rest : Holder → Nat)
    (c count : Nat) (m m' : Memory) : Prop where
  accounted : Accounted k (insert c dirs) rest m'
  others : ∀ e ∈ dirs, Same m m' e
  kernel : KernelHalf m' c
  two : 2 ≤ count
  small : count * pgsize < kernbase
  mapped : ∀ n, n < count → present (pteAt m' c n) = true
  user : ∀ n, n < count → (user (pteAt m' c n) = true ↔ n ≠ count - 2)
  absent : ∀ n, count ≤ n → n < userPages → pteAt m' c n = 0

theorem pageCount_mul (count : Nat) : pageCount (count * pgsize) = count := by
  unfold pageCount pgsize
  omega

theorem lt_userPages {count : Nat} (small : count * pgsize < kernbase) :
    count < userPages := by
  unfold userPages kernbase pgsize at *
  omega

/-- The first pages of an address space stay where they are and keep their
bytes. -/
def Keeps (c bound : Nat) (m m' : Memory) : Prop :=
  ∀ n, n < bound → pageAt m' c n = pageAt m c n ∧
    m'.pages (pageAt m c n) = m.pages (pageAt m c n)

theorem Keeps.trans {c bound : Nat} {m m' m'' : Memory}
    (first : Keeps c bound m m') (second : Keeps c bound m' m'') :
    Keeps c bound m m'' := by
  intro n below
  obtain ⟨frame, content⟩ := first n below
  obtain ⟨frame', content'⟩ := second n below
  rw [frame] at frame' content'
  exact ⟨frame', content'.trans content⟩

/-- `clearpteu` makes the guard page. -/
theorem Image.clearpteu {k : Kernel} {dirs : Finset Nat} {rest : Holder → Nat}
    {c count : Nat} {m m' : Memory} (fresh : c ∉ dirs) (two : 2 ≤ count)
    (image : Image k dirs rest c (count * pgsize) m m') :
    wp (Vm.clearpteu c ((count - 2) * pgsize))
      (fun _ m'' => Stacked k dirs rest c count m m'' ∧
        Keeps c (count - 2) m' m'')
      (fun _ => False) m' := by
  have live : c ∈ insert c dirs := Finset.mem_insert_self c dirs
  have a := image.accounted
  have mapped := image.mapped
  have absent := image.absent
  rw [pageCount_mul] at mapped absent
  have bound := lt_userPages image.small
  have below : count - 2 < pageCount (count * pgsize) := by
    rw [pageCount_mul]
    omega
  have inside : count - 2 < userPages := by omega
  have inside' := lt_allPages inside
  have some := image.page_ne_zero below
  have table := table_of_page some
  have index := div_lt_npdentries inside'
  unfold Vm.clearpteu
  rw [wp_bind]
  apply wp_walkpgdir (a.present_iff live (div_lt_npdentries inside')).mp inside'
  · intro missing
    exact absurd missing table
  · intro _
    have loaded : word (m'.pages (tableAt m' c ((count - 2) / npdentries)))
        ((count - 2) % npdentries) = pteAt m' c (count - 2) :=
      (if_neg table).symm
    dsimp only
    rw [wp_bind, wp_getEntry, loaded, wp_setEntry]
    have entries := fun l (inside'' : l < allPages) => pteAt_storePage a live
      inside' table (withoutUser (pteAt m' c (count - 2))) live inside''
    have change := change_store a live inside' table
      (withoutUser (pteAt m' c (count - 2)))
    have frames : frameOf (withoutUser (pteAt m' c (count - 2))) =
        pageAt m' c (count - 2) := by
      unfold pageAt frameOf
      rw [present_withoutUser, frame_withoutUser]
    refine ⟨⟨?_, ?_, ?_, two, image.small, ?_, ?_, ?_⟩, ?_⟩
    · apply a.remap live index (Nat.mod_lt _ (by decide)) table
      · rwa [index_page]
      · intro _
        rwa [frames]
      · rw [index_page]
        exact frames
    · intro e live'
      exact (image.others e live').trans (change.same
        (Finset.mem_insert_of_mem live') a (ne_of_fresh fresh live'))
    · exact image.kernel.change change fun l equal => by omega
    · intro n less
      rw [entries n (lt_allPages (by omega))]
      split
      · rw [present_withoutUser]
        exact (mapped (count - 2) (by omega)).1
      · exact (mapped n less).1
    · intro n less
      rw [entries n (lt_allPages (by omega))]
      by_cases same : n = count - 2
      · rw [if_pos ⟨rfl, same⟩, user_withoutUser]
        simp [same]
      · rw [if_neg fun both => same both.2]
        simp [same, (mapped n less).2]
    · intro n above low
      rw [entries n (lt_allPages low), if_neg (by omega)]
      exact absent n above low
    · intro n less
      have other : ¬ n = count - 2 := by omega
      exact ⟨congrArg frameOf (change.pte n (lt_allPages (by omega)) other),
        change.content live (by omega) other
          (image.page_ne_zero (by rw [pageCount_mul]; omega))⟩

/-! ## `copyout` -/

/-- `uva2ka` looks at the entry of the page. -/
theorem wp_uva2ka {k : Kernel} {dirs : Finset Nat} {rest : Holder → Nat}
    {d n : Nat} {m : Memory} (a : Accounted k dirs rest m) (live : d ∈ dirs)
    (inside : n < allPages) {fault : Fault → Prop}
    {post : Option Nat → Memory → Prop}
    (null : tableAt m d (n / npdentries) = 0 → fault .nullDereference)
    (refused : tableAt m d (n / npdentries) ≠ 0 →
      ¬ (present (pteAt m d n) = true ∧ user (pteAt m d n) = true) →
      post none m)
    (found : present (pteAt m d n) = true → user (pteAt m d n) = true →
      post (some (pageAt m d n)) m) :
    wp (uva2ka d (n * pgsize)) post fault m := by
  unfold uva2ka
  rw [wp_bind]
  apply wp_walkpgdir (a.present_iff live (div_lt_npdentries inside)).mp inside
  · intro missing
    rw [wp_throw]
    exact null missing
  · intro table
    have loaded : word (m.pages (tableAt m d (n / npdentries)))
        (n % npdentries) = pteAt m d n := (if_neg table).symm
    dsimp only
    rw [wp_bind, wp_getEntry, loaded]
    split
    · rename_i absent
      rw [wp_pure]
      apply refused table
      simp [absent]
    · rename_i here
      split
      · rename_i system
        rw [wp_pure]
        apply refused table
        simp [system]
      · rename_i yours
        rw [wp_pure]
        rw [Bool.not_eq_false] at here yours
        have page : frame (pteAt m d n) = pageAt m d n :=
          (frameOf_of_present here).symm
        rw [page]
        exact found here yours

namespace Stacked

variable {k : Kernel} {dirs : Finset Nat} {rest : Holder → Nat}
  {c count n : Nat} {m m' : Memory}

theorem page_ne_zero (stacked : Stacked k dirs rest c count m m')
    (below : n < count) : pageAt m' c n ≠ 0 := by
  have bound := lt_userPages stacked.small
  exact stacked.accounted.page c (Finset.mem_insert_self c dirs) n (by omega)
    (ne_zero_of_present (stacked.mapped n below))

theorem pteAt_write (stacked : Stacked k dirs rest c count m m')
    (below : n < count) (page : Bytes) {l : Nat} (inside : l < allPages) :
    pteAt (m'.write (pageAt m' c n) page) c l = pteAt m' c l := by
  have live : c ∈ insert c dirs := Finset.mem_insert_self c dirs
  have bound := lt_userPages stacked.small
  exact Accounted.pteAt_write (stacked.accounted.plain_page live (by omega)
    (stacked.page_ne_zero below)) page live inside

theorem write (fresh : c ∉ dirs) (stacked : Stacked k dirs rest c count m m')
    (below : n < count) (page : Bytes) :
    Stacked k dirs rest c count m (m'.write (pageAt m' c n) page) := by
  have live : c ∈ insert c dirs := Finset.mem_insert_self c dirs
  have a := stacked.accounted
  have bound := lt_userPages stacked.small
  have some := stacked.page_ne_zero below
  have plain := a.plain_page live (by omega) some
  have change := change_page a live (by omega) some page
  refine ⟨a.write plain page, ?_, ?_, stacked.two, stacked.small, ?_, ?_, ?_⟩
  · intro e live'
    exact (stacked.others e live').trans (change.same
      (Finset.mem_insert_of_mem live') a (ne_of_fresh fresh live'))
  · exact stacked.kernel.change change fun l equal => by omega
  · intro l less
    rw [stacked.pteAt_write below page (lt_allPages (by omega))]
    exact stacked.mapped l less
  · intro l less
    rw [stacked.pteAt_write below page (lt_allPages (by omega))]
    exact stacked.user l less
  · intro l above low
    rw [stacked.pteAt_write below page (lt_allPages low)]
    exact stacked.absent l above low

theorem keeps_write (stacked : Stacked k dirs rest c count m m')
    (page : Bytes) :
    Keeps c (count - 2) m' (m'.write (pageAt m' c (count - 1)) page) := by
  intro n below
  have live : c ∈ insert c dirs := Finset.mem_insert_self c dirs
  have two := stacked.two
  have bound := lt_userPages stacked.small
  refine ⟨congrArg frameOf (stacked.pteAt_write (by omega) page
    (lt_allPages (by omega))), ?_⟩
  apply Function.update_of_ne
  intro equal
  have same := (stacked.accounted.page_inj live live (by omega) (by omega)
    (stacked.mapped n (by omega)) equal).2
  omega

/-- The page of the stack. -/
theorem stack_user (stacked : Stacked k dirs rest c count m m') :
    Vm.user (pteAt m' c (count - 1)) = true := by
  have two := stacked.two
  rw [stacked.user (count - 1) (by omega)]
  omega

/-- Copying into the stack page. -/
theorem copyout_inside (stacked : Stacked k dirs rest c count m m')
    (offset : Nat) {buf : List UInt8} (some : 0 < buf.length)
    (fits : offset + buf.length ≤ pgsize) :
    wp (copyout c ((count - 1) * pgsize + offset) buf)
      (fun copied m'' => copied = true ∧
        m'' = m'.write (pageAt m' c (count - 1))
          (patch (m'.pages (pageAt m' c (count - 1))) offset buf.length
            fun j => buf.getD j 0))
      (fun _ => False) m' := by
  have live : c ∈ insert c dirs := Finset.mem_insert_self c dirs
  have two := stacked.two
  have bound := lt_userPages stacked.small
  have inside : count - 1 < allPages := lt_allPages (by omega)
  have page : pgrounddown ((count - 1) * pgsize + offset) =
      (count - 1) * pgsize := by
    unfold pgrounddown
    unfold pgsize at *
    omega
  have start : (count - 1) * pgsize + offset - (count - 1) * pgsize =
      offset := by omega
  have length : min (pgsize - offset) buf.length = buf.length := by omega
  obtain ⟨fuel, number⟩ : ∃ fuel, buf.length = fuel + 1 :=
    ⟨buf.length - 1, by omega⟩
  have loop : copyout c ((count - 1) * pgsize + offset) buf =
      copyoutLoop c (fuel + 1) ((count - 1) * pgsize + offset) buf := by
    unfold copyout
    rw [number]
  rw [loop]
  unfold copyoutLoop
  rw [if_pos some]
  dsimp only
  rw [page, start, length, wp_bind]
  apply wp_uva2ka stacked.accounted live inside
  · intro missing
    exact absurd missing
      (table_of_page (stacked.page_ne_zero (by omega)))
  · intro _ refused
    exact absurd ⟨stacked.mapped _ (by omega), stacked.stack_user⟩ refused
  · intro _ _
    dsimp only
    rw [wp_bind, wp_get, wp_bind, wp_setPage, List.drop_length]
    cases fuel with
    | zero =>
        unfold copyoutLoop
        rw [wp_pure]
        exact ⟨rfl, rfl⟩
    | succ fuel =>
        unfold copyoutLoop
        rw [if_neg (by simp), wp_pure]
        exact ⟨rfl, rfl⟩

/-- Copying from below the guard page into it. -/
theorem copyoutLoop_guard (fresh : c ∉ dirs) (fuel : Nat) :
    ∀ {va : Nat} {buf : List UInt8} {m' : Memory},
      Stacked k dirs rest c count m m' → va < (count - 1) * pgsize →
      (count - 2) * pgsize < va + buf.length → buf.length ≤ fuel →
      0 < buf.length →
      wp (copyoutLoop c fuel va buf)
        (fun copied m'' => copied = false ∧
          Stacked k dirs rest c count m m'')
        (fun _ => False) m' := by
  have live : c ∈ insert c dirs := Finset.mem_insert_self c dirs
  induction fuel with
  | zero =>
      intro va buf m' _ _ _ short long
      omega
  | succ fuel induction =>
      intro va buf m' stacked low reaches short long
      have two := stacked.two
      have bound := lt_userPages stacked.small
      obtain ⟨q, number⟩ : ∃ q, va / pgsize = q := ⟨_, rfl⟩
      have rounded : pgrounddown va = q * pgsize := by
        unfold pgrounddown
        rw [number]
      have offset : va - q * pgsize < pgsize ∧ q * pgsize ≤ va := by
        unfold pgsize at *
        omega
      have below : q < count - 1 := by
        unfold pgsize at *
        omega
      unfold copyoutLoop
      rw [if_pos long]
      dsimp only
      rw [rounded, wp_bind]
      apply wp_uva2ka stacked.accounted live (lt_allPages (by omega))
      · intro missing
        exact absurd missing
          (table_of_page (stacked.page_ne_zero (by omega)))
      · intro _ _
        dsimp only
        rw [wp_pure]
        exact ⟨rfl, stacked⟩
      · intro _ yours
        have other := (stacked.user q (by omega)).mp yours
        have step : (q + 1) * pgsize = q * pgsize + pgsize :=
          Nat.succ_mul q pgsize
        have near : (q + 1) * pgsize ≤ (count - 2) * pgsize :=
          Nat.mul_le_mul_right pgsize (by omega)
        have near' : (q + 1) * pgsize < (count - 1) * pgsize :=
          Nat.mul_lt_mul_of_pos_right (by omega) (by decide)
        have whole : min (pgsize - (va - q * pgsize)) buf.length =
            pgsize - (va - q * pgsize) := by omega
        dsimp only
        rw [wp_bind, wp_get, wp_bind, wp_setPage, whole,
          next_page (by omega)]
        have written := stacked.write fresh (n := q) (by omega)
        apply induction (written _) near'
        · rw [List.length_drop]
          omega
        · rw [List.length_drop]
          omega
        · rw [List.length_drop]
          omega

/-- Copying to an address of the kernel. -/
theorem copyout_kernel (stacked : Stacked k dirs rest c count m m') {va : Nat}
    {buf : List UInt8} (some : 0 < buf.length) (above : kernbase ≤ va)
    (inside : va < 2 ^ 32) :
    wp (copyout c va buf)
      (fun copied m'' => copied = false ∧ m'' = m' ∧ KernelTable (pdx va))
      (fun reason => reason = .nullDereference ∧ ¬ KernelTable (pdx va))
      m' := by
  have live : c ∈ insert c dirs := Finset.mem_insert_self c dirs
  obtain ⟨q, number⟩ : ∃ q, va / pgsize = q := ⟨_, rfl⟩
  have rounded : pgrounddown va = q * pgsize := by
    unfold pgrounddown
    rw [number]
  have low : userPages ≤ q := by
    unfold userPages kernbase pgsize at *
    omega
  have high : q < allPages := by
    unfold allPages npdentries
    unfold pgsize at number
    omega
  have index : pdx va = q / npdentries := by
    unfold pdx npdentries
    unfold pgsize at number
    omega
  have kernel := stacked.kernel.table (q / npdentries)
    (Nat.div_le_div_right low) (div_lt_npdentries high)
  have system := stacked.kernel.system q low high
  obtain ⟨fuel, length⟩ : ∃ fuel, buf.length = fuel + 1 :=
    ⟨buf.length - 1, by omega⟩
  unfold copyout
  rw [length]
  unfold copyoutLoop
  rw [if_pos some, index]
  dsimp only
  rw [rounded, wp_bind]
  apply wp_uva2ka stacked.accounted live high
  · intro missing
    exact ⟨rfl, fun table => kernel.mpr table missing⟩
  · intro table _
    dsimp only
    rw [wp_pure]
    exact ⟨rfl, rfl, kernel.mp table⟩
  · intro _ yours
    rw [system] at yours
    cases yours

end Stacked

end Xv6.Vm
