import Xv6.Vm.Boot

/-!
# `deallocuvm` page by page

The loop of `deallocuvm` jumps behind the addresses of a missing page table.
It does what a loop does that looks at one page after the other, for every
page directory whose tables and user pages are distinct pages of the
allocator.  Entries that are not present may hold anything.
-/

namespace Xv6.Vm

open Lib

/-- The pages that have an address from `start` on and below `stop`. -/
def pagesBetween (start stop : Nat) : List Nat :=
  List.range' (pageCount start) (pageCount stop - pageCount start)

theorem mem_pagesBetween {start stop n : Nat} :
    n ∈ pagesBetween start stop ↔
      start ≤ n * pgsize ∧ n * pgsize < stop := by
  unfold pagesBetween
  rw [List.mem_range'_1, ← lt_pageCount, ← not_lt (a := n * pgsize),
    ← lt_pageCount]
  omega

/-! ## What the plain loop does -/

/-- The pages of a list that are present. -/
def presentPages (m : Memory) (d : Nat) (pages : List Nat) : List Nat :=
  pages.filter fun n => present (pteAt m d n)

/-- The effect of unmapping the present pages of a list. -/
structure Unmapped (m : Memory) (d : Nat) (pages : List Nat) (m' : Memory) :
    Prop where
  freelist : m'.freelist =
    ((presentPages m d pages).map (pageAt m d)).reverse ++ m.freelist
  pte : ∀ l, l < allPages → pteAt m' d l =
    if l ∈ presentPages m d pages then 0 else pteAt m d l
  pde : ∀ i, pdeAt m' d i = pdeAt m d i

namespace Directory

variable {k : Kernel} {m : Memory} {d : Nat}

theorem unmapPages (pages : List Nat) :
    ∀ {m : Memory}, Directory k m d → pages.Nodup →
      (∀ n ∈ pages, n < userPages) →
      Unmapped m d pages (m.unmapPages d pages) := by
  induction pages with
  | nil =>
      intro m dir distinct inside
      exact ⟨rfl, fun l below => by simp [presentPages, Memory.unmapPages],
        fun i => rfl⟩
  | cons n pages induction =>
      intro m dir distinct inside
      have below := inside n List.mem_cons_self
      obtain ⟨new, distinct⟩ := List.nodup_cons.mp distinct
      have inside' : ∀ l ∈ pages, l < userPages := fun l member =>
        inside l (List.mem_cons_of_mem n member)
      unfold Memory.unmapPages
      by_cases here : present (pteAt m d n)
      · have rest := induction (dir.unmap below here) distinct inside'
        have read : ∀ l ∈ pages,
            pteAt (m.unmap d n) d l = pteAt m d l := by
          intro l member
          rw [dir.pteAt_unmap below here (lt_allPages (inside' l member)),
            if_neg]
          intro equal
          exact new (equal ▸ member)
        have later : presentPages (m.unmap d n) d pages =
            presentPages m d pages :=
          List.filter_congr fun l member => by rw [read l member]
        have first : presentPages m d (n :: pages) =
            n :: presentPages m d pages := List.filter_cons_of_pos here
        have frames : (presentPages m d pages).map (pageAt (m.unmap d n) d) =
            (presentPages m d pages).map (pageAt m d) :=
          List.map_congr_left fun l member =>
            congrArg frameOf (read l (List.mem_of_mem_filter member))
        rw [if_pos here]
        refine ⟨?_, ?_, ?_⟩
        · rw [rest.freelist, later, first, frames, List.map_cons,
            List.reverse_cons, List.append_assoc]
          rfl
        · intro l less
          rw [rest.pte l less, later, first,
            dir.pteAt_unmap below here less]
          simp only [List.mem_cons]
          by_cases equal : l = n
          · simp [equal]
          · simp [equal]
        · intro i
          rw [rest.pde i, dir.pdeAt_unmap below here i]
      · have rest := induction dir distinct inside'
        have first : presentPages m d (n :: pages) = presentPages m d pages :=
          List.filter_cons_of_neg here
        rw [if_neg here]
        exact ⟨by rw [first]; exact rest.freelist,
          by rw [first]; exact rest.pte, rest.pde⟩

/-- `deallocuvm` is the plain loop over the pages between the two sizes.  It
returns, frees the frame of each present page among them once, clears their
entries, and leaves every other entry as it is. -/
theorem deallocuvm_eq_plain {oldsz newsz : Nat} (dir : Directory k m d)
    (less : newsz < oldsz) (small : oldsz ≤ kernbase) :
    (deallocuvm k d oldsz newsz).run m =
        .ok (newsz, m.unmapPages d (pagesBetween newsz oldsz)) ∧
      Unmapped m d (pagesBetween newsz oldsz)
        (m.unmapPages d (pagesBetween newsz oldsz)) ∧
      ((presentPages m d (pagesBetween newsz oldsz)).map
        (pageAt m d)).Nodup ∧
      ∀ n, n ∈ presentPages m d (pagesBetween newsz oldsz) ↔
        pgroundup newsz ≤ n * pgsize ∧ n * pgsize < oldsz ∧
          present (pteAt m d n) := by
  have rounded : pgroundup newsz = pageCount newsz * pgsize :=
    pgroundup_eq (by omega)
  have last := pageCount_le small
  have member : ∀ {n}, n ∈ pagesBetween newsz oldsz →
      n < userPages := by
    intro n member
    have inside := (mem_pagesBetween.mp member).2
    exact lt_of_lt_of_le (lt_pageCount.mpr inside) last
  have distinct : (pagesBetween newsz oldsz).Nodup := List.nodup_range'
  refine ⟨?_, dir.unmapPages _ distinct fun n => member, ?_, ?_⟩
  · have enough : pageCount oldsz < oldsz / pgsize + 2 := by
      unfold pageCount pgsize
      omega
    have runs : wp (deallocuvm k d oldsz newsz)
        (fun sz m' => sz = newsz ∧
          m' = m.unmapPages d (pagesBetween newsz oldsz))
        (fun _ => False) m := by
      unfold deallocuvm
      rw [if_neg (by omega), rounded]
      apply wp.bind (dir.deallocuvmLoop small _ (by omega) (by omega))
      intro _ m' result
      rw [wp_pure]
      exact ⟨rfl, result⟩
    obtain ⟨sz, m', run, rfl, rfl⟩ := runs.returns
    exact run
  · apply List.Nodup.map_on _ (distinct.filter _)
    intro n first l second same
    obtain ⟨among, here⟩ := List.mem_filter.mp first
    exact dir.pages n l (member among)
      (member (List.mem_of_mem_filter second)) here same
  · intro n
    unfold presentPages
    rw [List.mem_filter, mem_pagesBetween, and_assoc, rounded]
    have start : newsz ≤ n * pgsize ↔
        pageCount newsz * pgsize ≤ n * pgsize := by
      rw [Nat.mul_le_mul_right_iff (by decide), ← not_lt, ← not_lt,
        lt_pageCount]
    rw [start]

/-- A process of three pages keeps its first byte. -/
theorem deallocuvm_eq_plain_one :
    ∃ d m, Directory smallKernel m d ∧ present (pteAt m d 1) = true ∧
      (deallocuvm smallKernel d 12288 1).run m =
        .ok (1, m.unmapPages d (pagesBetween 1 12288)) := by
  obtain ⟨d, rest, m, a, _, mapped, _, _⟩ :=
    exists_process smallKernel (fun _ => Fs.zeroes) 12288 (by decide)
      (by decide)
  have dir := a.directory (Finset.mem_singleton_self d)
  exact ⟨d, m, dir, mapped.mapped 1 (by decide),
    (dir.deallocuvm_eq_plain (by decide) (by decide)).1⟩

end Directory

end Xv6.Vm
