import Xv6.Vm.Boot

/-!
# Copies of address spaces

`copyuvm` makes an address space with the same pages and flags in frames of
its own.  If it fails, all pages that it took are free again.
-/

namespace Xv6.Vm

open Lib
open Fs (Bytes word putWord zeroes)

/-- A page of a child with the contents and the flags of the parent's page. -/
def Copied (k : Kernel) (m : Memory) (d : Nat) (m' : Memory) (c n : Nat) :
    Prop :=
  ∃ f, k.Area f ∧ f ≠ 0 ∧ pteAt m' c n = entry f (pteFlags (pteAt m d n)) ∧
    m'.pages f = m.pages (pageAt m d n)

theorem pteFlags_lt (pte : UInt32) : pteFlags pte < pgsize :=
  Nat.mod_lt _ (by decide)

namespace Copied

variable {k : Kernel} {m m' : Memory} {d c n : Nat}

theorem page {f : Nat} (area : k.Area f) {perm : Nat} (flags : perm < pgsize)
    (pte : pteAt m' c n = entry f perm) : pageAt m' c n = f := by
  unfold pageAt
  rw [pte, frameOf_of_present (present_entry area.lt flags),
    frame_entry area.lt flags]

theorem present (copied : Copied k m d m' c n) : present (pteAt m' c n) := by
  obtain ⟨f, area, _, pte, _⟩ := copied
  rw [pte]
  exact present_entry area.lt (pteFlags_lt _)

theorem flags (copied : Copied k m d m' c n)
    (here : Vm.present (pteAt m d n)) :
    pteFlags (pteAt m' c n) = pteFlags (pteAt m d n) := by
  obtain ⟨f, area, _, pte, _⟩ := copied
  rw [pte, pteFlags_entry area.lt (pteFlags_lt _)]
  unfold Vm.present at here
  rw [decide_eq_true_iff] at here
  unfold pteFlags pgsize
  omega

theorem content (copied : Copied k m d m' c n) :
    m'.pages (pageAt m' c n) = m.pages (pageAt m d n) := by
  obtain ⟨f, area, _, pte, content⟩ := copied
  rw [page area (pteFlags_lt _) pte, content]

theorem change {dirs : Finset Nat} {rest : Holder → Nat} {m'' : Memory}
    {changed : Nat → Prop} (copied : Copied k m d m' c n)
    (change : Change dirs rest c changed m' m'') (live : c ∈ dirs)
    (inside : n < userPages) (other : ¬ changed n) :
    Copied k m d m'' c n := by
  obtain ⟨f, area, some, pte, content⟩ := copied
  refine ⟨f, area, some, ?_, ?_⟩
  · rw [change.pte n (lt_allPages inside) other, pte]
  · have frame := page area (pteFlags_lt _) pte
    have kept := change.content live inside other (by rwa [frame])
    rw [frame] at kept
    rw [kept, content]

end Copied

section Copyuvm

variable {k : Kernel} {dirs : Finset Nat} {rest : Holder → Nat} {d c sz : Nat}

/-- A page below the size is missing. -/
def Lacks (m : Memory) (d sz : Nat) : Prop :=
  ∃ n, n < pageCount sz ∧ ¬ present (pteAt m d n)

/-- What is left to copy behind the first pages. -/
structure Copying (k : Kernel) (dirs : Finset Nat) (rest : Holder → Nat)
    (d c sz n : Nat) (m m' : Memory) : Prop where
  accounted : Accounted k (insert c dirs) rest m'
  change : Change (insert c dirs) rest c (fun l => l < pageCount sz) m m'
  parent : ∀ l, l < n → present (pteAt m d l)
  copied : ∀ l, l < n → Copied k m d m' c l
  absent : ∀ l, n ≤ l → l < userPages → pteAt m' c l = 0
  reserve : reserve m' c + n = reserve m c

variable {m : Memory} (a : Accounted k (insert c dirs) rest m)
  (live : d ∈ dirs) (fresh : c ∉ dirs) (nothing : rest .hand = 0)
  (small : sz < kernbase)

include a live fresh nothing small

theorem copyuvmLoop_spec (fuel : Nat) :
    ∀ {n : Nat} {m' : Memory}, 0 < fuel → pageCount sz < n + fuel →
      n ≤ pageCount sz → Copying k dirs rest d c sz n m m' →
      wp (copyuvmLoop k d sz c fuel (n * pgsize))
        (fun copied m'' => if copied then
            Copying k dirs rest d c sz (pageCount sz) m m''
          else Accounted k (insert c dirs) rest m'' ∧
            (∀ e ∈ dirs, Same m m'' e) ∧
            Vm.reserve m c ≤ npdentries + pageCount sz)
        (fun _ => Lacks m d sz) m' := by
  have last := pageCount_le (le_of_lt small)
  have liveParent : d ∈ insert c dirs := Finset.mem_insert_of_mem live
  have liveChild : c ∈ insert c dirs := Finset.mem_insert_self c dirs
  have different : ∀ e ∈ dirs, e ≠ c := by
    intro e live' same
    rw [same] at live'
    exact fresh live'
  induction fuel with
  | zero =>
      intro n m' positive
      exact absurd positive (lt_irrefl 0)
  | succ fuel induction =>
      intro n m' _ enough bound copying
      have a' := copying.accounted
      have others : ∀ e ∈ dirs, Same m m' e := fun e live' =>
        copying.change.same (Finset.mem_insert_of_mem live') a
          (different e live')
      unfold copyuvmLoop
      by_cases more : n * pgsize < sz
      · rw [if_pos more, wp_bind]
        have below : n < pageCount sz := lt_pageCount.mpr more
        have inside : n < userPages := lt_of_lt_of_le below last
        have inside' := lt_allPages inside
        have pte := (others d live).pte n inside'
        have page : pageAt m' d n = pageAt m d n := congrArg frameOf pte
        apply wp_walkpgdir
          (a'.present_iff liveParent (div_lt_npdentries inside')).mp inside'
        · intro missing
          rw [wp_throw]
          refine ⟨n, below, ?_⟩
          rw [← pte]
          unfold pteAt
          rw [if_pos missing]
          decide
        · intro table
          by_cases here : present (pteAt m d n)
          case neg =>
              have loaded : word (m'.pages (tableAt m' d (n / npdentries)))
                  (n % npdentries) = pteAt m' d n := (if_neg table).symm
              dsimp only
              rw [wp_bind, wp_getEntry, loaded, pte, if_neg here, wp_throw]
              exact ⟨n, below, here⟩
          have some := a.page d liveParent n inside (ne_zero_of_present here)
          have loaded : word (m'.pages (tableAt m' d (n / npdentries)))
              (n % npdentries) = pteAt m' d n := (if_neg table).symm
          have source : frame (pteAt m d n) = pageAt m d n :=
            (frameOf_of_present here).symm
          dsimp only
          rw [wp_bind, wp_getEntry, loaded, pte, if_pos here, wp_bind, source]
          apply wp_kalloc
          · intro empty
            dsimp only
            rw [wp_pure, if_neg (by decide)]
            refine ⟨a', others, ?_⟩
            have left := copying.reserve
            have bound' := tables_le m' c
            unfold Vm.reserve at left ⊢
            rw [empty, List.length_nil] at left
            omega
          · intro f free head
            dsimp only
            rw [wp_bind, wp_get, wp_bind, wp_setPage]
            have content : (m'.drop free).pages (pageAt m d n) =
                m.pages (pageAt m d n) := (others d live).content n inside some
            rw [content]
            have taken := accounted_take a' nothing head
              (m.pages (pageAt m d n))
            have step : Change (insert c dirs) rest c (fun _ => False) m' _ :=
              change_take a' liveChild head (m.pages (pageAt m d n))
            have nonzero := a'.head_ne_zero head
            have area := a'.area_head head
            have absent := (step.pte n inside' not_false).trans
              (copying.absent n le_rfl inside)
            have left := reserve_take a' liveChild head
              (m.pages (pageAt m d n))
            have before := copying.reserve
            apply wp.bind (mappages_spec liveChild (pteFlags_lt _) nothing
              taken nonzero inside absent).safe
            intro mapped m₂ ⟨same, result⟩
            cases mapped with
            | true =>
                obtain ⟨a₂, change, pte', content'⟩ := result
                rw [if_pos rfl, next_page inside]
                have both : Change (insert c dirs) rest c (· = n) m' m₂ :=
                  (step.mono fun _ => False.elim).trans change
                apply induction (by omega) (by omega) (by omega)
                refine ⟨a₂, copying.change.trans
                  (both.mono fun l equal => by omega), ?_, ?_, ?_, by omega⟩
                · intro l before'
                  by_cases equal : l = n
                  · rw [equal]
                    exact here
                  · exact copying.parent l (by omega)
                · intro l before'
                  by_cases equal : l = n
                  · subst l
                    refine ⟨f, area, nonzero, pte', ?_⟩
                    rw [content']
                    exact Function.update_self _ _ _
                  · exact (copying.copied l (by omega)).change both liveChild
                      (by omega) equal
                · intro l later low
                  rw [both.pte l (lt_allPages low) (by omega)]
                  exact copying.absent l (by omega) low
            | false =>
                obtain ⟨equal, empty⟩ := result
                subst m₂
                rw [if_neg (by decide), wp_bind, wp_kfree area, wp_pure,
                  if_neg (by decide)]
                have given := taken.give (h := .hand)
                  (Function.update_self _ _ _) nonzero
                rw [Function.update_idem, ← nothing,
                  Function.update_eq_self] at given
                have freed : Change (insert c dirs) rest c (fun _ => False)
                    _ _ :=
                  change_give taken liveChild nonzero
                refine ⟨given, ?_, ?_⟩
                · intro e live'
                  exact (others e live').trans ((step.trans freed).same
                    (Finset.mem_insert_of_mem live') a' (different e live'))
                · have bound' := tables_le
                    ((m'.drop free).write f (m.pages (pageAt m d n))) c
                  unfold Vm.reserve at left before ⊢
                  rw [empty, List.length_nil] at left
                  omega
      · rw [if_neg more, wp_pure, if_pos rfl]
        have equal : n = pageCount sz := by
          by_contra unequal
          exact more (lt_pageCount.mp (by omega))
        subst n
        exact copying

end Copyuvm

/-- A child's address space that `copyuvm` returns. -/
structure Child (k : Kernel) (dirs : Finset Nat) (rest : Holder → Nat)
    (d sz : Nat) (m : Memory) (c : Nat) (m' : Memory) : Prop where
  fresh : c ∉ dirs
  accounted : Accounted k (insert c dirs) rest m'
  others : ∀ e ∈ dirs, Same m m' e
  parent : ∀ n, n < pageCount sz → present (pteAt m d n)
  copied : ∀ n, n < pageCount sz → Copied k m d m' c n
  absent : ∀ n, pageCount sz ≤ n → n < userPages → pteAt m' c n = 0
  kernel : KernelHalf m' c

section Copyuvm

variable {k : Kernel} {dirs : Finset Nat} {rest : Holder → Nat}
  {d sz : Nat} {m : Memory}

theorem copyuvm_spec (a : Accounted k dirs rest m) (live : d ∈ dirs)
    (nothing : rest .hand = 0) (small : sz < kernbase) :
    wp (copyuvm k d sz)
      (fun dir m' => match dir with
        | some c => Child k dirs rest d sz m c m'
        | none => Accounted k dirs rest m' ∧ (∀ e ∈ dirs, Same m m' e) ∧
            m.freelist.length ≤ npdentries + pageCount sz + 1)
      (fun _ => Lacks m d sz) m := by
  have last := pageCount_le (le_of_lt small)
  unfold copyuvm
  apply wp.bind (setupkvm_spec a).safe
  intro dir m₁ result
  cases dir with
  | none =>
      obtain ⟨a₁, others, few⟩ := result
      rw [wp_pure]
      exact ⟨a₁, others, by omega⟩
  | some c =>
      have setup : Setup k dirs rest m c m₁ := result
      have liveChild : c ∈ insert c dirs := Finset.mem_insert_self c dirs
      have others := setup.others
      have start : Copying k dirs rest d c sz 0 m₁ m₁ :=
        ⟨setup.accounted, Change.refl m₁, fun l wrong => by omega,
          fun l wrong => by omega, fun l _ low => setup.empty l low,
          Nat.add_zero _⟩
      have parent : ∀ n, n < pageCount sz → pteAt m₁ d n = pteAt m d n :=
        fun n below => (others d live).pte n (lt_allPages (by omega))
      have enough : pageCount sz < sz / pgsize + 2 := by
        unfold pageCount pgsize
        omega
      have loop := copyuvmLoop_spec setup.accounted live setup.fresh nothing
        small (sz / pgsize + 2) (by omega) (by omega)
        (Nat.zero_le _) start
      rw [Nat.zero_mul] at loop
      dsimp only
      apply wp.bind (loop.mono (fun _ _ => id) _)
      swap
      · intro _ ⟨n, below, absent⟩
        rw [parent n below] at absent
        exact ⟨n, below, absent⟩
      intro copied m₂ result
      have reserve := setup.reserve
      cases copied with
      | true =>
          rw [if_pos rfl] at result ⊢
          have copying : Copying k dirs rest d c sz (pageCount sz) m₁ m₂ :=
            result
          rw [wp_pure]
          have same : ∀ e ∈ dirs, Same m₁ m₂ e := by
            intro e live'
            apply copying.change.same (Finset.mem_insert_of_mem live')
              setup.accounted
            intro equal
            rw [equal] at live'
            exact setup.fresh live'
          have here : ∀ n, n < pageCount sz → present (pteAt m d n) := by
            intro n below
            rw [← parent n below]
            exact copying.parent n below
          refine ⟨setup.fresh, copying.accounted, ?_, here, ?_, ?_, ?_⟩
          · intro e live'
            exact (others e live').trans (same e live')
          · intro n below
            have low : n < userPages := by omega
            obtain ⟨f, area, some, pte, content⟩ := copying.copied n below
            have equal := (others d live).pte n (lt_allPages low)
            have page : pageAt m₁ d n = pageAt m d n := congrArg frameOf equal
            refine ⟨f, area, some, by rw [pte, equal], ?_⟩
            rw [content, page]
            apply (others d live).content n low
            exact a.page d live n low (ne_zero_of_present (here n below))
          · exact copying.absent
          · exact setup.kernel.change copying.change fun n below => by omega
      | false =>
          rw [if_neg (by decide)] at result ⊢
          obtain ⟨a₂, same, few⟩ := result
          apply wp.bind (freevm_spec a₂ liveChild).safe
          intro _ m₃ ⟨a₃, same'⟩
          rw [wp_pure]
          rw [Finset.erase_insert setup.fresh] at a₃
          refine ⟨a₃, ?_, by omega⟩
          intro e live'
          refine ((others e live').trans (same e live')).trans
            (same' e (Finset.mem_insert_of_mem live') ?_)
          intro equal
          rw [equal] at live'
          exact setup.fresh live'

/-- The address space `c` is a copy of the one of `d` in frames that no other
address space has. -/
structure Isolated (dirs : Finset Nat) (d sz : Nat) (m : Memory) (c : Nat)
    (m' : Memory) : Prop where
  fresh : c ∉ dirs
  mapped : ∀ n, n < pageCount sz → present (pteAt m' c n) = true
  flags : ∀ n, n < pageCount sz →
    pteFlags (pteAt m' c n) = pteFlags (pteAt m d n)
  content : ∀ n, n < pageCount sz →
    m'.pages (pageAt m' c n) = m.pages (pageAt m d n)
  own : ∀ n l, n < pageCount sz → l < pageCount sz →
    pageAt m' c n = pageAt m' c l → n = l
  apart : ∀ e ∈ dirs, ∀ n l, n < pageCount sz → l < userPages →
    pageAt m' c n ≠ pageAt m' e l
  absent : ∀ n, pageCount sz ≤ n → n < userPages →
    present (pteAt m' c n) = false

theorem Child.isolated {c : Nat} {m' : Memory} (small : sz < kernbase)
    (child : Child k dirs rest d sz m c m') : Isolated dirs d sz m c m' := by
  have last := pageCount_le (le_of_lt small)
  have live : c ∈ insert c dirs := Finset.mem_insert_self c dirs
  have a := child.accounted
  have here : ∀ n, n < pageCount sz → present (pteAt m' c n) = true :=
    fun n below => (child.copied n below).present
  refine ⟨child.fresh, here, ?_, ?_, ?_, ?_, ?_⟩
  · intro n below
    exact (child.copied n below).flags (child.parent n below)
  · intro n below
    exact (child.copied n below).content
  · intro n l below below' same
    exact (a.page_inj live live (by omega) (by omega) (here n below) same).2
  · intro e live' n l below inside same
    have equal := (a.page_inj live (Finset.mem_insert_of_mem live') (by omega)
      inside (here n below) same).1
    rw [equal] at child
    exact child.fresh live'
  · intro n above inside
    rw [child.absent n above inside]
    rfl

/-- The owners of the pages are as before, and so are the free pages. -/
theorem Accounted.free_perm {m' : Memory} (a : Accounted k dirs rest m)
    (a' : Accounted k dirs rest m') (same : ∀ e ∈ dirs, Same m m' e) :
    m'.freelist.Perm m.freelist := by
  have owners : address dirs rest m' = address dirs rest m :=
    address_congr (fun e live i inside => (same e live).pde i inside)
      fun e live n inside => (same e live).pte n (lt_allPages inside)
  have pool := a'.pool
  rw [owners] at pool
  exact pool.perm a.pool

/-- `copyuvm` returns a copy of its own, or nothing and keeps no page. -/
theorem copyuvm_isolates (a : Accounted k dirs rest m) (live : d ∈ dirs)
    (nothing : rest .hand = 0) (mapped : WellMapped m d sz) :
    ∃ dir m', (copyuvm k d sz).run m = .ok (dir, m') ∧
      (∀ e ∈ dirs, Same m m' e) ∧
      match dir with
      | some c => Isolated dirs d sz m c m'
      | none => m'.freelist.Perm m.freelist := by
  have total := (copyuvm_spec a live nothing mapped.small).mono
    (fun _ _ => id) fun _ ⟨n, below, absent⟩ =>
      absent (mapped.mapped n below)
  obtain ⟨dir, m', run, outcome⟩ := total.returns
  refine ⟨dir, m', run, ?_⟩
  cases dir with
  | some c =>
      have child : Child k dirs rest d sz m c m' := outcome
      exact ⟨child.others, child.isolated mapped.small⟩
  | none =>
      obtain ⟨a', same, _⟩ := outcome
      exact ⟨same, a.free_perm a' same⟩

/-- A process of two pages, all of whose bytes are seven. -/
theorem copyuvm_isolates_sevens :
    ∃ d rest m, Accounted smallKernel {d} rest m ∧ WellMapped m d 8192 ∧
      m.pages (pageAt m d 1) = (fun _ => 7) ∧
      ∃ c m', (copyuvm smallKernel d 8192).run m = .ok (some c, m') ∧
        Isolated {d} d 8192 m c m' := by
  obtain ⟨d, rest, m, a, nothing, mapped, content, many⟩ :=
    exists_process smallKernel (fun _ _ => 7) 8192 (by decide) (by decide)
  have live : d ∈ ({d} : Finset Nat) := Finset.mem_singleton_self d
  have pages : pageCount 8192 = 2 := by decide
  refine ⟨d, rest, m, a, mapped, content 1 (by rw [pages]; decide), ?_⟩
  obtain ⟨dir, m', run, _, outcome⟩ := copyuvm_isolates a live nothing mapped
  cases dir with
  | some c => exact ⟨c, m', run, outcome⟩
  | none =>
      have few := ((copyuvm_spec a live nothing mapped.small).ok run).2.2
      unfold npdentries at few
      omega

end Copyuvm

end Xv6.Vm
