import Xv6.Vm.Unmap

/-!
# Growing and shrinking user memory

`deallocuvm` and `allocuvm` change the pages between two sizes.  If `allocuvm`
fails, the address space is what it was before.
-/

namespace Xv6.Vm

open Lib
open Fs (Bytes word putWord zeroes word_putWord)

/-! ## Writes besides the page tables -/

section Write

variable {dirs : Finset Nat} {rest : Holder → Nat} {d f : Nat}
  {changed : Nat → Prop} {m m' : Memory}

/-- A page is written that no owner besides has. -/
theorem change_write (plain : Plain dirs m f) (page : Bytes)
    (live : d ∈ dirs)
    (pages : m'.pages = Function.update m.pages f page)
    (apart : ∀ owner, Beside d changed owner → address dirs rest m owner ≠ 0 →
      address dirs rest m owner ≠ f) :
    Change dirs rest d changed m m' := by
  have pde : ∀ e ∈ dirs, ∀ i, pdeAt m' e i = pdeAt m e i := by
    intro e live' i
    apply pdeAt_congr
    rw [pages, Function.update_of_ne (plain.dir e live')]
  have pte : ∀ e ∈ dirs, ∀ n, n < allPages → pteAt m' e n = pteAt m e n := by
    intro e live' n inside
    apply pteAt_congr (pde e live' _)
    rw [pages, Function.update_of_ne
      (plain.table e live' _ (div_lt_npdentries inside))]
  refine ⟨?_, fun n inside _ => pte d live n inside, fun i _ => pde d live i⟩
  intro owner beside owned
  constructor
  · apply congrFun
    exact address_congr (fun e live' i _ => pde e live' i)
      fun e live' n inside => pte e live' n (lt_allPages inside)
  · rw [pages, Function.update_of_ne (apart owner beside owned)]

variable {k : Kernel}

/-- A page of the user is written. -/
theorem change_page {n : Nat} (a : Accounted k dirs rest m) (live : d ∈ dirs)
    (inside : n < userPages) (some : pageAt m d n ≠ 0) (page : Bytes) :
    Change dirs rest d (· = n) m (m.write (pageAt m d n) page) := by
  apply change_write (a.plain_page live inside some) page live rfl
  intro owner beside owned same
  have owners := a.pool.owns.single owner (.page d n) owned
    (by rw [same, address_page live inside])
  subst owner
  exact beside rfl rfl

/-- The running code takes a page and fills it. -/
theorem change_take (a : Accounted k dirs rest m) (live : d ∈ dirs)
    {free : List Nat} (head : m.freelist = f :: free) (page : Bytes) :
    Change dirs rest d changed m ((m.drop free).write f page) := by
  apply change_write (a.plain_head head) page live rfl
  intro owner _ _
  exact a.pool.ne_of_mem (by rw [head]; exact List.mem_cons_self) owner

theorem accounted_take (a : Accounted k dirs rest m)
    (nothing : rest .hand = 0) {free : List Nat}
    (head : m.freelist = f :: free) (page : Bytes) :
    Accounted k dirs (Function.update rest .hand f)
      ((m.drop free).write f page) := by
  have taken := a.take head nothing
  have plain := taken.plain_held (h := .hand)
    (by rw [Function.update_self]; exact a.head_ne_zero head)
  rw [Function.update_self] at plain
  exact taken.write plain page

theorem reserve_take (a : Accounted k dirs rest m) (live : d ∈ dirs)
    {free : List Nat} (head : m.freelist = f :: free) (page : Bytes) :
    reserve ((m.drop free).write f page) d + 1 = reserve m d := by
  have plain := a.plain_head head
  have same : ∀ i, tableAt ((m.drop free).write f page) d i = tableAt m d i :=
    fun i => congrArg frameOf
      (pdeAt_congr (Function.update_of_ne (plain.dir d live) _ _) i)
  have length : ((m.drop free).write f page).freelist = free := rfl
  unfold reserve tables
  simp only [same]
  rw [length, head, List.length_cons]
  omega

/-- The running code frees the page that it holds. -/
theorem change_give (a : Accounted k dirs (Function.update rest .hand f) m)
    (live : d ∈ dirs) (some : f ≠ 0) :
    Change dirs rest d changed m (m.free f) := by
  have holds : Function.update rest .hand f .hand = f :=
    Function.update_self _ _ _
  have plain := a.plain_held (h := .hand) (by rwa [holds])
  rw [holds] at plain
  apply Change.of_hand (f := f)
  apply change_write plain (fun _ => 1) live rfl
  intro owner beside owned same
  have owners := a.pool.owns.single owner (.held .hand) owned
    (by rw [same, address_held, holds])
  subst owner
  exact beside rfl

end Write

/-! ## `deallocuvm` -/

section Unmap

variable {k : Kernel} {dirs : Finset Nat} {rest : Holder → Nat} {m : Memory}
  {d n : Nat} (a : Accounted k dirs rest m) (live : d ∈ dirs)
  (inside : n < userPages) (some : pageAt m d n ≠ 0)

include a live inside some

theorem accounted_unmap : Accounted k dirs rest (m.unmap d n) := by
  apply a.unmap live (div_lt_npdentries (lt_allPages inside))
    (Nat.mod_lt n (by decide)) (table_of_page some)
  · rwa [index_page]
  · rw [index_page]
  · exact some

theorem pages_unmap : (m.unmap d n).pages =
    Function.update (m.store (tableAt m d (n / npdentries)) (n % npdentries)
      0).pages (pageAt m d n) fun _ => 1 := by
  have plain := a.plain_page live inside some
  have different := plain.table d live _
    (div_lt_npdentries (lt_allPages inside))
  unfold Memory.unmap Memory.store Memory.free Memory.write
  dsimp only
  rw [Function.update_of_ne different, Function.update_comm different]

theorem change_unmap : Change dirs rest d (· = n) m (m.unmap d n) := by
  have table := table_of_page some
  have inside' := lt_allPages inside
  have index := div_lt_npdentries inside'
  have plain := a.plain_page live inside some
  apply (change_store a live inside' table 0).trans
  apply change_write _ (fun _ => 1) live (pages_unmap a live inside some)
  · intro owner beside owned same
    have other : owner ≠ .page d n := by
      intro equal
      subst owner
      exact beside rfl rfl
    have stored := a.address_store live index (Nat.mod_lt n (by decide)) table
      (by rwa [index_page]) 0
    rw [index_page] at stored
    rw [stored, Function.update_of_ne other] at owned same
    apply other
    apply a.pool.owns.single owner _ owned
    rw [same, address_page live inside]
  · refine ⟨plain.dir, ?_⟩
    intro e live' i inside''
    have kept : tableAt (m.store (tableAt m d (n / npdentries))
        (n % npdentries) 0) e i = tableAt m e i :=
      congrArg frameOf (a.pdeAt_store live index 0 live' i)
    rw [kept]
    exact plain.table e live' i inside''

end Unmap

section Deallocuvm

variable {k : Kernel} {dirs : Finset Nat} {rest : Holder → Nat} {d : Nat}
  (live : d ∈ dirs)

include live

/-- The plain loop over a list of pages keeps the account. -/
theorem Accounted.unmapPages (pages : List Nat) :
    ∀ {m : Memory}, Accounted k dirs rest m → (∀ n ∈ pages, n < userPages) →
      Accounted k dirs rest (m.unmapPages d pages) ∧
      Change dirs rest d (· ∈ pages) m (m.unmapPages d pages) ∧
      (∀ l ∈ pages, pteAt (m.unmapPages d pages) d l = 0) ∧
      ∀ i, pdeAt (m.unmapPages d pages) d i = pdeAt m d i := by
  induction pages with
  | nil =>
      intro m a inside
      exact ⟨a, Change.refl m, by simp, fun _ => rfl⟩
  | cons n pages induction =>
      intro m a inside
      have below := inside n List.mem_cons_self
      have inside' := fun l member => inside l (List.mem_cons_of_mem n member)
      have later : ∀ l, l ∈ pages → l ∈ n :: pages :=
        fun l => List.mem_cons_of_mem n
      unfold Memory.unmapPages
      by_cases here : present (pteAt m d n)
      · have dir := a.directory live
        have some := dir.page_ne_zero below here
        obtain ⟨a', change, zero, pde⟩ :=
          induction (accounted_unmap a live below some) inside'
        have first : Change dirs rest d (· ∈ n :: pages) m (m.unmap d n) :=
          (change_unmap a live below some).mono fun l equal =>
            List.mem_cons.mpr (.inl equal)
        rw [if_pos here]
        refine ⟨a', first.trans (change.mono later), ?_, ?_⟩
        · intro l member
          by_cases again : l ∈ pages
          · exact zero l again
          · obtain rfl := (List.mem_cons.mp member).resolve_right again
            rw [change.pte l (lt_allPages below) again,
              dir.pteAt_unmap below here (lt_allPages below), if_pos rfl]
        · intro i
          rw [pde i, dir.pdeAt_unmap below here]
      · have empty : pteAt m d n = 0 := by
          by_contra nonzero
          exact here (present_of_frameOf (a.page d live n below nonzero))
        obtain ⟨a', change, zero, pde⟩ := induction a inside'
        rw [if_neg here]
        refine ⟨a', change.mono later, ?_, pde⟩
        intro l member
        by_cases again : l ∈ pages
        · exact zero l again
        · obtain rfl := (List.mem_cons.mp member).resolve_right again
          rw [change.pte l (lt_allPages below) again, empty]

theorem deallocuvm_spec {oldsz newsz : Nat} (small : oldsz ≤ kernbase)
    {m : Memory} (a : Accounted k dirs rest m) :
    wp (deallocuvm k d oldsz newsz)
      (fun sz m' => sz = (if newsz ≥ oldsz then oldsz else newsz) ∧
        Accounted k dirs rest m' ∧
        Change dirs rest d
          (fun l => pageCount newsz ≤ l ∧ l < pageCount oldsz) m m' ∧
        (∀ l, pageCount newsz ≤ l → l < pageCount oldsz → pteAt m' d l = 0) ∧
        ∀ i, pdeAt m' d i = pdeAt m d i)
      (fun _ => False) m := by
  unfold deallocuvm
  by_cases grown : newsz ≥ oldsz
  · rw [if_pos grown, if_pos grown, wp_pure]
    have empty := pageCount_mono grown
    exact ⟨rfl, a, Change.refl m, fun l first second => by omega,
      fun _ => rfl⟩
  · rw [if_neg grown, if_neg grown, pgroundup_eq (by omega)]
    have enough : pageCount oldsz < oldsz / pgsize + 2 := by
      unfold pageCount pgsize
      omega
    have member : ∀ l, l ∈ List.range' (pageCount newsz)
        (pageCount oldsz - pageCount newsz) ↔
        pageCount newsz ≤ l ∧ l < pageCount oldsz := by
      intro l
      rw [List.mem_range'_1]
      omega
    have last := pageCount_le small
    apply wp.bind ((a.directory live).deallocuvmLoop small _ (by omega)
      (by omega))
    rintro _ _ rfl
    obtain ⟨a', change, zero, pde⟩ := Accounted.unmapPages live _ a
      fun l among => ((member l).mp among).2.trans_le last
    rw [wp_pure]
    exact ⟨rfl, a', change.mono fun l => (member l).mp,
      fun l first second => zero l ((member l).mpr ⟨first, second⟩), pde⟩

end Deallocuvm

/-! ## `allocuvm` -/

section Allocuvm

variable {k : Kernel} {dirs : Finset Nat} {rest : Holder → Nat} {d : Nat}

/-- A page as `allocuvm` makes it: zeroed, writable and for the user. -/
def Fresh (k : Kernel) (m : Memory) (d n : Nat) : Prop :=
  ∃ f, k.Area f ∧ f ≠ 0 ∧ pteAt m d n = entry f (pteW ||| pteU) ∧
    m.pages f = zeroes

theorem Fresh.page {m : Memory} {n f : Nat} (area : k.Area f)
    (pte : pteAt m d n = entry f (pteW ||| pteU)) : pageAt m d n = f := by
  unfold pageAt
  rw [pte, frameOf_of_present (present_entry area.lt (by decide)),
    frame_entry area.lt (by decide)]

theorem Fresh.change {changed : Nat → Prop} {m m' : Memory} {n : Nat}
    (fresh : Fresh k m d n) (change : Change dirs rest d changed m m')
    (live : d ∈ dirs) (inside : n < userPages) (other : ¬ changed n) :
    Fresh k m' d n := by
  obtain ⟨f, area, some, pte, zero⟩ := fresh
  refine ⟨f, area, some, ?_, ?_⟩
  · rw [change.pte n (lt_allPages inside) other, pte]
  · have page := Fresh.page area pte
    have content := change.content live inside other (by rwa [page])
    rw [page, zero] at content
    exact content

/-- The outcome of growing from `oldsz` to `newsz`. -/
structure Grown (k : Kernel) (dirs : Finset Nat) (rest : Holder → Nat)
    (d oldsz newsz : Nat) (m : Memory) (sz : Nat) (m' : Memory) : Prop where
  accounted : Accounted k dirs rest m'
  change : Change dirs rest d
    (fun l => pageCount oldsz ≤ l ∧ l < pageCount newsz) m m'
  outcome :
    (sz = newsz ∧
      (∀ l, pageCount oldsz ≤ l → l < pageCount newsz → Fresh k m' d l) ∧
      reserve m' d + (pageCount newsz - pageCount oldsz) = reserve m d) ∨
    (sz = 0 ∧
      (∀ l, pageCount oldsz ≤ l → l < pageCount newsz → pteAt m' d l = 0) ∧
      reserve m d ≤ npdentries + (pageCount newsz - pageCount oldsz))

variable (live : d ∈ dirs) (nothing : rest .hand = 0)

include live nothing

theorem allocuvmLoop_spec {oldsz newsz : Nat} (small : newsz < kernbase)
    {m₀ : Memory} (fuel : Nat) :
    ∀ {n : Nat} {m : Memory}, Accounted k dirs rest m → 0 < fuel →
      pageCount newsz < n + fuel → pageCount oldsz ≤ n →
      n ≤ pageCount newsz →
      Change dirs rest d
        (fun l => pageCount oldsz ≤ l ∧ l < pageCount newsz) m₀ m →
      (∀ l, pageCount oldsz ≤ l → l < n → Fresh k m d l) →
      (∀ l, n ≤ l → l < pageCount newsz → pteAt m d l = 0) →
      reserve m d + (n - pageCount oldsz) = reserve m₀ d →
      wp (allocuvmLoop k d oldsz newsz fuel (n * pgsize))
        (Grown k dirs rest d oldsz newsz m₀) (fun _ => False) m := by
  have last := pageCount_le (le_of_lt small)
  induction fuel with
  | zero =>
      intro n m a positive
      exact absurd positive (lt_irrefl 0)
  | succ fuel induction =>
      intro n m a _ enough first bound change fresh absent taken
      unfold allocuvmLoop
      by_cases more : n * pgsize < newsz
      · rw [if_pos more]
        have below : n < pageCount newsz := lt_pageCount.mpr more
        have inside : n < userPages := lt_of_lt_of_le below last
        rw [wp_bind]
        apply wp_kalloc
        · intro empty
          dsimp only
          apply wp.bind (deallocuvm_spec live (le_of_lt small) a)
          intro _ m' ⟨_, a', change', zero, _⟩
          rw [wp_pure]
          refine ⟨a', change.trans change', Or.inr ⟨rfl, zero, ?_⟩⟩
          have bound := tables_le m d
          unfold reserve at taken ⊢
          rw [empty] at taken
          rw [← taken, List.length_nil]
          omega
        · intro f free head
          dsimp only
          rw [wp_bind, wp_setPage]
          have taken' := accounted_take a nothing head zeroes
          have step : Change dirs rest d (fun _ => False) m _ :=
            change_take a live head zeroes
          have some := a.head_ne_zero head
          have area := a.area_head head
          have absent' := (step.pte n (lt_allPages inside) not_false).trans
            (absent n le_rfl below)
          have left := reserve_take a live head zeroes
          apply wp.bind (mappages_spec live (by decide) nothing taken' some
            inside absent')
          intro mapped m' ⟨same, result⟩
          cases mapped with
          | true =>
              obtain ⟨a', change', pte, content⟩ := result
              rw [if_pos rfl, next_page inside]
              have both : Change dirs rest d (· = n) m m' :=
                (step.mono fun _ => False.elim).trans change'
              apply induction a' (by omega) (by omega) (by omega) (by omega)
                (change.trans (both.mono fun l equal => by omega))
              · intro l first' before
                by_cases equal : l = n
                · subst l
                  refine ⟨f, area, some, pte, ?_⟩
                  rw [content]
                  exact Function.update_self _ _ _
                · exact (fresh l first' (by omega)).change both live
                    (by omega) equal
              · intro l first' before
                rw [both.pte l (lt_allPages (by omega)) (by omega)]
                exact absent l (by omega) before
              · omega
          | false =>
              obtain ⟨equal, empty⟩ := result
              subst m'
              rw [if_neg (by decide)]
              apply wp.bind (deallocuvm_spec live (le_of_lt small) taken')
              intro _ m' ⟨_, a', change', zero, _⟩
              rw [wp_bind, wp_kfree area, wp_pure]
              have given := a'.give (h := .hand) (Function.update_self _ _ _)
                some
              rw [Function.update_idem, ← nothing, Function.update_eq_self]
                at given
              have freed : Change dirs rest d (fun _ => False) m' _ :=
                change_give a' live some
              refine ⟨given, ?_, Or.inr ⟨rfl, ?_, ?_⟩⟩
              · exact change.trans (((step.mono fun _ => False.elim).trans
                  change'.of_hand).trans (freed.mono fun _ => False.elim))
              · intro l first' before
                rw [freed.pte l (lt_allPages (by omega)) not_false]
                exact zero l first' before
              · have bound' := tables_le ((m.drop free).write f zeroes) d
                unfold reserve at left taken ⊢
                rw [empty, List.length_nil] at left
                omega
      · rw [if_neg more, wp_pure]
        have equal : n = pageCount newsz := by
          by_contra different
          exact more (lt_pageCount.mp (by omega))
        subst n
        exact ⟨a, change, Or.inl ⟨rfl, fresh, taken⟩⟩

theorem allocuvm_spec {oldsz newsz : Nat} {m : Memory}
    (a : Accounted k dirs rest m)
    (absent : newsz < kernbase → ∀ l, pageCount oldsz ≤ l →
      l < pageCount newsz → pteAt m d l = 0) :
    wp (allocuvm k d oldsz newsz)
      (fun sz m' => (kernbase ≤ newsz ∧ sz = 0 ∧ m' = m) ∨
        (newsz < kernbase ∧ newsz < oldsz ∧ sz = oldsz ∧ m' = m) ∨
        (newsz < kernbase ∧ oldsz ≤ newsz ∧
          Grown k dirs rest d oldsz newsz m sz m'))
      (fun _ => False) m := by
  unfold allocuvm
  by_cases large : newsz ≥ kernbase
  · rw [if_pos large, wp_pure]
    exact Or.inl ⟨large, rfl, rfl⟩
  · rw [if_neg large]
    have small : newsz < kernbase := by omega
    by_cases shrinks : newsz < oldsz
    · rw [if_pos shrinks, wp_pure]
      exact Or.inr (Or.inl ⟨small, shrinks, rfl, rfl⟩)
    · rw [if_neg shrinks, pgroundup_eq (by omega)]
      have grows : oldsz ≤ newsz := by omega
      have ordered := pageCount_mono grows
      have enough : pageCount newsz < newsz / pgsize + 2 := by
        unfold pageCount pgsize
        omega
      apply (allocuvmLoop_spec live nothing small _ a (by omega) (by omega)
        le_rfl ordered (Change.refl m) (fun l first last => by omega)
        (absent small) (by omega)).imp
      intro sz m' grown
      exact Or.inr (Or.inr ⟨small, grows, grown⟩)

end Allocuvm

/-! ## Address spaces of processes -/

/-- An address space of a size with all pages below the size, each in a frame
of its own, and no others that the user can reach. -/
structure WellMapped (m : Memory) (d sz : Nat) : Prop where
  small : sz < kernbase
  mapped : ∀ n, n < pageCount sz → present (pteAt m d n) = true
  own : ∀ n l, n < pageCount sz → l < pageCount sz →
    pageAt m d n = pageAt m d l → n = l
  absent : ∀ n, pageCount sz ≤ n → n < userPages →
    present (pteAt m d n) = false
  system : ∀ n, userPages ≤ n → n < allPages →
    present (pteAt m d n) = true → user (pteAt m d n) = false

section WellMapped

variable {k : Kernel} {dirs : Finset Nat} {rest : Holder → Nat}
  {d e sz n l : Nat} {m : Memory}

theorem Accounted.wellMapped (a : Accounted k dirs rest m) (live : d ∈ dirs)
    (small : sz < kernbase)
    (mapped : ∀ n, n < pageCount sz → present (pteAt m d n) = true)
    (absent : ∀ n, pageCount sz ≤ n → n < userPages → pteAt m d n = 0)
    (system : ∀ n, userPages ≤ n → n < allPages →
      present (pteAt m d n) = true → user (pteAt m d n) = false) :
    WellMapped m d sz where
  small := small
  mapped := mapped
  own n l below below' same := by
    have last := pageCount_le (le_of_lt small)
    exact (a.page_inj live live (by omega) (by omega) (mapped n below) same).2
  absent n above inside := by
    rw [absent n above inside]
    rfl
  system := system

/-- A page that is not there has the entry zero. -/
theorem WellMapped.pteAt_eq_zero (mapped : WellMapped m d sz)
    (a : Accounted k dirs rest m) (live : d ∈ dirs)
    (above : pageCount sz ≤ n) (inside : n < userPages) :
    pteAt m d n = 0 := by
  by_contra some
  have here := present_of_frameOf (a.page d live n inside some)
  rw [mapped.absent n above inside] at here
  cases here

/-- The pages decide whether an address space is well mapped. -/
theorem WellMapped.congr {m' : Memory} (mapped : WellMapped m d sz)
    (same : ∀ n, n < allPages → pteAt m' d n = pteAt m d n) :
    WellMapped m' d sz := by
  have last := pageCount_le (le_of_lt mapped.small)
  refine ⟨mapped.small, ?_, ?_, ?_, ?_⟩
  · intro n below
    rw [same n (lt_allPages (by omega))]
    exact mapped.mapped n below
  · intro n l below below'
    unfold pageAt
    rw [same n (lt_allPages (by omega)), same l (lt_allPages (by omega))]
    exact mapped.own n l below below'
  · intro n above inside
    rw [same n (lt_allPages inside)]
    exact mapped.absent n above inside
  · intro n low high
    rw [same n high]
    exact mapped.system n low high

end WellMapped

end Xv6.Vm
