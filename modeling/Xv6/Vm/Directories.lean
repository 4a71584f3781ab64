import Xv6.Vm.UserMemory

/-!
# Making and freeing address spaces

`setupkvm` makes a directory whose upper half maps the kernel, and `freevm`
gives all pages of a directory back.  Neither changes another address space.
-/

namespace Xv6.Vm

open Lib
open Fs (Bytes word putWord zeroes word_zeroes)

/-! ## `freevm` -/

section Freevm

variable {k : Kernel} {dirs : Finset Nat} {rest : Holder → Nat} {m : Memory}
  {d : Nat} (a : Accounted k dirs rest m) (live : d ∈ dirs)

/-- The owners when `freevm` has freed the tables in front of an index. -/
def withoutTables (before : Owner → Nat) (d j : Nat) : Owner → Nat
  | .table e i => if e = d ∧ i < j then 0 else before (.table e i)
  | owner => before owner

theorem withoutTables_succ (before : Owner → Nat) (d j : Nat) :
    withoutTables before d (j + 1) =
      Function.update (withoutTables before d j) (.table d j) 0 := by
  funext owner
  by_cases same : owner = .table d j
  · subst owner
    rw [Function.update_self]
    exact if_pos ⟨rfl, by omega⟩
  · rw [Function.update_of_ne same]
    cases owner with
    | table e i =>
        unfold withoutTables
        apply if_congr _ rfl rfl
        constructor
        · intro ⟨first, second⟩
          refine ⟨first, ?_⟩
          by_contra later
          apply same
          rw [first, show i = j by omega]
        · intro ⟨first, second⟩
          exact ⟨first, by omega⟩
    | _ => rfl

/-- The owners without a directory that has no user pages. -/
theorem address_erase {m' : Memory}
    (empty : ∀ n, n < userPages → pteAt m d n = 0)
    (others : ∀ e ∈ dirs, e ≠ d → Same m m' e) :
    address (dirs.erase d) rest m' =
      Function.update (withoutTables (address dirs rest m) d npdentries)
        (.dir d) 0 := by
  have gone : d ∉ dirs.erase d := Finset.notMem_erase d dirs
  funext owner
  cases owner with
  | held h => rfl
  | dir e =>
      by_cases same : e = d
      · subst e
        rw [Function.update_self]
        exact if_neg gone
      · rw [Function.update_of_ne (by simpa using same)]
        unfold withoutTables address
        simp [same]
  | table e i =>
      rw [Function.update_of_ne (by simp)]
      by_cases same : e = d
      · subst e
        unfold withoutTables address
        simp only [gone, false_and, if_false, true_and]
        split
        · rfl
        · rename_i outside
          exact (if_neg fun given => outside given.2).symm
      · unfold withoutTables address
        simp only [Finset.mem_erase, same, ne_eq, not_false_iff, true_and,
          false_and, if_false]
        split
        · rename_i given
          exact congrArg frameOf ((others e given.1 same).pde i given.2)
        · rfl
  | page e n =>
      rw [Function.update_of_ne (by simp)]
      by_cases same : e = d
      · subst e
        unfold withoutTables address
        simp only [gone, false_and, if_false]
        split
        · rename_i given
          unfold pageAt
          rw [empty n given.2]
          rfl
        · rfl
      · unfold withoutTables address
        simp only [Finset.mem_erase, same, ne_eq, not_false_iff, true_and]
        split
        · rename_i given
          exact congrArg frameOf
            ((others e given.1 same).pte n (lt_allPages given.2))
        · rfl

include a live

/-- The tables of a directory are freed. -/
theorem freeTables_spec (count : Nat) :
    ∀ {j : Nat} {m' : Memory}, j + count = npdentries →
      Pool k.Area m'.freelist
        (withoutTables (address dirs rest m) d j) →
      (∀ owner, (∀ i, owner ≠ .table d i) →
        address dirs rest m owner ≠ 0 →
        m'.pages (address dirs rest m owner) =
          m.pages (address dirs rest m owner)) →
      wp (freeTables k d (List.range' j count))
        (fun _ m' => Pool k.Area m'.freelist
            (withoutTables (address dirs rest m) d npdentries) ∧
          ∀ owner, (∀ i, owner ≠ .table d i) →
            address dirs rest m owner ≠ 0 →
            m'.pages (address dirs rest m owner) =
              m.pages (address dirs rest m owner))
        (fun _ => False) m' := by
  induction count with
  | zero =>
      intro j m' all pool kept
      have all' : j = npdentries := all
      subst j
      unfold freeTables
      rw [List.range'_zero, wp_pure]
      exact ⟨pool, kept⟩
  | succ count induction =>
      intro j m' all pool kept
      have inside : j < npdentries := by omega
      have directory : m'.pages d = m.pages d := by
        have page := kept (.dir d) (by simp)
        rw [address_dir live] at page
        exact page (a.dir d live)
      have pde : word (m'.pages d) j = pdeAt m d j := by
        rw [directory]
        rfl
      have owner : withoutTables (address dirs rest m) d j (.table d j) =
          tableAt m d j :=
        (if_neg (by omega)).trans (address_table live inside)
      rw [List.range'_succ]
      unfold freeTables
      rw [wp_bind, wp_getEntry, pde, wp_bind]
      by_cases here : present (pdeAt m d j)
      · have some := (a.present_iff live inside).mp here
        have table : tableAt m d j = frame (pdeAt m d j) :=
          frameOf_of_present here
        have area : k.Area (tableAt m d j) := by
          rw [← owner]
          apply pool.owns.inside
          rwa [owner]
        rw [if_pos here, ← table, wp_kfree area]
        apply induction (by omega)
        · rw [withoutTables_succ]
          exact pool.give owner some
        · intro other noTable owned
          rw [← kept other noTable owned]
          apply Function.update_of_ne
          intro same
          have owners := a.pool.owns.single other (.table d j) owned
            (by rw [same, address_table live inside])
          exact noTable j owners
      · have nothing : tableAt m d j = 0 := if_neg here
        rw [if_neg here, wp_pure]
        apply induction (by omega) _ kept
        rw [withoutTables_succ]
        rw [nothing] at owner
        rw [← owner, Function.update_eq_self]
        exact pool

/-- A directory without user pages is freed with its tables. -/
theorem freeDirectory_spec
    (empty : ∀ n, n < userPages → pteAt m d n = 0) :
    wp (do
        freeTables k d (List.range npdentries)
        kfree k d)
      (fun _ m' => Accounted k (dirs.erase d) rest m' ∧
        ∀ e ∈ dirs, e ≠ d → Same m m' e)
      (fun _ => False) m := by
  have start : Pool k.Area m.freelist
      (withoutTables (address dirs rest m) d 0) := by
    have none : withoutTables (address dirs rest m) d 0 =
        address dirs rest m := by
      funext owner
      cases owner with
      | table e i => exact if_neg (by omega)
      | _ => rfl
    rw [none]
    exact a.pool
  rw [List.range_eq_range']
  apply wp.bind (freeTables_spec a live npdentries (Nat.zero_add _) start
    fun _ _ _ => rfl)
  intro _ m' ⟨pool, kept⟩
  have owner : withoutTables (address dirs rest m) d npdentries (.dir d) =
      d := by
    change address dirs rest m (.dir d) = d
    exact address_dir live
  have some := a.dir d live
  have area : k.Area d := by
    have inside := pool.owns.inside (.dir d)
    rw [owner] at inside
    exact inside some
  rw [wp_kfree area]
  have kept' : ∀ owner, (∀ i, owner ≠ .table d i) → owner ≠ .dir d →
      address dirs rest m owner ≠ 0 →
      (m'.free d).pages (address dirs rest m owner) =
        m.pages (address dirs rest m owner) := by
    intro other noTable noDir owned
    rw [← kept other noTable owned]
    apply Function.update_of_ne
    intro same
    exact noDir (a.pool.owns.single other (.dir d) owned
      (by rw [same, address_dir live]))
  have others : ∀ e ∈ dirs, e ≠ d → Same m (m'.free d) e := by
    intro e live' other
    apply Same.of_pages
    · have page := kept' (.dir e) (by simp) (by simpa using other)
      rw [address_dir live'] at page
      exact page (a.dir e live')
    · intro i inside filled
      have page := kept' (.table e i) (by simp [other]) (by simp)
      rw [address_table live' inside] at page
      exact page filled
    · intro n inside filled
      have page := kept' (.page e n) (by simp) (by simp)
      rw [address_page live' inside] at page
      exact page filled
  have owners : address (dirs.erase d) rest (m'.free d) =
      Function.update (withoutTables (address dirs rest m) d npdentries)
        (.dir d) 0 :=
    address_erase empty others
  refine ⟨⟨?_, ?_, ?_, ?_⟩, others⟩
  · rw [owners]
    exact pool.give owner some
  · intro e live'
    exact a.dir e (Finset.mem_of_mem_erase live')
  · intro e live' i inside
    obtain ⟨other, live''⟩ := Finset.mem_erase.mp live'
    unfold tableAt
    rw [(others e live'' other).pde i inside]
    exact a.table e live'' i inside
  · intro e live' n inside
    obtain ⟨other, live''⟩ := Finset.mem_erase.mp live'
    unfold pageAt
    rw [(others e live'' other).pte n (lt_allPages inside)]
    exact a.page e live'' n inside

/-- `freevm` gives a whole address space back. -/
theorem freevm_spec :
    wp (freevm k d)
      (fun _ m' => Accounted k (dirs.erase d) rest m' ∧
        ∀ e ∈ dirs, e ≠ d → Same m m' e)
      (fun _ => False) m := by
  unfold freevm
  apply wp.bind (deallocuvm_spec live le_rfl a)
  intro _ m₁ ⟨_, a₁, change, zero, _⟩
  have empty : ∀ n, n < userPages → pteAt m₁ d n = 0 := by
    intro n inside
    apply zero n (Nat.zero_le n)
    exact inside
  apply (freeDirectory_spec a₁ live empty).imp
  intro _ m' ⟨a', others⟩
  refine ⟨a', ?_⟩
  intro e live' other
  exact (change.same live' a other).trans (others e live' other)

end Freevm

/-! ## `setupkvm` -/

/-- The page tables of the kernel. -/
def KernelTable (i : Nat) : Prop :=
  i < (kernbase + phystop) / 2 ^ 22 ∨ devspace / 2 ^ 22 ≤ i

/-- The pages of the kernel. -/
def KernelPage (n : Nat) : Prop :=
  (userPages ≤ n ∧ n < (kernbase + phystop) / pgsize) ∨
    (devspace / pgsize ≤ n ∧ n < allPages)

/-- The half of an address space at and above `KERNBASE`. -/
structure KernelHalf (m : Memory) (d : Nat) : Prop where
  table : ∀ i, userPages / npdentries ≤ i → i < npdentries →
    (tableAt m d i ≠ 0 ↔ KernelTable i)
  system : ∀ n, userPages ≤ n → n < allPages → user (pteAt m d n) = false

/-- A directory that `setupkvm` is filling, with the pages that are mapped. -/
structure Partly (k : Kernel) (dirs : Finset Nat) (rest : Holder → Nat)
    (d : Nat) (covered : Nat → Prop) (m m' : Memory) : Prop where
  accounted : Accounted k (insert d dirs) rest m'
  others : ∀ e ∈ dirs, Same m m' e
  mapped : ∀ l, l < allPages → covered l →
    present (pteAt m' d l) = true ∧ user (pteAt m' d l) = false
  absent : ∀ l, l < allPages → ¬ covered l → pteAt m' d l = 0
  pde : ∀ i, (∀ l, covered l → l / npdentries ≠ i) → pdeAt m' d i = 0
  reserve : reserve m' d + 1 = m.freelist.length

section Setupkvm

variable {k : Kernel} {dirs : Finset Nat} {rest : Holder → Nat} {m : Memory}
  {d : Nat}

/-- The owners with a directory that is empty. -/
theorem address_insert {m' : Memory}
    (table : ∀ i, i < npdentries → tableAt m' d i = 0)
    (others : ∀ e ∈ dirs, Same m m' e) (fresh : d ∉ dirs) :
    address (insert d dirs) rest m' =
      Function.update (address dirs rest m) (.dir d) d := by
  have pte : ∀ n, n < userPages → pteAt m' d n = 0 := fun n inside =>
    if_pos (table _ (div_lt_npdentries (lt_allPages inside)))
  funext owner
  cases owner with
  | held h => rfl
  | dir e =>
      by_cases same : e = d
      · subst e
        rw [Function.update_self]
        exact if_pos (Finset.mem_insert_self d dirs)
      · rw [Function.update_of_ne (by simpa using same)]
        unfold address
        simp [same]
  | table e i =>
      rw [Function.update_of_ne (by simp)]
      by_cases same : e = d
      · subst e
        unfold address
        simp only [fresh, false_and, if_false]
        split
        · rename_i given
          exact table i given.2
        · rfl
      · unfold address
        simp only [Finset.mem_insert, same, false_or]
        split
        · rename_i given
          exact congrArg frameOf ((others e given.1).pde i given.2)
        · rfl
  | page e n =>
      rw [Function.update_of_ne (by simp)]
      by_cases same : e = d
      · subst e
        unfold address
        simp only [fresh, false_and, if_false]
        split
        · rename_i given
          unfold pageAt
          rw [pte n given.2]
          rfl
        · rfl
      · unfold address
        simp only [Finset.mem_insert, same, false_or]
        split
        · rename_i given
          exact congrArg frameOf
            ((others e given.1).pte n (lt_allPages given.2))
        · rfl

/-- An empty directory. -/
theorem partly_start (a : Accounted k dirs rest m) {free : List Nat}
    (head : m.freelist = d :: free) :
    Partly k dirs rest d (fun _ => False) m
      ((m.drop free).write d zeroes) := by
  have plain := a.plain_head head
  have fresh : d ∉ dirs := fun live => plain.dir d live rfl
  have pde : ∀ i, pdeAt ((m.drop free).write d zeroes) d i = 0 := by
    intro i
    unfold pdeAt Memory.write
    dsimp only
    rw [Function.update_self, word_zeroes]
  have table : ∀ i, tableAt ((m.drop free).write d zeroes) d i = 0 := by
    intro i
    unfold tableAt
    rw [pde]
    rfl
  have pte : ∀ n, pteAt ((m.drop free).write d zeroes) d n = 0 := by
    intro n
    unfold pteAt
    rw [if_pos (table _)]
  have others : ∀ e ∈ dirs, Same m ((m.drop free).write d zeroes) e := by
    intro e live
    apply Same.of_pages
    · exact Function.update_of_ne (plain.dir e live) _ _
    · intro i inside _
      exact Function.update_of_ne (plain.table e live i inside) _ _
    · intro n inside some
      have owner := a.pool.ne_of_mem
        (by rw [head]; exact List.mem_cons_self) (.page e n)
      rw [address_page live inside] at owner
      exact Function.update_of_ne owner _ _
  refine ⟨⟨?_, ?_, ?_, ?_⟩, others, fun _ _ wrong => wrong.elim,
    fun l _ _ => pte l, fun i _ => pde i, ?_⟩
  · have pool := a.pool
    rw [head] at pool
    rw [address_insert (fun i _ => table i) others fresh]
    apply pool.take
    exact if_neg fresh
  · intro e live
    rcases Finset.mem_insert.mp live with same | live
    · rw [same]
      exact a.head_ne_zero head
    · exact a.dir e live
  · intro e live i inside
    rcases Finset.mem_insert.mp live with same | live
    · rw [same, pde]
      exact fun wrong => (wrong rfl).elim
    · unfold tableAt
      rw [(others e live).pde i inside]
      exact a.table e live i inside
  · intro e live n inside
    rcases Finset.mem_insert.mp live with same | live
    · rw [same, pte]
      exact fun wrong => (wrong rfl).elim
    · unfold pageAt
      rw [(others e live).pte n (lt_allPages inside)]
      exact a.page e live n inside
  · have none : tables ((m.drop free).write d zeroes) d = 0 := by
      unfold tables
      simp [table]
    have length : ((m.drop free).write d zeroes).freelist = free := rfl
    unfold Vm.reserve
    rw [none, length, head, List.length_cons]

/-- One entry of `kmap`. -/
theorem partly_mappages {covered : Nat → Prop} {m' : Memory}
    {n count f perm : Nat} (partly : Partly k dirs rest d covered m m')
    (fresh : d ∉ dirs) (some : 0 < count) (above : userPages ≤ n)
    (inside : n + count ≤ allPages) (frames : f + count ≤ 2 ^ 20)
    (flags : perm < 4)
    (new : ∀ l, n ≤ l → l < n + count → ¬ covered l) :
    wp (mappages d (n * pgsize) (count * pgsize) f perm)
      (fun mapped m'' => if mapped then
          Partly k dirs rest d
            (fun l => covered l ∨ (n ≤ l ∧ l < n + count)) m m''
        else Accounted k (insert d dirs) rest m'' ∧
          (∀ e ∈ dirs, Same m m'' e) ∧ m.freelist.length ≤ npdentries + 1)
      (fun _ => False) m' := by
  have live : d ∈ insert d dirs := Finset.mem_insert_self d dirs
  rw [mappages_eq some inside]
  apply (mappagesLoop_spec live count partly.accounted above inside frames
    fun l first last =>
      partly.absent l (by omega) (new l first last)).imp
  intro mapped m'' ⟨a', change, same, result⟩
  have others : ∀ e ∈ dirs, Same m m'' e := by
    intro e live'
    have other : e ≠ d := by
      intro equal
      rw [equal] at live'
      exact fresh live'
    exact (partly.others e live').trans
      (change.same (Finset.mem_insert_of_mem live') partly.accounted other)
  have left := partly.reserve
  rw [← same] at left
  cases mapped with
  | false =>
      rw [if_neg (by decide)] at result ⊢
      refine ⟨a', others, ?_⟩
      have bound := tables_le m'' d
      unfold Vm.reserve at left
      rw [result, List.length_nil] at left
      omega
  | true =>
      rw [if_pos rfl] at result ⊢
      refine ⟨a', others, ?_, ?_, ?_, left⟩
      · intro l below either
        by_cases range : n ≤ l ∧ l < n + count
        · rw [result l range.1 range.2]
          have small : f + (l - n) < 2 ^ 20 := by omega
          have flags' : perm < pgsize := by
            unfold pgsize
            omega
          refine ⟨present_entry small flags', ?_⟩
          rw [user_entry small flags', decide_eq_false_iff_not]
          omega
        · rw [change.pte l below range]
          rcases either with old | range'
          · exact partly.mapped l below old
          · exact (range range').elim
      · intro l below neither
        rw [change.pte l below fun range => neither (Or.inr range)]
        exact partly.absent l below fun old => neither (Or.inl old)
      · intro i other
        rw [change.pde i fun l range => other l (Or.inr range)]
        exact partly.pde i fun l old => other l (Or.inl old)

/-- `kmap` in pages. -/
theorem kmap_eq (k : Kernel) : ∃ data, k.data = data * pgsize ∧
    userPages + 256 < data ∧ data < userPages + 1024 ∧
    kmap k =
      [⟨userPages * pgsize, 256 * pgsize, 0, pteW⟩,
        ⟨(userPages + 256) * pgsize, (data - (userPages + 256)) * pgsize,
          256, 0⟩,
        ⟨data * pgsize, (userPages + phystop / pgsize - data) * pgsize,
          data - userPages, pteW⟩,
        ⟨devspace / pgsize * pgsize, 8192 * pgsize, devspace / pgsize,
          pteW⟩] := by
  have aligned := k.aligned
  have text := k.text
  have ordered := k.ordered
  have small := k.small
  obtain ⟨data, number⟩ : ∃ data, k.data = data * pgsize :=
    ⟨k.data / pgsize, by unfold pgsize at *; omega⟩
  refine ⟨data, number, ?_, ?_, ?_⟩
  · rw [number] at text
    unfold kernlink kernbase extmem pgsize at text
    unfold userPages kernbase pgsize
    omega
  · rw [number] at ordered
    unfold kernbase at small
    unfold pgsize at ordered
    unfold userPages kernbase pgsize
    omega
  · have start : kernbase = userPages * pgsize := by decide
    have io : extmem = 256 * pgsize := by decide
    have link : kernlink = (userPages + 256) * pgsize := by decide
    have first : extmem / pgsize = 256 := by decide
    have length : k.data - kernlink =
        (data - (userPages + 256)) * pgsize := by
      rw [number, link, Nat.sub_mul]
    have offset : k.data - kernbase = (data - userPages) * pgsize := by
      rw [number, start, Nat.sub_mul]
    have memory : phystop - (k.data - kernbase) =
        (userPages + phystop / pgsize - data) * pgsize := by
      rw [offset]
      rw [number] at text ordered
      unfold kernlink kernbase extmem at text
      unfold kernbase at small
      unfold userPages kernbase phystop pgsize at *
      omega
    have frame : (k.data - kernbase) / pgsize = data - userPages := by
      rw [offset, Nat.mul_div_cancel _ (by decide)]
    have devices : devspace = devspace / pgsize * pgsize := by decide
    have wrapped : uintSub 0 devspace = 8192 * pgsize := by decide
    unfold kmap
    rw [length, memory, frame, first, wrapped, number, ← devices, ← start,
      ← io, ← link]

/-- The failure of one entry of `kmap` gives the directory back. -/
theorem setupkvmLoop_cons {covered : Nat → Prop} {m' : Memory}
    {n count f perm : Nat} {more : List Kmap}
    {post : Bool → Memory → Prop}
    (partly : Partly k dirs rest d covered m m')
    (fresh : d ∉ dirs) (some : 0 < count) (above : userPages ≤ n)
    (inside : n + count ≤ allPages) (frames : f + count ≤ 2 ^ 20)
    (flags : perm < 4)
    (new : ∀ l, n ≤ l → l < n + count → ¬ covered l)
    (failed : ∀ m'', Accounted k dirs rest m'' → (∀ e ∈ dirs, Same m m'' e) →
      m.freelist.length ≤ npdentries + 1 → post false m'')
    (next : ∀ m'', Partly k dirs rest d
        (fun l => covered l ∨ (n ≤ l ∧ l < n + count)) m m'' →
      wp (setupkvmLoop k d more) post (fun _ => False) m'') :
    wp (setupkvmLoop k d
        (⟨n * pgsize, count * pgsize, f, perm⟩ :: more))
      post (fun _ => False) m' := by
  have live : d ∈ insert d dirs := Finset.mem_insert_self d dirs
  unfold setupkvmLoop
  apply wp.bind (partly_mappages partly fresh some above inside frames flags
    new)
  intro mapped m'' result
  cases mapped with
  | true =>
      rw [if_pos rfl] at result ⊢
      exact next m'' result
  | false =>
      rw [if_neg (by decide)] at result ⊢
      obtain ⟨a, others, few⟩ := result
      apply wp.bind (freevm_spec a live)
      intro _ m₃ ⟨a₃, others'⟩
      rw [wp_pure]
      rw [Finset.erase_insert fresh] at a₃
      refine failed m₃ a₃ ?_ few
      intro e live'
      have other : e ≠ d := by
        intro equal
        rw [equal] at live'
        exact fresh live'
      exact (others e live').trans
        (others' e (Finset.mem_insert_of_mem live') other)

/-- The loop over the entries of `kmap`. -/
theorem setupkvmLoop_spec {m' : Memory} (fresh : d ∉ dirs)
    (partly : Partly k dirs rest d (fun _ => False) m m') :
    wp (setupkvmLoop k d (kmap k))
      (fun done m'' => if done then Partly k dirs rest d KernelPage m m''
        else Accounted k dirs rest m'' ∧ (∀ e ∈ dirs, Same m m'' e) ∧
          m.freelist.length ≤ npdentries + 1)
      (fun _ => False) m' := by
  obtain ⟨data, number, first, second, entries⟩ := kmap_eq k
  have user : userPages = 524288 := by decide
  have all : allPages = 1048576 := by decide
  have physical : phystop / pgsize = 57344 := by decide
  have devices : devspace / pgsize = 1040384 := by decide
  have last : (kernbase + phystop) / pgsize = 581632 := by decide
  rw [entries]
  apply setupkvmLoop_cons partly fresh (by decide) le_rfl (by decide)
    (by decide) (by decide) (fun _ _ _ => not_false)
    (fun m'' a others few => ⟨a, others, few⟩)
  intro m₁ partly
  apply setupkvmLoop_cons partly fresh (by omega) (by omega) (by omega)
    (by omega) (by decide) (fun l low high => by rw [false_or]; omega)
    (fun m'' a others few => ⟨a, others, few⟩)
  intro m₂ partly
  apply setupkvmLoop_cons partly fresh (by omega) (by omega) (by omega)
    (by omega) (by decide) (fun l low high => by rw [false_or]; omega)
    (fun m'' a others few => ⟨a, others, few⟩)
  intro m₃ partly
  apply setupkvmLoop_cons partly fresh (by decide) (by decide) (by decide)
    (by decide) (by decide) (fun l low high => by rw [false_or]; omega)
    (fun m'' a others few => ⟨a, others, few⟩)
  intro m₄ partly
  unfold setupkvmLoop
  rw [wp_pure, if_pos rfl]
  have covered : KernelPage = fun l =>
      (((False ∨ userPages ≤ l ∧ l < userPages + 256) ∨
        userPages + 256 ≤ l ∧
          l < userPages + 256 + (data - (userPages + 256))) ∨
        data ≤ l ∧ l < data + (userPages + phystop / pgsize - data)) ∨
        devspace / pgsize ≤ l ∧ l < devspace / pgsize + 8192 := by
    funext l
    apply propext
    unfold KernelPage
    rw [false_or]
    omega
  rw [covered]
  exact partly

/-- The pages of the kernel make up the upper half. -/
theorem Partly.kernelHalf {m' : Memory}
    (partly : Partly k dirs rest d KernelPage m m') : KernelHalf m' d := by
  constructor
  · intro i above inside
    have user : userPages / npdentries = 512 := by decide
    have all : npdentries = 1024 := rfl
    have first : (kernbase + phystop) / 2 ^ 22 = 568 := by decide
    have second : devspace / 2 ^ 22 = 1016 := by decide
    have last : (kernbase + phystop) / pgsize = 581632 := by decide
    have devices : devspace / pgsize = 1040384 := by decide
    have pages : allPages = 1048576 := by decide
    have users : userPages = 524288 := by decide
    unfold KernelTable
    constructor
    · intro some
      by_contra outside
      apply some
      have pde := partly.pde i (by
        intro l covered same
        unfold KernelPage at covered
        rw [all] at same
        omega)
      unfold tableAt
      rw [pde]
      rfl
    · intro kernel zero
      have page : i * 1024 / npdentries = i := Nat.mul_div_cancel i (by decide)
      have mapped := partly.mapped (i * 1024) (by omega) (by
        unfold KernelPage
        omega)
      have pte : pteAt m' d (i * 1024) = 0 := by
        unfold pteAt
        rw [page, if_pos zero]
      rw [pte] at mapped
      exact absurd mapped.1 (by decide)
  · intro n above inside
    by_cases kernel : KernelPage n
    · exact (partly.mapped n inside kernel).2
    · rw [partly.absent n inside kernel]
      rfl

/-- What `setupkvm` returns. -/
structure Setup (k : Kernel) (dirs : Finset Nat) (rest : Holder → Nat)
    (m : Memory) (d : Nat) (m' : Memory) : Prop where
  fresh : d ∉ dirs
  accounted : Accounted k (insert d dirs) rest m'
  others : ∀ e ∈ dirs, Same m m' e
  empty : ∀ n, n < userPages → pteAt m' d n = 0
  kernel : KernelHalf m' d
  reserve : reserve m' d + 1 = m.freelist.length

theorem setupkvm_spec (a : Accounted k dirs rest m) :
    wp (setupkvm k)
      (fun dir m' => match dir with
        | some d => Setup k dirs rest m d m'
        | none => Accounted k dirs rest m' ∧ (∀ e ∈ dirs, Same m m' e) ∧
            m.freelist.length ≤ npdentries + 1)
      (fun _ => False) m := by
  unfold setupkvm
  rw [wp_bind]
  apply wp_kalloc
  · intro empty
    rw [wp_pure]
    exact ⟨a, fun e _ => Same.refl m e, by rw [empty]; exact Nat.zero_le _⟩
  · intro d free head
    have fresh : d ∉ dirs := fun live => (a.plain_head head).dir d live rfl
    dsimp only
    rw [wp_bind, wp_setPage]
    apply wp.bind (setupkvmLoop_spec fresh (partly_start a head))
    intro done m' result
    rw [wp_pure]
    cases done with
    | false => exact result
    | true =>
        have partly : Partly k dirs rest d KernelPage m m' := result
        refine ⟨fresh, partly.accounted, partly.others, ?_,
          partly.kernelHalf, partly.reserve⟩
        intro n inside
        apply partly.absent n (lt_allPages inside)
        have devices : devspace / pgsize = 1040384 := by decide
        have users : userPages = 524288 := by decide
        unfold KernelPage
        omega

end Setupkvm

section KernelHalf

variable {dirs : Finset Nat} {rest : Holder → Nat} {d : Nat} {m m' : Memory}

theorem KernelHalf.change {changed : Nat → Prop}
    (kernel : KernelHalf m d) (change : Change dirs rest d changed m m')
    (below : ∀ n, changed n → n < userPages) : KernelHalf m' d := by
  have limit : userPages / npdentries = 512 := by decide
  have pages : userPages = 524288 := by decide
  have size : npdentries = 1024 := rfl
  constructor
  · intro i above inside
    unfold tableAt
    rw [change.pde i]
    · exact kernel.table i above inside
    · intro n old same
      have low := below n old
      rw [size] at same
      omega
  · intro n above inside
    rw [change.pte n inside fun old => by have low := below n old; omega]
    exact kernel.system n above inside

theorem KernelHalf.congr (kernel : KernelHalf m d)
    (pde : ∀ i, i < npdentries → pdeAt m' d i = pdeAt m d i)
    (pte : ∀ n, n < allPages → pteAt m' d n = pteAt m d n) :
    KernelHalf m' d := by
  constructor
  · intro i low high
    have table : tableAt m' d i = tableAt m d i :=
      congrArg frameOf (pde i high)
    rw [table]
    exact kernel.table i low high
  · intro n low high
    rw [pte n high]
    exact kernel.system n low high

end KernelHalf

end Xv6.Vm
