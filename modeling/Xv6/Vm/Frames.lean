import Mathlib.Data.Finset.Card
import Mathlib.Data.Finset.Range
import Xv6.Vm.Space

/-!
# Pages change hands

How `kalloc`, `kfree` and the stores to page tables move a page from one owner
to the next, and what `walkpgdir` and `mappages` make of an address space.
-/

namespace Xv6.Vm

open Lib
open Fs (Bytes word putWord zeroes word_putWord word_putWord_of_ne word_zeroes)

theorem address_update_rest {dirs : Finset Nat} {rest : Holder → Nat}
    {m : Memory} (h : Holder) (f : Nat) :
    address dirs (Function.update rest h f) m =
      Function.update (address dirs rest m) (.held h) f := by
  funext owner
  cases owner with
  | held h' =>
      by_cases same : h' = h
      · subst h'
        rw [address_held, Function.update_self, Function.update_self]
      · rw [address_held, Function.update_of_ne same,
          Function.update_of_ne (by simpa using same), address_held]
  | _ => rfl

namespace Accounted

variable {k : Kernel} {dirs : Finset Nat} {rest : Holder → Nat} {m : Memory}
  {d e i j n f t : Nat} {free : List Nat} {h : Holder}

/-- A holder takes the first free page. -/
theorem take (a : Accounted k dirs rest m) (head : m.freelist = f :: free)
    (nothing : rest h = 0) :
    Accounted k dirs (Function.update rest h f) (m.drop free) where
  pool := by
    have pool := a.pool
    rw [head] at pool
    rw [address_update_rest]
    exact pool.take nothing
  dir := a.dir
  table := a.table
  page := a.page

/-- A holder frees its page. -/
theorem give (a : Accounted k dirs rest m) (holds : rest h = f)
    (some : f ≠ 0) :
    Accounted k dirs (Function.update rest h 0) (m.free f) := by
  subst f
  have written := a.write (a.plain_held some) fun _ => 1
  refine ⟨?_, written.dir, written.table, written.page⟩
  rw [address_update_rest]
  have holds : address dirs rest (m.write (rest h) fun _ => 1) (.held h) =
      rest h := rfl
  exact written.pool.give holds some

section Table

variable (a : Accounted k dirs rest m) (live : d ∈ dirs)
  (inside : i < npdentries) (inside' : j < npdentries)
  (table : tableAt m d i ≠ 0) (below : i * npdentries + j < userPages)

include a live inside inside' table below

/-- A held page is mapped. -/
theorem map {perm : Nat} (holds : rest h = f) (some : f ≠ 0)
    (absent : pageAt m d (i * npdentries + j) = 0) (flags : perm < pgsize) :
    Accounted k dirs (Function.update rest h 0)
      (m.store (tableAt m d i) j (entry f perm)) := by
  have held : address dirs rest m (.held h) = f := holds
  have owned : address dirs rest m (.held h) ≠ 0 := by rwa [held]
  have area := a.area owned
  rw [held] at area
  have page : frameOf (entry f perm) = f := by
    rw [frameOf_of_present (present_entry area.lt flags),
      frame_entry area.lt flags]
  apply a.store live inside inside' table
  · intro _
    rwa [page]
  · rw [address_update_rest, a.address_store live inside inside' table below,
      page, Function.update_comm (by simp)]
    apply a.pool.move held some
    rw [address_page live below, absent]

/-- A mapped page is freed. -/
theorem unmap (holds : pageAt m d (i * npdentries + j) = f) (some : f ≠ 0) :
    Accounted k dirs rest ((m.free f).store (tableAt m d i) j 0) := by
  have owner : address dirs rest m (.page d (i * npdentries + j)) = f := by
    rw [address_page live below, holds]
  have first : Accounted k dirs rest
      { m.store (tableAt m d i) j 0 with freelist := f :: m.freelist } := by
    apply a.store live inside inside' table
    · simp
    · rw [a.address_store live inside inside' table below, frameOf_zero]
      exact a.pool.give owner some
  have plain : Plain dirs m f := by
    rw [← holds]
    apply a.plain_page live below
    rwa [holds]
  have different : tableAt m d i ≠ f := plain.table d live i inside
  have second := first.write (first.plain_free List.mem_cons_self) fun _ => 1
  have same : (m.free f).store (tableAt m d i) j 0 =
      Memory.write { m.store (tableAt m d i) j 0 with
        freelist := f :: m.freelist } f fun _ => 1 := by
    unfold Memory.store Memory.free Memory.write
    dsimp only
    rw [Function.update_of_ne different, Function.update_comm different]
  rw [same]
  exact second

/-- The flags of a page change. -/
theorem remap {pte : UInt32} (filled : pte ≠ 0 → frameOf pte ≠ 0)
    (same : frameOf pte = pageAt m d (i * npdentries + j)) :
    Accounted k dirs rest (m.store (tableAt m d i) j pte) := by
  have owner : address dirs rest m (.page d (i * npdentries + j)) =
      frameOf pte := by
    rw [address_page live below, same]
  apply a.store live inside inside' table filled
  rw [a.address_store live inside inside' table below, ← owner,
    Function.update_eq_self]
  exact a.pool

end Table

end Accounted

/-! ## A new page table -/

/-- `*pde = V2P(pgtab) | PTE_P | PTE_W | PTE_U`, for the first free page. -/
def Memory.addTable (m : Memory) (d i t : Nat) (free : List Nat) : Memory :=
  ((m.drop free).write t zeroes).store d i (entry t (pteW ||| pteU))

/-- The number of page tables. -/
def tables (m : Memory) (d : Nat) : Nat :=
  ((Finset.range npdentries).filter fun i => tableAt m d i ≠ 0).card

/-- What is left for user pages: the free pages and those that have become
page tables. -/
def reserve (m : Memory) (d : Nat) : Nat := m.freelist.length + tables m d

theorem tables_le (m : Memory) (d : Nat) : tables m d ≤ npdentries := by
  have bound := Finset.card_filter_le (Finset.range npdentries)
    fun i => tableAt m d i ≠ 0
  rwa [Finset.card_range] at bound

namespace Accounted

variable {k : Kernel} {dirs : Finset Nat} {rest : Holder → Nat} {m : Memory}
  {d e i j n f t : Nat} {free : List Nat} {h : Holder}

section NewTable

variable (a : Accounted k dirs rest m) (head : m.freelist = t :: free)

include a head

theorem area_head : k.Area t :=
  a.pool.inside t (by rw [head]; exact List.mem_cons_self)

theorem plain_head : Plain dirs m t :=
  a.plain_free (by rw [head]; exact List.mem_cons_self)

theorem head_ne_zero : t ≠ 0 :=
  a.pool.ne_zero (by rw [head]; exact List.mem_cons_self)

variable (live : d ∈ dirs)

include live

theorem pdeAt_addTable (live' : e ∈ dirs) (l : Nat) :
    pdeAt (m.addTable d i t free) e l =
      if e = d ∧ l = i then entry t (pteW ||| pteU) else pdeAt m e l := by
  have plain := a.plain_head head
  unfold pdeAt Memory.addTable Memory.store Memory.write Memory.drop
  dsimp only
  rw [Function.update_of_ne (plain.dir d live)]
  by_cases same : e = d
  · subst e
    rw [Function.update_self]
    by_cases index : l = i
    · rw [index, word_putWord, if_pos ⟨rfl, rfl⟩]
    · rw [word_putWord_of_ne index, if_neg (fun both => index both.2)]
  · rw [Function.update_of_ne same, Function.update_of_ne (plain.dir e live'),
      if_neg (fun both => same both.1)]

theorem tableAt_addTable (live' : e ∈ dirs) (l : Nat) :
    tableAt (m.addTable d i t free) e l =
      if e = d ∧ l = i then t else tableAt m e l := by
  have small := (a.area_head head).lt
  have flags : pteW ||| pteU < pgsize := by decide
  unfold tableAt
  rw [a.pdeAt_addTable head live live']
  split
  · rw [frameOf_of_present (present_entry small flags),
      frame_entry small flags]
  · rfl

variable (nothing : tableAt m d i = 0)

include nothing

/-- The entries of the new table are zero like those of the missing one. -/
theorem pteAt_addTable (live' : e ∈ dirs) (below : n < allPages) :
    pteAt (m.addTable d i t free) e n = pteAt m e n := by
  have plain := a.plain_head head
  have some := a.head_ne_zero head
  have index := div_lt_npdentries below
  have table := a.tableAt_addTable (i := i) head live live' (n / npdentries)
  unfold pteAt
  by_cases same : e = d ∧ n / npdentries = i
  · rw [if_pos same] at table
    obtain ⟨first, second⟩ := same
    subst e
    rw [table, if_neg some, second, if_pos nothing]
    unfold Memory.addTable Memory.store Memory.write
    dsimp only
    rw [Function.update_of_ne (plain.dir d live).symm, Function.update_self,
      word_zeroes]
  · rw [if_neg same] at table
    rw [table]
    split
    · rfl
    · unfold Memory.addTable Memory.store Memory.write Memory.drop
      dsimp only
      rw [Function.update_of_ne (a.table_ne_dir live live' index),
        Function.update_of_ne (plain.table e live' _ index)]

variable (inside : i < npdentries)

include inside

theorem address_addTable :
    address dirs rest (m.addTable d i t free) =
      Function.update (address dirs rest m) (.table d i) t := by
  funext owner
  by_cases same : owner = .table d i
  · subst owner
    rw [Function.update_self, address_table live inside,
      a.tableAt_addTable head live live, if_pos ⟨rfl, rfl⟩]
  · rw [Function.update_of_ne same]
    cases owner with
    | dir e => rfl
    | held h => rfl
    | table e l =>
        by_cases given : e ∈ dirs ∧ l < npdentries
        · rw [address_table given.1 given.2, address_table given.1 given.2,
            a.tableAt_addTable head live given.1, if_neg]
          intro ⟨first, second⟩
          apply same
          rw [first, second]
        · exact (if_neg given).trans (if_neg given).symm
    | page e l =>
        by_cases given : e ∈ dirs ∧ l < userPages
        · rw [address_page given.1 given.2, address_page given.1 given.2]
          exact congrArg frameOf (a.pteAt_addTable head live nothing
            given.1 (lt_allPages given.2))
        · exact (if_neg given).trans (if_neg given).symm

theorem addTable : Accounted k dirs rest (m.addTable d i t free) where
  pool := by
    have pool := a.pool
    rw [head] at pool
    rw [a.address_addTable head live nothing inside]
    apply pool.take
    rw [address_table live inside, nothing]
  dir := a.dir
  table e live' l inside' := by
    rw [a.pdeAt_addTable head live live', a.tableAt_addTable head live live']
    split
    · intro _
      exact a.head_ne_zero head
    · exact a.table e live' l inside'
  page e live' l below := by
    unfold pageAt
    rw [a.pteAt_addTable head live nothing live' (lt_allPages below)]
    exact a.page e live' l below

theorem reserve_addTable :
    reserve (m.addTable d i t free) d = reserve m d := by
  have some := a.head_ne_zero head
  have grown : (Finset.range npdentries).filter
        (fun l => tableAt (m.addTable d i t free) d l ≠ 0) =
      insert i ((Finset.range npdentries).filter
        fun l => tableAt m d l ≠ 0) := by
    ext l
    rw [Finset.mem_insert, Finset.mem_filter, Finset.mem_filter,
      a.tableAt_addTable head live live]
    by_cases same : l = i
    · subst l
      simp [inside, some]
    · simp [same]
  have length : (m.addTable d i t free).freelist = free := rfl
  unfold reserve tables
  rw [grown, Finset.card_insert_of_notMem (by simp [nothing]), length, head,
    List.length_cons]
  omega

end NewTable

end Accounted

/-! ## The allocator -/

section Rules

variable {k : Kernel} {m : Memory} {f t i : Nat} {fault : Fault → Prop}

theorem wp_setPage {page : Bytes} {post : Unit → Memory → Prop} :
    wp (setPage f page) post fault m ↔ post () (m.write f page) :=
  wp_modify

theorem wp_getEntry {post : UInt32 → Memory → Prop} :
    wp (getEntry t i) post fault m ↔ post (word (m.pages t) i) m := by
  unfold getEntry
  rw [wp_bind, wp_get, wp_pure]

theorem wp_setEntry {pte : UInt32} {post : Unit → Memory → Prop} :
    wp (setEntry t i pte) post fault m ↔ post () (m.store t i pte) := by
  unfold setEntry
  rw [wp_bind, wp_get, wp_setPage]
  rfl

theorem wp_kalloc {post : Option Nat → Memory → Prop}
    (none : m.freelist = [] → post none m)
    (taken : ∀ f free, m.freelist = f :: free →
      post (some f) (m.drop free)) :
    wp kalloc post fault m := by
  unfold kalloc
  rw [wp_bind, wp_get]
  split
  · rename_i empty
    rw [wp_pure]
    exact none empty
  · rename_i f free head
    rw [wp_bind, wp_set, wp_pure]
    exact taken f free head

theorem wp_kfree (area : k.Area f) {post : Unit → Memory → Prop} :
    wp (kfree k f) post fault m ↔ post () (m.free f) := by
  have unsigned : uintAdd (f * pgsize) kernbase = f * pgsize + kernbase := by
    apply uintAdd_of_lt
    have small := area.2
    unfold phystop at small
    unfold kernbase
    omega
  unfold kfree
  rw [if_neg, wp_modify]
  · rfl
  · rw [unsigned]
    have first := area.1
    have second := area.2
    omega

end Rules

end Xv6.Vm
