import Mathlib.Data.Finset.Insert
import Mathlib.Tactic.Common
import Xv6.Fs.Codec
import Xv6.Lib.Ownership
import Xv6.Vm.Exec

/-!
# Address spaces and the owners of pages

`tableAt` and `pteAt` read an address space off a page directory in memory.
Every page of the allocator is free or has one owner: the directories and
tables of the address spaces, the addresses below `KERNBASE` that map a page,
and the holders outside the page tables.  As long as this is so, a write to a
table changes one entry of one address space, and a write to any other page
changes none.
-/

namespace Xv6.Vm

open Lib
open Fs (Bytes word putWord zeroes word_putWord word_putWord_of_ne word_zeroes)

/-! ## Entries -/

theorem or_pteP (perm : Nat) : perm ||| pteP = perm / 2 * 2 + 1 := by
  have half : (perm ||| pteP) / 2 = perm / 2 := by
    rw [Nat.or_div_two]
    exact Nat.or_zero _
  have odd : (perm ||| pteP) % 2 = 1 := Nat.or_mod_two_eq_one.mpr (Or.inr rfl)
  omega

theorem toNat_entry {f perm : Nat} (inside : f < 2 ^ 20)
    (flags : perm < pgsize) :
    (entry f perm).toNat = f * pgsize + (perm / 2 * 2 + 1) := by
  have small : perm / 2 * 2 + 1 < 2 ^ 12 := by
    unfold pgsize at flags
    omega
  have whole : f * pgsize ||| perm ||| pteP =
      f * pgsize + (perm / 2 * 2 + 1) := by
    rw [Nat.or_assoc, or_pteP, Nat.mul_comm f]
    exact (Nat.two_pow_add_eq_or_of_lt small f).symm
  unfold entry
  rw [whole]
  apply UInt32.toNat_ofNat_of_lt'
  unfold pgsize UInt32.size at *
  omega

section Entry

variable {f perm : Nat} (inside : f < 2 ^ 20) (flags : perm < pgsize)

include inside flags

theorem present_entry : present (entry f perm) = true := by
  unfold present
  rw [toNat_entry inside flags, decide_eq_true_iff]
  unfold pgsize
  omega

theorem frame_entry : frame (entry f perm) = f := by
  unfold frame
  rw [toNat_entry inside flags]
  unfold pgsize at *
  omega

theorem pteFlags_entry : pteFlags (entry f perm) = perm / 2 * 2 + 1 := by
  unfold pteFlags
  rw [toNat_entry inside flags]
  unfold pgsize at *
  omega

theorem user_entry : user (entry f perm) = decide (perm / 4 % 2 = 1) := by
  unfold user
  rw [toNat_entry inside flags, decide_eq_decide]
  unfold pgsize at *
  omega

end Entry

theorem toNat_withoutUser (pte : UInt32) :
    (withoutUser pte).toNat =
      if user pte then pte.toNat - pteU else pte.toNat := by
  unfold withoutUser
  split
  · rename_i yes
    apply UInt32.toNat_sub_of_le
    rw [UInt32.le_iff_toNat_le]
    unfold user at yes
    rw [decide_eq_true_iff] at yes
    change 4 ≤ pte.toNat
    omega
  · rfl

theorem present_withoutUser (pte : UInt32) :
    present (withoutUser pte) = present pte := by
  unfold present
  rw [toNat_withoutUser, decide_eq_decide]
  unfold user pteU
  split
  · rename_i yes
    rw [decide_eq_true_iff] at yes
    omega
  · rfl

theorem frame_withoutUser (pte : UInt32) :
    frame (withoutUser pte) = frame pte := by
  unfold frame
  rw [toNat_withoutUser]
  unfold user pteU pgsize
  split
  · rename_i yes
    rw [decide_eq_true_iff] at yes
    omega
  · rfl

theorem user_withoutUser (pte : UInt32) : user (withoutUser pte) = false := by
  unfold user
  rw [toNat_withoutUser, decide_eq_false_iff_not]
  unfold user pteU
  split
  · rename_i yes
    rw [decide_eq_true_iff] at yes
    omega
  · rename_i no
    rwa [decide_eq_true_iff] at no

/-! ## Address spaces -/

/-- The pages below `KERNBASE`. -/
def userPages : Nat := kernbase / pgsize

/-- The pages of an address space. -/
def allPages : Nat := npdentries * npdentries

/-- An entry of a page directory. -/
def pdeAt (m : Memory) (d i : Nat) : UInt32 := word (m.pages d) i

/-- The frame of an entry that is present, or zero. -/
def frameOf (entry : UInt32) : Nat := if present entry then frame entry else 0

/-- The frame of a page table, or zero. -/
def tableAt (m : Memory) (d i : Nat) : Nat := frameOf (pdeAt m d i)

/-- The entry of a page, or zero. -/
def pteAt (m : Memory) (d n : Nat) : UInt32 :=
  if tableAt m d (n / npdentries) = 0 then 0
  else word (m.pages (tableAt m d (n / npdentries))) (n % npdentries)

/-- The frame of a page, or zero. -/
def pageAt (m : Memory) (d n : Nat) : Nat := frameOf (pteAt m d n)

def Memory.write (m : Memory) (f : Nat) (page : Bytes) : Memory :=
  { m with pages := Function.update m.pages f page }

/-- Store an entry of a table. -/
def Memory.store (m : Memory) (t j : Nat) (pte : UInt32) : Memory :=
  m.write t (putWord (m.pages t) j pte)

/-- The memory behind `kfree`. -/
def Memory.free (m : Memory) (f : Nat) : Memory :=
  { pages := Function.update m.pages f fun _ => 1
    freelist := f :: m.freelist }

/-- The first free page leaves the list. -/
def Memory.drop (m : Memory) (rest : List Nat) : Memory :=
  { m with freelist := rest }

/-- Who holds pages besides the page tables: the code that has just allocated
one, kernel stacks, pipes, and what was allocated before the first process. -/
inductive Holder where
  | hand
  | kstack (p : Nat)
  | pipe (q : Nat)
  | fixed (f : Nat)
  deriving DecidableEq

inductive Owner where
  | dir (d : Nat)
  | table (d i : Nat)
  | page (d n : Nat)
  | held (h : Holder)
  deriving DecidableEq

/-- The page of an owner, or zero, if `dirs` are the page directories. -/
def address (dirs : Finset Nat) (rest : Holder → Nat) (m : Memory) :
    Owner → Nat
  | .dir d => if d ∈ dirs then d else 0
  | .table d i => if d ∈ dirs ∧ i < npdentries then tableAt m d i else 0
  | .page d n => if d ∈ dirs ∧ n < userPages then pageAt m d n else 0
  | .held h => rest h

/-- The pages of the allocator. -/
def Kernel.Area (k : Kernel) (f : Nat) : Prop :=
  k.stop ≤ f * pgsize + kernbase ∧ f * pgsize < phystop

/-- The account of the pages. -/
structure Accounted (k : Kernel) (dirs : Finset Nat) (rest : Holder → Nat)
    (m : Memory) : Prop where
  pool : Pool k.Area m.freelist (address dirs rest m)
  dir : ∀ d ∈ dirs, d ≠ 0
  table : ∀ d ∈ dirs, ∀ i, i < npdentries →
    pdeAt m d i ≠ 0 → tableAt m d i ≠ 0
  page : ∀ d ∈ dirs, ∀ n, n < userPages →
    pteAt m d n ≠ 0 → pageAt m d n ≠ 0

theorem Kernel.Area.lt {k : Kernel} {f : Nat} (area : k.Area f) :
    f < 2 ^ 20 := by
  have small := area.2
  unfold phystop pgsize at small
  omega

theorem area_ne_zero {k : Kernel} {f : Nat} (area : k.Area f) : f ≠ 0 := by
  intro zero
  have first := area.1
  have text := k.text
  have ordered := k.ordered
  unfold kernlink extmem at text
  subst f
  omega

section Reading

variable {dirs : Finset Nat} {rest : Holder → Nat} {m : Memory} {d i n : Nat}

@[simp]
theorem address_held (h : Holder) : address dirs rest m (.held h) = rest h :=
  rfl

theorem address_dir (live : d ∈ dirs) : address dirs rest m (.dir d) = d :=
  if_pos live

theorem address_table (live : d ∈ dirs) (inside : i < npdentries) :
    address dirs rest m (.table d i) = tableAt m d i :=
  if_pos ⟨live, inside⟩

theorem address_page (live : d ∈ dirs) (inside : n < userPages) :
    address dirs rest m (.page d n) = pageAt m d n :=
  if_pos ⟨live, inside⟩

theorem div_lt_npdentries (inside : n < allPages) :
    n / npdentries < npdentries := by
  unfold allPages npdentries at *
  omega

theorem userPages_le : userPages ≤ allPages := by decide

theorem lt_allPages (inside : n < userPages) : n < allPages :=
  lt_of_lt_of_le inside userPages_le

theorem ne_zero_of_present {entry : UInt32} (here : present entry) :
    entry ≠ 0 := by
  intro zero
  rw [zero] at here
  cases here

theorem frameOf_of_present {entry : UInt32} (here : present entry) :
    frameOf entry = frame entry :=
  if_pos here

@[simp]
theorem frameOf_zero : frameOf 0 = 0 := rfl

theorem present_of_frameOf {entry : UInt32} (some : frameOf entry ≠ 0) :
    present entry := by
  by_contra absent
  exact some (if_neg absent)

variable {m' : Memory}

theorem pdeAt_congr (same : m'.pages d = m.pages d) (i : Nat) :
    pdeAt m' d i = pdeAt m d i :=
  congrArg (fun page => word page i) same

theorem pteAt_congr
    (same : pdeAt m' d (n / npdentries) = pdeAt m d (n / npdentries))
    (page : m'.pages (tableAt m d (n / npdentries)) =
      m.pages (tableAt m d (n / npdentries))) :
    pteAt m' d n = pteAt m d n := by
  unfold pteAt
  have table : tableAt m' d (n / npdentries) = tableAt m d (n / npdentries) :=
    congrArg frameOf same
  rw [table, page]

/-- The owners depend on the address spaces. -/
theorem address_congr
    (pde : ∀ d ∈ dirs, ∀ i, i < npdentries → pdeAt m' d i = pdeAt m d i)
    (pte : ∀ d ∈ dirs, ∀ n, n < userPages → pteAt m' d n = pteAt m d n) :
    address dirs rest m' = address dirs rest m := by
  funext owner
  cases owner with
  | dir d => rfl
  | held h => rfl
  | table d i =>
      by_cases given : d ∈ dirs ∧ i < npdentries
      · rw [address_table given.1 given.2, address_table given.1 given.2]
        exact congrArg frameOf (pde d given.1 i given.2)
      · exact (if_neg given).trans (if_neg given).symm
  | page d n =>
      by_cases given : d ∈ dirs ∧ n < userPages
      · rw [address_page given.1 given.2, address_page given.1 given.2]
        exact congrArg frameOf (pte d given.1 n given.2)
      · exact (if_neg given).trans (if_neg given).symm

end Reading

/-! ## Owners are apart -/

/-- A page that is neither a directory nor a table. -/
structure Plain (dirs : Finset Nat) (m : Memory) (f : Nat) : Prop where
  dir : ∀ d ∈ dirs, d ≠ f
  table : ∀ d ∈ dirs, ∀ i, i < npdentries → tableAt m d i ≠ f

namespace Accounted

variable {k : Kernel} {dirs : Finset Nat} {rest : Holder → Nat} {m : Memory}
  {d e i j n f : Nat}

section

variable (a : Accounted k dirs rest m)

include a

theorem area {owner : Owner} (owned : address dirs rest m owner ≠ 0) :
    k.Area (address dirs rest m owner) :=
  a.pool.owns.inside owner owned

/-- A page with an owner that is no directory and no table. -/
theorem plain_of_owner {owner : Owner}
    (owned : address dirs rest m owner ≠ 0)
    (noDir : ∀ d, owner ≠ .dir d) (noTable : ∀ d i, owner ≠ .table d i) :
    Plain dirs m (address dirs rest m owner) := by
  constructor
  · intro d live same
    have owners := a.pool.owns.single owner (.dir d) owned
      (by rw [address_dir live, same])
    exact noDir d owners
  · intro d live i inside same
    have owners := a.pool.owns.single owner (.table d i) owned
      (by rw [address_table live inside, same])
    exact noTable d i owners

theorem plain_page (live : d ∈ dirs) (inside : n < userPages)
    (some : pageAt m d n ≠ 0) : Plain dirs m (pageAt m d n) := by
  have owner : address dirs rest m (.page d n) = pageAt m d n :=
    address_page live inside
  rw [← owner]
  rw [← owner] at some
  exact a.plain_of_owner some (by simp) (by simp)

theorem plain_held {h : Holder} (some : rest h ≠ 0) :
    Plain dirs m (rest h) := by
  have owned : address dirs rest m (.held h) ≠ 0 := some
  exact a.plain_of_owner owned (by simp) (by simp)

theorem plain_free (free : f ∈ m.freelist) : Plain dirs m f := by
  constructor
  · intro d live
    have owner := a.pool.ne_of_mem free (.dir d)
    rwa [address_dir live] at owner
  · intro d live i inside
    have owner := a.pool.ne_of_mem free (.table d i)
    rwa [address_table live inside] at owner

theorem table_ne_dir (live : d ∈ dirs) (live' : e ∈ dirs)
    (inside : i < npdentries) : tableAt m e i ≠ d := by
  intro same
  have owners := a.pool.owns.single (.dir d) (.table e i)
    (by rw [address_dir live]; exact a.dir d live)
    (by rw [address_dir live, address_table live' inside, same])
  cases owners

theorem table_inj (live : d ∈ dirs) (live' : e ∈ dirs)
    (inside : i < npdentries) (inside' : j < npdentries)
    (some : tableAt m d i ≠ 0) (same : tableAt m e j = tableAt m d i) :
    e = d ∧ j = i := by
  have owners := a.pool.owns.single (.table d i) (.table e j)
    (by rwa [address_table live inside])
    (by rw [address_table live inside, address_table live' inside', same])
  injection owners with first second
  exact ⟨first.symm, second.symm⟩

/-- `walkpgdir` sees the tables of `tableAt`. -/
theorem present_iff (live : d ∈ dirs) (inside : i < npdentries) :
    present (pdeAt m d i) ↔ tableAt m d i ≠ 0 :=
  ⟨fun here => a.table d live i inside (ne_zero_of_present here),
    present_of_frameOf⟩

end

/-! ## Writing to memory -/

/-- Memory with the same address spaces and the same free pages. -/
theorem congr (a : Accounted k dirs rest m) {m' : Memory}
    (free : m'.freelist = m.freelist)
    (pde : ∀ d ∈ dirs, ∀ i, i < npdentries → pdeAt m' d i = pdeAt m d i)
    (pte : ∀ d ∈ dirs, ∀ n, n < userPages → pteAt m' d n = pteAt m d n) :
    Accounted k dirs rest m' where
  pool := by
    rw [free, address_congr pde pte]
    exact a.pool
  dir := a.dir
  table d live i inside := by
    unfold tableAt
    rw [pde d live i inside]
    exact a.table d live i inside
  page d live n inside := by
    unfold pageAt
    rw [pte d live n inside]
    exact a.page d live n inside

section Plain

variable (plain : Plain dirs m f) (page : Bytes)

include plain

theorem pdeAt_write (live : d ∈ dirs) :
    pdeAt (m.write f page) d i = pdeAt m d i :=
  pdeAt_congr (Function.update_of_ne (plain.dir d live) _ _) i

theorem pteAt_write (live : d ∈ dirs) (inside : n < allPages) :
    pteAt (m.write f page) d n = pteAt m d n :=
  pteAt_congr (pdeAt_write plain page live)
    (Function.update_of_ne
      (plain.table d live _ (div_lt_npdentries inside)) _ _)

/-- Writing to a page that is no part of a page table. -/
theorem write (a : Accounted k dirs rest m) :
    Accounted k dirs rest (m.write f page) :=
  a.congr rfl (fun _ live _ _ => pdeAt_write plain page live)
    fun _ live _ inside => pteAt_write plain page live (lt_allPages inside)

end Plain

section Entry

variable (a : Accounted k dirs rest m) (live : d ∈ dirs)
  (inside : i < npdentries)

include a live inside

theorem pdeAt_store (pte : UInt32) (live' : e ∈ dirs) (l : Nat) :
    pdeAt (m.store (tableAt m d i) j pte) e l = pdeAt m e l :=
  pdeAt_congr
    (Function.update_of_ne (a.table_ne_dir live' live inside).symm _ _) l

variable (inside' : j < npdentries) (some : tableAt m d i ≠ 0)

include inside' some

/-- A write to a table changes one entry. -/
theorem pteAt_store (pte : UInt32) (live' : e ∈ dirs) {l : Nat}
    (inside'' : l < allPages) :
    pteAt (m.store (tableAt m d i) j pte) e l =
      if e = d ∧ l = i * npdentries + j then pte else pteAt m e l := by
  have index := div_lt_npdentries inside''
  have table : tableAt (m.store (tableAt m d i) j pte) e (l / npdentries) =
      tableAt m e (l / npdentries) :=
    congrArg frameOf (a.pdeAt_store live inside pte live' _)
  unfold pteAt
  rw [table]
  by_cases zero : tableAt m e (l / npdentries) = 0
  · rw [if_pos zero, if_pos zero, if_neg]
    intro ⟨same, number⟩
    subst e
    have quotient : l / npdentries = i := by
      unfold npdentries at *
      omega
    rw [quotient] at zero
    exact some zero
  · rw [if_neg zero, if_neg zero]
    unfold Memory.store Memory.write
    dsimp only
    by_cases same : tableAt m e (l / npdentries) = tableAt m d i
    · obtain ⟨first, second⟩ := a.table_inj live live' inside index some same
      subst e
      rw [same, Function.update_self]
      by_cases entry : l % npdentries = j
      · rw [entry, word_putWord, if_pos]
        refine ⟨rfl, ?_⟩
        rw [← second, ← entry, Nat.div_add_mod']
      · rw [word_putWord_of_ne entry, if_neg]
        intro ⟨_, number⟩
        apply entry
        unfold npdentries at *
        omega
    · rw [Function.update_of_ne same, if_neg]
      intro ⟨first, number⟩
      apply same
      subst e
      congr 1
      unfold npdentries at *
      omega

/-- An entry at or above `KERNBASE` has no part in the account. -/
theorem store_kernel (above : userPages ≤ i * npdentries + j)
    (pte : UInt32) :
    Accounted k dirs rest (m.store (tableAt m d i) j pte) := by
  have free : (m.store (tableAt m d i) j pte).freelist = m.freelist := rfl
  apply a.congr free
  · intro e live' l _
    exact a.pdeAt_store live inside pte live' l
  · intro e live' l below
    rw [a.pteAt_store live inside inside' some pte live' (lt_allPages below),
      if_neg]
    intro ⟨_, number⟩
    omega

theorem address_store (below : i * npdentries + j < userPages)
    (pte : UInt32) :
    address dirs rest (m.store (tableAt m d i) j pte) =
      Function.update (address dirs rest m) (.page d (i * npdentries + j))
        (frameOf pte) := by
  funext owner
  by_cases same : owner = .page d (i * npdentries + j)
  · subst owner
    rw [Function.update_self, address_page live below]
    unfold pageAt
    rw [a.pteAt_store live inside inside' some pte live (lt_allPages below),
      if_pos ⟨rfl, rfl⟩]
  · rw [Function.update_of_ne same]
    cases owner with
    | dir e => rfl
    | held h => rfl
    | table e l =>
        by_cases given : e ∈ dirs ∧ l < npdentries
        · rw [address_table given.1 given.2, address_table given.1 given.2]
          exact congrArg frameOf (a.pdeAt_store live inside pte given.1 l)
        · exact (if_neg given).trans (if_neg given).symm
    | page e l =>
        by_cases given : e ∈ dirs ∧ l < userPages
        · rw [address_page given.1 given.2, address_page given.1 given.2]
          unfold pageAt
          rw [a.pteAt_store live inside inside' some pte given.1
            (lt_allPages given.2), if_neg]
          intro ⟨first, second⟩
          apply same
          rw [first, second]
        · exact (if_neg given).trans (if_neg given).symm

/-- The account behind a store, if the new owners are accounted for. -/
theorem store {rest' : Holder → Nat} {free : List Nat} {pte : UInt32}
    (filled : pte ≠ 0 → frameOf pte ≠ 0)
    (pool : Pool k.Area free
      (address dirs rest' (m.store (tableAt m d i) j pte))) :
    Accounted k dirs rest'
      { m.store (tableAt m d i) j pte with freelist := free } where
  pool := pool
  dir := a.dir
  table e live' l inside'' := by
    have same := a.pdeAt_store (j := j) live inside pte live' l
    change pdeAt (m.store (tableAt m d i) j pte) e l ≠ 0 →
      frameOf (pdeAt (m.store (tableAt m d i) j pte) e l) ≠ 0
    rw [same]
    exact a.table e live' l inside''
  page e live' l below := by
    have same := a.pteAt_store live inside inside' some pte live'
      (lt_allPages below)
    change pteAt (m.store (tableAt m d i) j pte) e l ≠ 0 →
      frameOf (pteAt (m.store (tableAt m d i) j pte) e l) ≠ 0
    rw [same]
    split
    · exact filled
    · exact a.page e live' l below

end Entry

end Accounted

end Xv6.Vm
