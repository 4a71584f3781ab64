import Xv6.Vm.Frames

/-!
# Changes to one address space

`Change` says that an operation changes some pages of one address space and
nothing else: the tables and pages of all other address spaces, and what they
contain, stay as they are.  The functions that map and unmap pages are
specified by their changes.
-/

namespace Xv6.Vm

open Lib
open Fs (Bytes word putWord zeroes)

/-- The owners that an operation on some pages of a directory leaves alone. -/
def Beside (d : Nat) (changed : Nat → Prop) : Owner → Prop
  | .dir e => e ≠ d
  | .table e _ => e ≠ d
  | .page e n => e = d → ¬ changed n
  | .held h => h ≠ .hand

structure Change (dirs : Finset Nat) (rest : Holder → Nat) (d : Nat)
    (changed : Nat → Prop) (m m' : Memory) : Prop where
  keeps : ∀ owner, Beside d changed owner → address dirs rest m owner ≠ 0 →
    address dirs rest m' owner = address dirs rest m owner ∧
      m'.pages (address dirs rest m owner) =
        m.pages (address dirs rest m owner)
  pte : ∀ n, n < allPages → ¬ changed n → pteAt m' d n = pteAt m d n
  pde : ∀ i, (∀ n, changed n → n / npdentries ≠ i) →
    pdeAt m' d i = pdeAt m d i

/-- An address space that has not changed. -/
structure Same (m m' : Memory) (e : Nat) : Prop where
  pde : ∀ i, i < npdentries → pdeAt m' e i = pdeAt m e i
  pte : ∀ n, n < allPages → pteAt m' e n = pteAt m e n
  content : ∀ n, n < userPages → pageAt m e n ≠ 0 →
    m'.pages (pageAt m e n) = m.pages (pageAt m e n)

namespace Same

variable {m m' m'' : Memory} {e : Nat}

protected theorem refl (m : Memory) (e : Nat) : Same m m e :=
  ⟨fun _ _ => rfl, fun _ _ => rfl, fun _ _ _ => rfl⟩

theorem of_pages (directory : m'.pages e = m.pages e)
    (tables : ∀ i, i < npdentries → tableAt m e i ≠ 0 →
      m'.pages (tableAt m e i) = m.pages (tableAt m e i))
    (content : ∀ n, n < userPages → pageAt m e n ≠ 0 →
      m'.pages (pageAt m e n) = m.pages (pageAt m e n)) : Same m m' e where
  pde i _ := pdeAt_congr directory i
  pte n inside := by
    have table : tableAt m' e (n / npdentries) =
        tableAt m e (n / npdentries) :=
      congrArg frameOf (pdeAt_congr directory _)
    unfold pteAt
    rw [table]
    split
    · rfl
    · rename_i some
      rw [tables _ (div_lt_npdentries inside) some]
  content := content

protected theorem trans (first : Same m m' e) (second : Same m' m'' e) :
    Same m m'' e where
  pde i inside := (second.pde i inside).trans (first.pde i inside)
  pte n inside := (second.pte n inside).trans (first.pte n inside)
  content n inside some := by
    have page : pageAt m' e n = pageAt m e n :=
      congrArg frameOf (first.pte n (lt_allPages inside))
    have later := second.content n inside
    rw [page] at later
    exact (later some).trans (first.content n inside some)

end Same

namespace Change

variable {k : Kernel} {dirs : Finset Nat} {rest : Holder → Nat}
  {d e n : Nat} {changed changed' : Nat → Prop} {m m' m'' : Memory}

protected theorem refl (m : Memory) : Change dirs rest d changed m m :=
  ⟨fun _ _ _ => ⟨rfl, rfl⟩, fun _ _ _ => rfl, fun _ _ => rfl⟩

protected theorem trans (first : Change dirs rest d changed m m')
    (second : Change dirs rest d changed m' m'') :
    Change dirs rest d changed m m'' where
  keeps owner beside owned := by
    obtain ⟨same, content⟩ := first.keeps owner beside owned
    have later := second.keeps owner beside
    rw [same] at later
    obtain ⟨same', content'⟩ := later owned
    exact ⟨same', content'.trans content⟩
  pte n inside other :=
    (second.pte n inside other).trans (first.pte n inside other)
  pde i other := (second.pde i other).trans (first.pde i other)

theorem mono (change : Change dirs rest d changed m m')
    (more : ∀ n, changed n → changed' n) :
    Change dirs rest d changed' m m' where
  keeps owner beside owned := by
    apply change.keeps owner _ owned
    cases owner with
    | page e n => exact fun same old => beside same (more n old)
    | dir e => exact beside
    | table e i => exact beside
    | held h => exact beside
  pte n inside other := change.pte n inside fun old => other (more n old)
  pde i other := change.pde i fun n old => other n (more n old)

/-- What the running code holds makes no difference. -/
theorem of_hand {f : Nat}
    (change : Change dirs (Function.update rest .hand f) d changed m m') :
    Change dirs rest d changed m m' where
  keeps owner beside := by
    have other : owner ≠ .held .hand := by
      intro same
      subst owner
      exact beside rfl
    have kept := change.keeps owner beside
    rwa [address_update_rest, address_update_rest,
      Function.update_of_ne other, Function.update_of_ne other] at kept
  pte := change.pte
  pde := change.pde

/-- The other address spaces do not change. -/
theorem same (change : Change dirs rest d changed m m') (live : e ∈ dirs)
    (a : Accounted k dirs rest m) (other : e ≠ d) : Same m m' e := by
  apply Same.of_pages
  · have kept := change.keeps (.dir e) other
    rw [address_dir live] at kept
    exact (kept (a.dir e live)).2
  · intro i inside some
    have kept := change.keeps (.table e i) other
    rw [address_table live inside] at kept
    exact (kept some).2
  · intro n inside some
    have kept := change.keeps (.page e n) fun equal => (other equal).elim
    rw [address_page live inside] at kept
    exact (kept some).2

/-- What a page contains that has not changed. -/
theorem content (change : Change dirs rest d changed m m')
    (live : d ∈ dirs) (inside : n < userPages) (other : ¬ changed n)
    (some : pageAt m d n ≠ 0) :
    m'.pages (pageAt m d n) = m.pages (pageAt m d n) := by
  have kept := change.keeps (.page d n) fun _ => other
  rw [address_page live inside] at kept
  exact (kept some).2

end Change

/-! ## `walkpgdir` -/

section Walk

variable {k : Kernel} {dirs : Finset Nat} {rest : Holder → Nat} {m : Memory}
  {d n : Nat}

theorem pdx_page (inside : n < allPages) :
    pdx (n * pgsize) = n / npdentries := by
  unfold pdx pgsize allPages npdentries at *
  omega

theorem ptx_page : ptx (n * pgsize) = n % npdentries := by
  unfold ptx pgsize
  rw [Nat.mul_div_cancel n (by decide)]

/-- A walk that allocates no table, where each present entry has one. -/
theorem wp_walkpgdir {fault : Fault → Prop}
    {post : Option (Nat × Nat) → Memory → Prop}
    (sound : present (pdeAt m d (n / npdentries)) →
      tableAt m d (n / npdentries) ≠ 0)
    (inside : n < allPages)
    (missing : tableAt m d (n / npdentries) = 0 → post none m)
    (found : tableAt m d (n / npdentries) ≠ 0 →
      post (some (tableAt m d (n / npdentries), n % npdentries)) m) :
    wp (walkpgdir d (n * pgsize) false) post fault m := by
  unfold walkpgdir
  rw [wp_bind, wp_getEntry, pdx_page inside, ptx_page]
  change wp (if present (pdeAt m d (n / npdentries)) then _ else _) post
    fault m
  by_cases here : present (pdeAt m d (n / npdentries))
  · have table : tableAt m d (n / npdentries) =
        frame (word (m.pages d) (n / npdentries)) := frameOf_of_present here
    rw [if_pos here, wp_pure, ← table]
    exact found (sound here)
  · rw [if_neg here, if_neg (by simp), wp_pure]
    exact missing (if_neg here)

variable (a : Accounted k dirs rest m) (live : d ∈ dirs)
  (inside : n < allPages)

include a live inside

/-- A new page table changes the directory only. -/
theorem change_addTable {t : Nat} {free : List Nat}
    (head : m.freelist = t :: free)
    (nothing : tableAt m d (n / npdentries) = 0) :
    Change dirs rest d (· = n) m
      (m.addTable d (n / npdentries) t free) where
  keeps owner beside owned := by
    rw [a.address_addTable head live nothing (div_lt_npdentries inside)]
    constructor
    · apply Function.update_of_ne
      intro same
      subst owner
      exact beside rfl
    · have fresh := a.pool.ne_of_mem
        (by rw [head]; exact List.mem_cons_self) owner
      have other : address dirs rest m owner ≠ d := by
        intro same
        have owners := a.pool.owns.single owner (.dir d) owned
          (by rw [address_dir live, same])
        subst owner
        exact beside rfl
      unfold Memory.addTable Memory.store Memory.write Memory.drop
      dsimp only
      rw [Function.update_of_ne other, Function.update_of_ne fresh]
  pte l below _ := a.pteAt_addTable head live nothing live below
  pde i other := by
    rw [a.pdeAt_addTable head live live, if_neg]
    intro ⟨_, same⟩
    exact other n rfl same.symm

theorem walkpgdir_spec :
    wp (walkpgdir d (n * pgsize) true)
      (fun found m' => reserve m' d = reserve m d ∧
        match found with
        | none => m' = m ∧ m.freelist = []
        | some place =>
            place = (tableAt m' d (n / npdentries), n % npdentries) ∧
              tableAt m' d (n / npdentries) ≠ 0 ∧
              Accounted k dirs rest m' ∧
              Change dirs rest d (· = n) m m' ∧
              pteAt m' d n = pteAt m d n ∧
              ∀ h, rest h ≠ 0 → m'.pages (rest h) = m.pages (rest h))
      (fun _ => False) m := by
  have index := div_lt_npdentries inside
  unfold walkpgdir
  rw [wp_bind, wp_getEntry, pdx_page inside, ptx_page]
  change wp (if present (pdeAt m d (n / npdentries)) then _ else _) _ _ m
  by_cases here : tableAt m d (n / npdentries) = 0
  · have absent : ¬ present (pdeAt m d (n / npdentries)) := by
      rw [a.present_iff live index]
      exact not_not.mpr here
    rw [if_neg absent, if_pos rfl, wp_bind]
    apply wp_kalloc
    · intro empty
      rw [wp_pure]
      exact ⟨rfl, rfl, empty⟩
    · intro t free head
      dsimp only
      rw [wp_bind, wp_setPage, wp_bind, wp_setEntry, wp_pure]
      change reserve (m.addTable d (n / npdentries) t free) d = _ ∧ _
      refine ⟨a.reserve_addTable head live here index, ?_⟩
      have table := a.tableAt_addTable (i := n / npdentries) head live live
        (n / npdentries)
      rw [if_pos ⟨rfl, rfl⟩] at table
      refine ⟨?_, ?_, a.addTable head live here index,
        change_addTable a live inside head here,
        a.pteAt_addTable head live here live inside, ?_⟩
      · change (t, n % npdentries) =
          (tableAt (m.addTable d (n / npdentries) t free) d _, _)
        rw [table]
      · change tableAt (m.addTable d (n / npdentries) t free) d _ ≠ 0
        rw [table]
        exact a.head_ne_zero head
      · intro h some
        have plain := a.plain_held some
        have fresh := a.pool.ne_of_mem
          (by rw [head]; exact List.mem_cons_self) (.held h)
        rw [address_held] at fresh
        unfold Memory.store Memory.write Memory.drop
        dsimp only
        rw [Function.update_of_ne (plain.dir d live).symm,
          Function.update_of_ne fresh]
  · have here' := (a.present_iff live index).mpr here
    rw [if_pos here', wp_pure]
    have table : frame (word (m.pages d) (n / npdentries)) =
        tableAt m d (n / npdentries) :=
      (frameOf_of_present here').symm
    rw [table]
    exact ⟨rfl, rfl, here, a, Change.refl m, rfl, fun _ _ => rfl⟩

end Walk

/-! ## `mappages` -/

section Store

variable {k : Kernel} {dirs : Finset Nat} {rest : Holder → Nat} {m : Memory}
  {d n : Nat}

theorem index_page (n : Nat) :
    n / npdentries * npdentries + n % npdentries = n :=
  Nat.div_add_mod' n npdentries

variable (a : Accounted k dirs rest m) (live : d ∈ dirs)
  (inside : n < allPages) (table : tableAt m d (n / npdentries) ≠ 0)

include a live inside table

theorem pteAt_storePage (pte : UInt32) {e l : Nat} (live' : e ∈ dirs)
    (below : l < allPages) :
    pteAt (m.store (tableAt m d (n / npdentries)) (n % npdentries) pte) e l =
      if e = d ∧ l = n then pte else pteAt m e l := by
  have stored := a.pteAt_store live (div_lt_npdentries inside)
    (Nat.mod_lt n (by decide)) table pte live' below
  rwa [index_page] at stored

/-- A store changes one page of the address space. -/
theorem change_store (pte : UInt32) :
    Change dirs rest d (· = n) m
      (m.store (tableAt m d (n / npdentries)) (n % npdentries) pte) where
  keeps owner beside owned := by
    have index := div_lt_npdentries inside
    have other : owner ≠ .table d (n / npdentries) := by
      intro same
      subst owner
      exact beside rfl
    constructor
    · cases owner with
      | dir e => rfl
      | held h => rfl
      | table e l =>
          by_cases given : e ∈ dirs ∧ l < npdentries
          · rw [address_table given.1 given.2, address_table given.1 given.2]
            exact congrArg frameOf (a.pdeAt_store live index pte given.1 l)
          · exact (if_neg given).trans (if_neg given).symm
      | page e l =>
          by_cases given : e ∈ dirs ∧ l < userPages
          · rw [address_page given.1 given.2, address_page given.1 given.2]
            unfold pageAt
            rw [pteAt_storePage a live inside table pte given.1
              (lt_allPages given.2), if_neg]
            intro ⟨first, second⟩
            exact beside first second
          · exact (if_neg given).trans (if_neg given).symm
    · apply Function.update_of_ne
      intro same
      apply other
      apply a.pool.owns.single owner _ owned
      rw [address_table live index, same]
  pte l below other := by
    rw [pteAt_storePage a live inside table pte live below, if_neg]
    exact fun both => other both.2
  pde i _ := a.pdeAt_store live (div_lt_npdentries inside) pte live i

omit table in
theorem reserve_store (pte : UInt32) :
    reserve (m.store (tableAt m d (n / npdentries)) (n % npdentries) pte) d =
      reserve m d := by
  have same : ∀ i, tableAt
      (m.store (tableAt m d (n / npdentries)) (n % npdentries) pte) d i =
        tableAt m d i := fun i =>
    congrArg frameOf
      (a.pdeAt_store live (div_lt_npdentries inside) pte live i)
  unfold reserve tables
  simp only [same]
  rfl

end Store

section Mappages

variable {k : Kernel} {dirs : Finset Nat} {rest : Holder → Nat}
  {d perm : Nat} (live : d ∈ dirs)

theorem mappages_eq {n count f perm : Nat} (some : 0 < count)
    (inside : n + count ≤ allPages) :
    mappages d (n * pgsize) (count * pgsize) f perm =
      mappagesLoop d perm count (n * pgsize % 2 ^ 32) f := by
  have first : pgrounddown (n * pgsize) = n * pgsize % 2 ^ 32 := by
    unfold pgrounddown allPages npdentries pgsize at *
    omega
  have last : pgrounddown (uintSub (uintAdd (n * pgsize) (count * pgsize)) 1) =
      (n + count - 1) * pgsize := by
    unfold pgrounddown uintSub uintAdd allPages npdentries pgsize at *
    norm_num
    omega
  have length : uintSub ((n + count - 1) * pgsize) (n * pgsize % 2 ^ 32) /
      pgsize + 1 = count := by
    unfold uintSub allPages npdentries pgsize at *
    omega
  unfold mappages
  dsimp only
  rw [first, last, length]

include live

/-- Mapping pages at or above `KERNBASE`. -/
theorem mappagesLoop_spec (count : Nat) :
    ∀ {n f : Nat} {m : Memory}, Accounted k dirs rest m → userPages ≤ n →
      n + count ≤ allPages → f + count ≤ 2 ^ 20 →
      (∀ l, n ≤ l → l < n + count → pteAt m d l = 0) →
      wp (mappagesLoop d perm count (n * pgsize % 2 ^ 32) f)
        (fun mapped m' => Accounted k dirs rest m' ∧
          Change dirs rest d (fun l => n ≤ l ∧ l < n + count) m m' ∧
          reserve m' d = reserve m d ∧
          if mapped then ∀ l, n ≤ l → l < n + count →
            pteAt m' d l = entry (f + (l - n)) perm
          else m'.freelist = [])
        (fun _ => False) m := by
  induction count with
  | zero =>
      intro n f m a _ _ _ _
      unfold mappagesLoop
      rw [wp_pure]
      exact ⟨a, Change.refl m, rfl, fun l first last => by omega⟩
  | succ count induction =>
      intro n f m a above inside frames absent
      have inside' : n < allPages := by omega
      have address : n * pgsize % 2 ^ 32 = n * pgsize := by
        unfold allPages npdentries pgsize at *
        omega
      have next : uintAdd (n * pgsize) pgsize = (n + 1) * pgsize % 2 ^ 32 := by
        unfold uintAdd
        rw [Nat.succ_mul]
      unfold mappagesLoop
      rw [address, next]
      apply wp.bind (walkpgdir_spec a live inside')
      intro found m' ⟨same, result⟩
      cases found with
      | none =>
          obtain ⟨equal, empty⟩ := result
          subst m'
          rw [wp_pure]
          exact ⟨a, Change.refl m, rfl, empty⟩
      | some place =>
          obtain ⟨position, table, a', change, pte, _⟩ := result
          subst place
          dsimp only
          have zero : word (m'.pages (tableAt m' d (n / npdentries)))
              (n % npdentries) = 0 := by
            have before := absent n le_rfl (by omega)
            rw [← pte] at before
            unfold pteAt at before
            rwa [if_neg table] at before
          rw [wp_bind, wp_getEntry, zero, if_neg (by decide), wp_bind,
            wp_setEntry]
          have stored := a'.store_kernel live (div_lt_npdentries inside')
            (Nat.mod_lt n (by decide)) table (by rwa [index_page])
            (entry f perm)
          have change' : Change dirs rest d
              (fun l => n ≤ l ∧ l < n + (count + 1)) m _ :=
            (change.trans
              (change_store a' live inside' table (entry f perm))).mono
                fun l equal => by omega
          have entries := fun l (below : l < allPages) =>
            pteAt_storePage a' live inside' table (entry f perm) live below
          apply (induction (n := n + 1) (f := f + 1) stored (by omega)
            (by omega) (by omega) _).imp
          · intro mapped m'' ⟨a'', later, same', result⟩
            refine ⟨a'', change'.trans (later.mono fun l range => by omega),
              ?_, ?_⟩
            · rw [same', reserve_store a' live inside', same]
            · split at result
              · rename_i yes
                rw [if_pos yes]
                intro l first last
                by_cases equal : l = n
                · subst l
                  rw [later.pte n inside' (by omega), entries n inside',
                    if_pos ⟨rfl, rfl⟩, Nat.sub_self, Nat.add_zero]
                · have number : f + 1 + (l - (n + 1)) = f + (l - n) := by
                    omega
                  rw [result l (by omega) (by omega), number]
              · rename_i no
                rw [if_neg no]
                exact result
          · intro l first last
            rw [entries l (by omega), if_neg (by omega),
              change.pte l (by omega) (by omega)]
            exact absent l (by omega) (by omega)

/-- Mapping one page below `KERNBASE` that the caller holds. -/
theorem mappages_spec {m : Memory} {n f : Nat} (flags : perm < pgsize)
    (nothing : rest .hand = 0)
    (a : Accounted k dirs (Function.update rest .hand f) m) (some : f ≠ 0)
    (inside : n < userPages) (absent : pteAt m d n = 0) :
    wp (mappages d (n * pgsize) pgsize f perm)
      (fun mapped m' => reserve m' d = reserve m d ∧
        if mapped then Accounted k dirs rest m' ∧
          Change dirs rest d (· = n) m m' ∧
          pteAt m' d n = entry f perm ∧ m'.pages f = m.pages f
        else m' = m ∧ m.freelist = [])
      (fun _ => False) m := by
  have inside' := lt_allPages inside
  have address' : n * pgsize % 2 ^ 32 = n * pgsize := by
    unfold allPages npdentries pgsize at *
    omega
  have one : mappages d (n * pgsize) (1 * pgsize) f perm =
      mappagesLoop d perm 1 (n * pgsize % 2 ^ 32) f :=
    mappages_eq Nat.one_pos (Nat.succ_le_of_lt inside')
  rw [Nat.one_mul, address'] at one
  rw [one]
  unfold mappagesLoop
  apply wp.bind (walkpgdir_spec a live inside')
  intro found m' ⟨same, result⟩
  cases found with
  | none =>
      obtain ⟨equal, empty⟩ := result
      subst m'
      rw [wp_pure]
      exact ⟨rfl, rfl, empty⟩
  | some place =>
      obtain ⟨position, table, a', change, pte, held⟩ := result
      subst place
      dsimp only
      have zero : word (m'.pages (tableAt m' d (n / npdentries)))
          (n % npdentries) = 0 := by
        rw [← pte] at absent
        unfold pteAt at absent
        rw [if_neg table] at absent
        exact absent
      rw [wp_bind, wp_getEntry, zero, if_neg (by decide), wp_bind, wp_setEntry]
      unfold mappagesLoop
      rw [wp_pure]
      have small : f < 2 ^ 20 := by
        have owned : address dirs (Function.update rest .hand f) m
            (.held .hand) ≠ 0 := by
          rwa [address_held, Function.update_self]
        have area := (a.area owned).lt
        rwa [address_held, Function.update_self] at area
      have index := div_lt_npdentries inside'
      have mapped := a'.map live index (Nat.mod_lt n (by decide)) table
        (by rwa [index_page]) (Function.update_self _ _ _) some
        (by rw [index_page]; unfold pageAt; rw [pte, absent]; rfl) flags
      rw [Function.update_idem, ← nothing, Function.update_eq_self] at mapped
      refine ⟨?_, ?_⟩
      · rw [reserve_store a' live inside', same]
      · rw [if_pos rfl]
        refine ⟨mapped, (change.trans
          (change_store a' live inside' table _)).of_hand, ?_, ?_⟩
        · rw [pteAt_storePage a' live inside' table _ live inside',
            if_pos ⟨rfl, rfl⟩]
        · have plain := a'.plain_held (h := .hand)
            (by rwa [Function.update_self])
          have kept := held .hand (by rwa [Function.update_self])
          rw [Function.update_self] at plain kept
          rw [← kept]
          exact Function.update_of_ne (plain.table d live _ index).symm _ _

end Mappages

end Xv6.Vm
