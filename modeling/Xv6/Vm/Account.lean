import Xv6.Vm.Machine

/-!
# The account of all pages

`Sound` is what holds between any two calls: the pages of the allocator are
free or have one owner among the processes, the pipes and what was taken at
boot, and an address space ends at the size of its process.
-/

namespace Xv6.Vm

open Lib
open Fs (Bytes word zeroes patch patch_outside)

/-- Nothing is mapped behind the size of a process. -/
structure Tidy (m : Memory) (p : Proc) : Prop where
  small : p.sz < kernbase
  absent : ∀ n, pageCount p.sz ≤ n → n < userPages → pteAt m p.pgdir n = 0
  kernel : KernelHalf m p.pgdir

theorem Tidy.congr {m m' : Memory} {p : Proc} (tidy : Tidy m p)
    (pde : ∀ i, i < npdentries → pdeAt m' p.pgdir i = pdeAt m p.pgdir i)
    (pte : ∀ n, n < allPages → pteAt m' p.pgdir n = pteAt m p.pgdir n) :
    Tidy m' p where
  small := tidy.small
  absent n above inside := by
    rw [pte n (lt_allPages inside)]
    exact tidy.absent n above inside
  kernel := tidy.kernel.congr pde pte

/-! ## The first process, and stores -/

section Code

variable {k : Kernel} {dirs : Finset Nat} {rest : Holder → Nat} {m : Memory}
  {d : Nat}

/-- `inituvm` maps the first page. -/
theorem reserve_write {f : Nat} (plain : Plain dirs m f) (page : Bytes)
    (live : d ∈ dirs) : reserve (m.write f page) d = reserve m d := by
  have same : tables (m.write f page) d = tables m d := by
    unfold tables tableAt
    simp only [Accounted.pdeAt_write plain page live]
  unfold reserve
  rw [same]
  rfl

theorem inituvm_spec (a : Accounted k dirs rest m) (live : d ∈ dirs)
    (nothing : rest .hand = 0) (kernel : KernelHalf m d)
    (empty : ∀ n, n < userPages → pteAt m d n = 0) (init : List UInt8) :
    wp (inituvm d init)
      (fun _ m' => Accounted k dirs rest m' ∧
        (∀ e ∈ dirs, e ≠ d → Same m m' e) ∧ KernelHalf m' d ∧
        present (pteAt m' d 0) = true ∧
        (∀ n, 1 ≤ n → n < userPages → pteAt m' d n = 0) ∧
        m'.pages (pageAt m' d 0) =
          patch zeroes 0 init.length (fun j => init.getD j 0) ∧
        reserve m' d + 1 = reserve m d)
      (fun _ => pgsize ≤ init.length ∨ reserve m d ≤ npdentries + 1) m := by
  have first : 0 < userPages := by decide
  unfold inituvm
  split
  · rename_i long
    rw [wp_throw]
    exact Or.inl long
  · rw [wp_bind]
    apply wp_kalloc
    · intro none
      have tables := tables_le m d
      rw [wp_throw]
      unfold reserve
      rw [none, List.length_nil]
      exact Or.inr (by omega)
    · intro f free head
      dsimp only
      rw [wp_bind, wp_setPage]
      have taken := accounted_take a nothing head zeroes
      have step : Change dirs rest d (fun _ => False) m _ :=
        change_take a live head zeroes
      have left := reserve_take a live head zeroes
      have absent := (step.pte 0 (lt_allPages first) not_false).trans
        (empty 0 first)
      have map := mappages_spec live (by decide : pteW ||| pteU < pgsize)
        nothing taken (a.head_ne_zero head) first absent
      rw [Nat.zero_mul] at map
      apply wp.bind map.safe
      intro mapped m₁ ⟨same, result⟩
      cases mapped with
      | false =>
          rw [if_neg (by decide)] at result ⊢
          obtain ⟨_, none⟩ := result
          have tables := tables_le ((m.drop free).write f zeroes) d
          rw [wp_throw]
          unfold reserve at left ⊢
          rw [none, List.length_nil] at left
          exact Or.inr (by omega)
      | true =>
          rw [if_pos rfl] at result ⊢
          obtain ⟨a₁, change, pte, _⟩ := result
          have area := a.area_head head
          have here : present (pteAt m₁ d 0) = true := by
            rw [pte]
            exact present_entry area.lt (by decide)
          have page : pageAt m₁ d 0 = f := by
            unfold pageAt
            rw [frameOf_of_present here, pte, frame_entry area.lt (by decide)]
          have some : pageAt m₁ d 0 ≠ 0 := by
            rw [page]
            exact a.head_ne_zero head
          have plain := a₁.plain_page live first some
          rw [wp_setPage, ← page]
          have whole := ((step.mono fun _ => False.elim).trans change).trans
            (change_page a₁ live first some
              (patch zeroes 0 init.length fun j => init.getD j 0))
          have kept := Accounted.pteAt_write plain
            (patch zeroes 0 init.length fun j => init.getD j 0) live
            (lt_allPages first)
          refine ⟨a₁.write plain _, ?_, ?_, ?_, ?_, ?_, ?_⟩
          · intro e live' other
            exact whole.same live' a other
          · exact kernel.change whole fun n equal => by omega
          · rw [kept]
            exact here
          · intro n above inside
            rw [whole.pte n (lt_allPages inside) (by omega)]
            exact empty n inside
          · rw [show pageAt _ d 0 = pageAt m₁ d 0 from congrArg frameOf kept]
            exact Function.update_self _ _ _
          · rw [reserve_write plain _ live, same]
            exact left

/-- The first process. -/
theorem userinit_spec (a : Accounted k dirs rest m) (nothing : rest .hand = 0)
    (i : Nat) (unused : rest (.kstack i) = 0) (init : List UInt8) :
    wp (userinit k init)
      (fun p m' => p.kstack ≠ 0 ∧ p.pgdir ∉ dirs ∧ p.sz = pgsize ∧
        Tidy m' p ∧ present (pteAt m' p.pgdir 0) = true ∧
        Accounted k (insert p.pgdir dirs)
          (Function.update rest (.kstack i) p.kstack) m' ∧
        (∀ e ∈ dirs, Same m m' e) ∧
        m'.pages (pageAt m' p.pgdir 0) =
          patch zeroes 0 init.length (fun j => init.getD j 0) ∧
        m.freelist.length ≤ m'.freelist.length + npdentries + 3)
      (fun _ => pgsize ≤ init.length ∨
        m.freelist.length ≤ npdentries + 3) m := by
  unfold userinit
  rw [wp_bind]
  apply wp_kalloc
  · intro none
    rw [wp_throw, none]
    exact Or.inr (by rw [List.length_nil]; omega)
  · intro kstack free head
    have taken := a.take head unused
    have nothing' : Function.update rest (.kstack i) kstack .hand = 0 := by
      rw [Function.update_of_ne (by simp), nothing]
    have length : m.freelist.length = free.length + 1 := by
      rw [head, List.length_cons]
    dsimp only
    apply wp.bind (setupkvm_spec taken).safe
    intro dir m₁ outcome
    cases dir with
    | none =>
        have few : free.length ≤ npdentries + 1 := outcome.2.2
        rw [wp_throw]
        exact Or.inr (by omega)
    | some c =>
        have setup : Setup k dirs (Function.update rest (.kstack i) kstack)
            (m.drop free) c m₁ := outcome
        have reserved : reserve m₁ c + 1 = free.length := setup.reserve
        dsimp only
        apply wp.bind ((inituvm_spec setup.accounted
          (Finset.mem_insert_self c dirs) nothing' setup.kernel setup.empty
          init).mono (fun _ _ => id) _)
        swap
        · intro _ reason
          rcases reason with long | few
          · exact Or.inl long
          · exact Or.inr (by omega)
        intro _ m₂ ⟨a₂, others, kernel, here, absent, content, left⟩
        have small : pgsize < kernbase := by decide
        have one : pageCount pgsize = 1 := by decide
        rw [← one] at absent
        rw [wp_pure]
        have few := tables_le m₂ c
        refine ⟨a.head_ne_zero head, setup.fresh, rfl, ⟨small, absent, kernel⟩,
          here, a₂, ?_, content, by unfold reserve at *; omega⟩
        intro e live
        have same := setup.others e live
        have first : Same m m₁ e := ⟨same.pde, same.pte, same.content⟩
        exact first.trans (others e (Finset.mem_insert_of_mem live)
          (ne_of_fresh setup.fresh live))

/-- A store does not change page tables. -/
theorem storeByte_spec (a : Accounted k dirs rest m) (live : d ∈ dirs)
    (kernel : KernelHalf m d) {va : Nat} (inside : va < 2 ^ 32)
    (byte : UInt8) :
    wp (storeByte d va byte)
      (fun _ m' => Accounted k dirs rest m' ∧
        (∀ e ∈ dirs, ∀ i, i < npdentries → pdeAt m' e i = pdeAt m e i) ∧
        ∀ e ∈ dirs, ∀ n, n < allPages → pteAt m' e n = pteAt m e n)
      (fun _ => False) m := by
  have page : va / pgsize < allPages := by
    unfold allPages npdentries pgsize
    omega
  unfold storeByte
  rw [walkpgdir_rounded, wp_bind]
  apply wp_walkpgdir (a.present_iff live (div_lt_npdentries page)).mp page
  · intro _
    rw [wp_pure]
    exact ⟨a, fun _ _ _ _ => rfl, fun _ _ _ _ => rfl⟩
  · intro table
    have loaded : word (m.pages (tableAt m d (va / pgsize / npdentries)))
        (va / pgsize % npdentries) = pteAt m d (va / pgsize) :=
      (if_neg table).symm
    dsimp only
    rw [wp_bind, wp_getEntry, loaded]
    split
    · rename_i both
      rw [Bool.and_eq_true] at both
      have low : va / pgsize < userPages := by
        by_contra high
        rw [kernel.system _ (by omega) page] at both
        exact absurd both.2 (by decide)
      have frame : frame (pteAt m d (va / pgsize)) =
          pageAt m d (va / pgsize) := (frameOf_of_present both.1).symm
      have some := a.page d live _ low (ne_zero_of_present both.1)
      have plain := a.plain_page live low some
      rw [wp_bind, wp_get, wp_bind, wp_setPage, wp_pure, frame]
      exact ⟨a.write plain _, fun e live' i _ =>
        Accounted.pdeAt_write plain _ live', fun e live' n below =>
          Accounted.pteAt_write plain _ live' below⟩
    · rw [wp_pure]
      exact ⟨a, fun _ _ _ _ => rfl, fun _ _ _ _ => rfl⟩

end Code

/-! ## The invariant -/

structure Sound (k : Kernel) (boot : List Nat) (t : Tables) (m : Memory) :
    Prop where
  accounted : Accounted k t.dirs (t.holders k boot) m
  distinct : ∀ {i j p q}, t.procs i = some p → t.procs j = some q →
    p.pgdir = q.pgdir → i = j
  kstack : ∀ {i p}, t.procs i = some p → p.kstack ≠ 0
  tidy : ∀ {i p}, t.procs i = some p → Tidy m p
  pipe : ∀ {page ends}, t.pipes page = some ends → page ≠ 0

namespace Sound

variable {k : Kernel} {boot : List Nat} {t t' : Tables} {m m' : Memory}
  {i j : Fin nproc} {p q : Proc}

/-- At boot nobody has a page. -/
theorem of_booted (booted : Booted k m) (procs : ∀ i, t.procs i = none)
    (pipes : ∀ q, t.pipes q = none) : Sound k m.freelist t m := by
  have dirs : t.dirs = ∅ := by
    apply Finset.eq_empty_of_forall_notMem
    intro d member
    obtain ⟨i, p, found, _⟩ := Tables.mem_dirs.mp member
    rw [procs i] at found
    cases found
  have holders : t.holders k m.freelist = fixedPages k m.freelist := by
    funext h
    cases h with
    | hand => rfl
    | fixed f => rfl
    | pipe q =>
        unfold Tables.holders
        dsimp only
        rw [pipes q]
        rfl
    | kstack l =>
        unfold Tables.holders
        dsimp only
        split
        · rw [procs _]
          rfl
        · rfl
  refine ⟨?_, ?_, ?_, ?_, ?_⟩
  · rw [dirs, holders]
    exact booted.accounted
  · intro i j p q found
    rw [procs i] at found
    cases found
  · intro i p found
    rw [procs i] at found
    cases found
  · intro i p found
    rw [procs i] at found
    cases found
  · intro page ends found
    rw [pipes page] at found
    cases found

theorem ne_pgdir (sound : Sound k boot t m) (found : t.procs i = some p)
    (found' : t.procs j = some q) (other : j ≠ i) : q.pgdir ≠ p.pgdir :=
  fun same => other (sound.distinct found' found same)

section Dirs

variable {c : Proc}

theorem dirs_insert (empty : t.procs i = none)
    (procs : t'.procs = Function.update t.procs i (some c)) :
    t'.dirs = insert c.pgdir t.dirs := by
  ext d
  rw [Tables.mem_dirs_update procs, Finset.mem_insert, Tables.mem_dirs]
  constructor
  · rintro (⟨q, equal, same⟩ | ⟨j, q, _, found, same⟩)
    · cases equal
      exact Or.inl same.symm
    · exact Or.inr ⟨j, q, found, same⟩
  · rintro (same | ⟨j, q, found, same⟩)
    · exact Or.inl ⟨c, rfl, same.symm⟩
    · refine Or.inr ⟨j, q, ?_, found, same⟩
      intro here
      rw [here, empty] at found
      cases found

variable (sound : Sound k boot t m) (found : t.procs i = some p)

include sound found

/-- The directories of the other processes. -/
theorem mem_erase {d : Nat} :
    d ∈ t.dirs.erase p.pgdir ↔
      ∃ j q, j ≠ i ∧ t.procs j = some q ∧ q.pgdir = d := by
  rw [Finset.mem_erase, Tables.mem_dirs]
  constructor
  · rintro ⟨other, j, q, found', same⟩
    refine ⟨j, q, ?_, found', same⟩
    intro here
    rw [here, found] at found'
    cases found'
    exact other same.symm
  · rintro ⟨j, q, other, found', same⟩
    refine ⟨?_, j, q, found', same⟩
    rw [← same]
    exact sound.ne_pgdir found found' other

theorem dirs_erase (procs : t'.procs = Function.update t.procs i none) :
    t'.dirs = t.dirs.erase p.pgdir := by
  ext d
  rw [Tables.mem_dirs_update procs, sound.mem_erase found]
  simp

theorem dirs_replace
    (procs : t'.procs = Function.update t.procs i (some c)) :
    t'.dirs = insert c.pgdir (t.dirs.erase p.pgdir) := by
  ext d
  rw [Tables.mem_dirs_update procs, Finset.mem_insert, sound.mem_erase found]
  simp [eq_comm]

end Dirs

/-- One slot changes, and the other address spaces stay. -/
theorem update (sound : Sound k boot t m) (p' : Option Proc)
    (procs : t'.procs = Function.update t.procs i p')
    (pipes : t'.pipes = t.pipes)
    (accounted : Accounted k t'.dirs (Function.update (t.holders k boot)
      (.kstack i) (p'.elim 0 Proc.kstack)) m')
    (own : ∀ p, p' = some p → (∀ j q, j ≠ i → t.procs j = some q →
      p.pgdir ≠ q.pgdir) ∧ p.kstack ≠ 0 ∧ Tidy m' p)
    (others : ∀ j q, j ≠ i → t.procs j = some q → Same m m' q.pgdir) :
    Sound k boot t' m' := by
  have cases : ∀ {j q}, t'.procs j = some q →
      (j = i ∧ p' = some q) ∨ (j ≠ i ∧ t.procs j = some q) := by
    intro j q found
    rw [procs] at found
    by_cases here : j = i
    · subst j
      rw [Function.update_self] at found
      exact Or.inl ⟨rfl, found⟩
    · rw [Function.update_of_ne here] at found
      exact Or.inr ⟨here, found⟩
  refine ⟨?_, ?_, ?_, ?_, ?_⟩
  · rw [Tables.holders_update p' procs pipes]
    exact accounted
  · intro j l q r found found' same
    rcases cases found with ⟨here, new⟩ | ⟨other, old⟩
    · rcases cases found' with ⟨here', _⟩ | ⟨other', old'⟩
      · rw [here, here']
      · exact absurd same ((own q new).1 l r other' old')
    · rcases cases found' with ⟨_, new'⟩ | ⟨_, old'⟩
      · exact absurd same.symm ((own r new').1 j q other old)
      · exact sound.distinct old old' same
  · intro j q found
    rcases cases found with ⟨_, new⟩ | ⟨_, old⟩
    · exact (own q new).2.1
    · exact sound.kstack old
  · intro j q found
    rcases cases found with ⟨_, new⟩ | ⟨other, old⟩
    · exact (own q new).2.2
    · have same := others j q other old
      exact (sound.tidy old).congr same.pde same.pte
  · rw [pipes]
    exact sound.pipe

/-- All entries of page tables stay. -/
theorem keep (sound : Sound k boot t m) (procs : t'.procs = t.procs)
    (accounted : Accounted k t.dirs (t'.holders k boot) m')
    (pde : ∀ e ∈ t.dirs, ∀ i, i < npdentries → pdeAt m' e i = pdeAt m e i)
    (pte : ∀ e ∈ t.dirs, ∀ n, n < allPages → pteAt m' e n = pteAt m e n)
    (pipe : ∀ {page ends}, t'.pipes page = some ends → page ≠ 0) :
    Sound k boot t' m' := by
  have dirs : t'.dirs = t.dirs := by
    unfold Tables.dirs
    rw [procs]
  refine ⟨by rwa [dirs], ?_, ?_, ?_, pipe⟩
  · intro i j p q
    rw [procs]
    exact sound.distinct
  · intro i p
    rw [procs]
    exact sound.kstack
  · intro i p
    rw [procs]
    intro found
    have live := Tables.pgdir_mem found
    exact (sound.tidy found).congr (pde _ live) (pte _ live)

/-- A call that fails keeps all address spaces. -/
theorem keep_same (sound : Sound k boot t m)
    (accounted : Accounted k t.dirs (t.holders k boot) m')
    (same : ∀ e ∈ t.dirs, Same m m' e) : Sound k boot t m' :=
  sound.keep rfl accounted (fun e live => (same e live).pde)
    (fun e live => (same e live).pte) sound.pipe

/-! ## The calls -/

theorem userinit (sound : Sound k boot t m) (init : List UInt8)
    (empty : t.procs i = none) :
    wp (Vm.userinit k init)
      (fun p m' => Sound k boot (t.put i (some p)) m') (fun _ => True) m := by
  apply (userinit_spec sound.accounted rfl i (Tables.holders_of_empty empty)
    init).mono _ fun _ _ => trivial
  intro p m' ⟨stack, fresh, _, tidy, _, a, others, _⟩
  apply sound.update (some p) (t.put_procs i _) (t.put_pipes i _)
  · rw [dirs_insert empty (t.put_procs i _)]
    exact a
  · intro p' equal
    cases equal
    refine ⟨?_, stack, tidy⟩
    intro j q _ found same
    rw [same] at fresh
    exact fresh (Tables.pgdir_mem found)
  · intro j q _ found
    exact others _ (Tables.pgdir_mem found)

theorem fork (sound : Sound k boot t m) (found : t.procs i = some p)
    (empty : t.procs j = none) :
    wp (Vm.fork k p)
      (fun child m' => match child with
        | none => Sound k boot t m'
        | some c => Sound k boot (t.put j (some c)) m')
      (fun _ => Lacks m p.pgdir p.sz) m := by
  have tidy := sound.tidy found
  apply (fork_spec sound.accounted (Tables.pgdir_mem found) rfl tidy.small j
    (Tables.holders_of_empty empty)).imp
  intro child m' outcome
  cases child with
  | none => exact sound.keep_same outcome.1 outcome.2
  | some c =>
      obtain ⟨size, stack, child⟩ := outcome
      apply sound.update (some c) (t.put_procs j _) (t.put_pipes j _)
      · rw [dirs_insert empty (t.put_procs j _)]
        exact child.accounted
      · intro c' equal
        cases equal
        refine ⟨?_, stack, ?_, ?_, child.kernel⟩
        · intro l q _ found' same
          have fresh := child.fresh
          rw [same] at fresh
          exact fresh (Tables.pgdir_mem found')
        · rw [size]
          exact tidy.small
        · rw [size]
          exact child.absent
      · intro l q _ found'
        exact child.others _ (Tables.pgdir_mem found')

theorem same_kstack (_ : Sound k boot t m) (found : t.procs i = some p)
    (same : q.kstack = p.kstack) :
    Function.update (t.holders k boot) (.kstack i)
      ((some q).elim 0 Proc.kstack) = t.holders k boot := by
  have holds : t.holders k boot (.kstack i) = p.kstack :=
    Tables.holders_of_procs found
  have stack : (some q).elim 0 Proc.kstack = p.kstack := same
  rw [stack, ← holds, Function.update_eq_self]

/-- The process of a slot gets another address space. -/
theorem loaded (sound : Sound k boot t m) (found : t.procs i = some p)
    {argv : List (List UInt8)}
    (loaded : Loaded k t.dirs (t.holders k boot) p argv m q m') :
    Sound k boot (t.adopt i (some q)).2 m' := by
  apply sound.update (some q) (t.adopt_procs i q) (t.adopt_pipes i q)
  · rw [sound.dirs_replace found (t.adopt_procs i q),
      sound.same_kstack found loaded.kstack]
    exact loaded.accounted
  · intro q' equal
    cases equal
    refine ⟨?_, ?_, loaded.small, loaded.absent, loaded.kernel⟩
    · intro j r _ found' same
      have fresh := loaded.fresh
      rw [same] at fresh
      exact fresh (Tables.pgdir_mem found')
    · rw [loaded.kstack]
      exact sound.kstack found
  · intro j r other found'
    exact loaded.others _ (Tables.pgdir_mem found')
      (sound.ne_pgdir found found' other)

theorem exec (sound : Sound k boot t m) (found : t.procs i = some p)
    (file : Option (List UInt8)) {uargv : Nat} (address : uargv < 2 ^ 32) :
    wp (sysExec k p file uargv)
      (fun result m' => Sound k boot (t.adopt i result).2 m')
      (fun _ => True) m := by
  have tidy := sound.tidy found
  have live := Tables.pgdir_mem found
  unfold sysExec
  apply wp.bind ((fetchArguments_spec sound.accounted live tidy.small maxarg
    address).mono (fun _ _ => id) fun _ _ => trivial)
  intro argv m₁ ⟨same, fetched⟩
  subst m₁
  cases argv with
  | none =>
      rw [wp_pure]
      exact sound
  | some argv =>
      obtain ⟨few, short⟩ := fetched argv rfl
      apply (exec_spec sound.accounted live rfl few (fun arg member =>
        lt_trans (short arg member).1 tidy.small) file).mono
      · intro result m' ⟨_, outcome⟩
        cases result with
        | none => exact sound.keep_same outcome.1 outcome.2.1
        | some q => exact sound.loaded found outcome.1.2
      · exact fun _ _ => trivial

theorem growproc (sound : Sound k boot t m) (found : t.procs i = some p)
    {n : Int} (lower : -2 ^ 31 ≤ n) (upper : n < 2 ^ 31) :
    wp (Vm.growproc k p n)
      (fun result m' => Sound k boot (t.adopt i result).2 m')
      (fun _ => False) m := by
  have tidy := sound.tidy found
  have live := Tables.pgdir_mem found
  apply (growproc_spec sound.accounted live rfl tidy.small tidy.absent lower
    upper).imp
  intro result m' ⟨a, others, half, growth⟩
  have kernel := half tidy.kernel
  have others' : ∀ j q, j ≠ i → t.procs j = some q → Same m m' q.pgdir :=
    fun j q other found' => others _ (Tables.pgdir_mem found')
      (sound.ne_pgdir found found' other)
  have apart : ∀ j q, j ≠ i → t.procs j = some q → p.pgdir ≠ q.pgdir :=
    fun j q other found' => (sound.ne_pgdir found found' other).symm
  have adopted : ∀ {q : Proc}, q.pgdir = p.pgdir → q.kstack = p.kstack →
      Tidy m' q → Sound k boot (t.adopt i (some q)).2 m' := by
    intro q same stack tidy'
    apply sound.update (some q) (t.adopt_procs i q) (t.adopt_pipes i q)
    · rw [sound.dirs_replace found (t.adopt_procs i q),
        sound.same_kstack found stack, same, Finset.insert_erase live]
      exact a
    · intro q' equal
      cases equal
      rw [same, stack]
      exact ⟨apart, sound.kstack found, tidy'⟩
    · exact others'
  have unchanged : Tidy m' p → Sound k boot t m' := by
    intro tidy'
    have procs : t.procs = Function.update t.procs i (some p) := by
      rw [← found, Function.update_eq_self]
    apply sound.update (some p) procs rfl
    · rw [sound.same_kstack found rfl]
      exact a
    · intro q equal
      cases equal
      exact ⟨apart, sound.kstack found, tidy'⟩
    · exact others'
  have last := pageCount_le (le_of_lt tidy.small)
  have above : ∀ {sz}, Resized k t.dirs (t.holders k boot) p.pgdir p.sz sz m
      m' → ∀ l, pageCount p.sz ≤ l → pageCount sz ≤ l → l < userPages →
        pteAt m' p.pgdir l = 0 := by
    intro sz resized l first second inside
    rw [resized.change.pte l (lt_allPages inside) (by unfold Between; omega)]
    exact tidy.absent l first inside
  have kept : Kept m m' p.pgdir → Tidy m' p := by
    intro kept
    refine ⟨tidy.small, ?_, kernel⟩
    intro l first inside
    rw [kept.pte l (lt_allPages inside)]
    exact tidy.absent l first inside
  cases growth with
  | @exact sz m' number proper small resized =>
      refine adopted rfl rfl ⟨small, ?_, kernel⟩
      intro l first inside
      by_cases old : l < pageCount p.sz
      · exact resized.gone l first old
      · exact above resized l (by omega) first inside
  | refused reason same => exact unchanged (kept same)
  | ignored negative nonempty same =>
      have procs : (t.adopt i (some p)).2 = t := by
        unfold Tables.adopt
        dsimp only
        rw [← found, Function.update_eq_self]
      rw [procs]
      exact unchanged (kept same)
  | emptied zero nonempty resized =>
      refine unchanged ⟨tidy.small, ?_, kernel⟩
      intro l first inside
      exact above resized l first (Nat.zero_le l) inside

theorem wait (sound : Sound k boot t m) (found : t.procs i = some p) :
    wp (reap k p) (fun _ m' => Sound k boot (t.put i none) m')
      (fun _ => False) m := by
  apply (reap_spec sound.accounted (Tables.pgdir_mem found)
    (Tables.holders_of_procs found) (sound.kstack found)).imp
  intro _ m' ⟨a, others⟩
  apply sound.update none (t.put_procs i none) (t.put_pipes i none)
  · rw [sound.dirs_erase found (t.put_procs i none)]
    exact a
  · intro p' wrong
    cases wrong
  · intro j q other found'
    exact others _ (Tables.pgdir_mem found')
      (sound.ne_pgdir found found' other)

/-- Only the pipes change. -/
theorem setPipe (sound : Sound k boot t m) {page : Nat} (ends : Option Ends)
    (accounted : Accounted k t.dirs (Function.update (t.holders k boot)
      (.pipe page) (ends.elim 0 fun _ => page)) m')
    (same : ∀ e ∈ t.dirs, Same m m' e) (nonzero : page ≠ 0) :
    Sound k boot (t.setPipe page ends) m' := by
  have procs : (t.setPipe page ends).procs = t.procs := rfl
  rw [← Tables.holders_setPipe ends] at accounted
  apply sound.keep procs accounted (fun e live => (same e live).pde)
    fun e live => (same e live).pte
  intro page' ends' found
  by_cases here : page' = page
  · rwa [here]
  · have old : t.pipes page' = some ends' := by
      rw [← found]
      exact (Function.update_of_ne here _ _).symm
    exact sound.pipe old

theorem pipealloc (sound : Sound k boot t m) (first second : Bool) :
    wp (t.pipealloc first second) (fun result m' => Sound k boot result.2 m')
      (fun _ => False) m := by
  unfold Tables.pipealloc
  split
  · rw [wp_bind]
    apply wp_kalloc
    · intro _
      rw [wp_pure]
      exact sound
    · intro page free head
      rw [wp_pure]
      have unused : t.holders k boot (.pipe page) = 0 := by
        by_contra owned
        have only : t.holders k boot (.pipe page) = page := by
          unfold Tables.holders at owned ⊢
          dsimp only at owned ⊢
          cases found : t.pipes page with
          | none =>
              rw [found] at owned
              exact absurd rfl owned
          | some ends => rfl
        have member : page ∈ m.freelist := by
          rw [head]
          exact List.mem_cons_self
        exact sound.accounted.pool.ne_of_mem member (.held (.pipe page)) only
      apply sound.setPipe (some ⟨true, true⟩)
      · exact sound.accounted.take head unused
      · intro e _
        exact ⟨fun _ _ => rfl, fun _ _ => rfl, fun _ _ _ => rfl⟩
      · exact sound.accounted.head_ne_zero head
  · rw [wp_pure]
    exact sound

theorem pipeclose (sound : Sound k boot t m) {page : Nat} {ends : Ends}
    (found : t.pipes page = some ends) (writable : Bool) :
    wp (t.pipeclose k page ends writable)
      (fun result m' => Sound k boot result.2 m') (fun _ => False) m := by
  have holds : t.holders k boot (.pipe page) = page := by
    unfold Tables.holders
    dsimp only
    rw [found]
    rfl
  have nonzero := sound.pipe found
  unfold Tables.pipeclose
  split
  · rw [wp_pure]
    apply sound.setPipe (some _) _ (fun e _ => Same.refl m e) nonzero
    dsimp only [Option.elim]
    have kept : Function.update (t.holders k boot) (.pipe page) page =
        t.holders k boot := by
      nth_rewrite 2 [← holds]
      exact Function.update_eq_self _ _
    rw [kept]
    exact sound.accounted
  · have owned : address t.dirs (t.holders k boot) m (.held (.pipe page)) ≠
        0 := by
      rw [address_held, holds]
      exact nonzero
    have area := sound.accounted.area owned
    rw [address_held, holds] at area
    rw [wp_bind, wp_kfree area, wp_pure]
    apply sound.setPipe none _ _ nonzero
    · exact sound.accounted.give holds nonzero
    · intro e live
      exact sound.accounted.same_free holds nonzero live

theorem store (sound : Sound k boot t m) (found : t.procs i = some p)
    {va : Nat} (inside : va < 2 ^ 32) (byte : UInt8) :
    wp (storeByte p.pgdir va byte) (fun _ m' => Sound k boot t m')
      (fun _ => False) m := by
  apply (storeByte_spec sound.accounted (Tables.pgdir_mem found)
    (sound.tidy found).kernel inside byte).imp
  intro _ m' ⟨a, pde, pte⟩
  exact sound.keep rfl a pde pte sound.pipe

/-- Every call keeps the account. -/
theorem call (sound : Sound k boot t m) {action : Action}
    {code : Code (Bool × Tables)} (called : t.call k action = some code) :
    wp code (fun result m' => Sound k boot result.2 m') (fun _ => True) m := by
  cases action with
  | userinit init =>
      unfold Tables.call at called
      dsimp only at called
      split at called
      · rename_i empty
        cases called
        apply wp.bind (sound.userinit init (empty 0))
        intro p m' sound'
        rw [wp_pure]
        exact sound'
      · cases called
  | fork i =>
      obtain ⟨p, alive, rfl⟩ := Option.map_eq_some_iff.mp called
      have found := Tables.procs_of_alive alive
      split
      · rw [wp_pure]
        exact sound
      · rename_i j free
        apply wp.bind ((sound.fork found (Tables.procs_unused free)).mono
          (fun _ _ => id) fun _ _ => trivial)
        intro child m' sound'
        rw [wp_pure]
        cases child with
        | none => exact sound'
        | some child => exact sound'
  | exec i file uargv =>
      obtain ⟨p, alive, rfl⟩ := Option.map_eq_some_iff.mp called
      have found := Tables.procs_of_alive alive
      apply wp.bind (sound.exec found file (UInt32.toNat_lt uargv))
      intro result m' sound'
      rw [wp_pure]
      exact sound'
  | growproc i n =>
      unfold Tables.call at called
      dsimp only at called
      split at called
      · rename_i bounds
        obtain ⟨p, alive, rfl⟩ := Option.map_eq_some_iff.mp called
        have found := Tables.procs_of_alive alive
        apply wp.bind (sound.growproc found bounds.1 bounds.2).safe
        intro result m' sound'
        rw [wp_pure]
        exact sound'
      · cases called
  | exit i =>
      obtain ⟨p, alive, rfl⟩ := Option.map_eq_some_iff.mp called
      rw [wp_pure]
      exact sound.keep rfl sound.accounted (fun _ _ _ _ => rfl)
        (fun _ _ _ _ => rfl) sound.pipe
  | wait i =>
      unfold Tables.call at called
      dsimp only at called
      split at called
      · obtain ⟨p, found, rfl⟩ := Option.map_eq_some_iff.mp called
        apply wp.bind (sound.wait found).safe
        intro _ m' sound'
        rw [wp_pure]
        exact sound'
      · cases called
  | pipealloc first second =>
      cases called
      exact (sound.pipealloc first second).safe
  | pipeclose page writable =>
      obtain ⟨ends, found, rfl⟩ := Option.map_eq_some_iff.mp called
      exact (sound.pipeclose found writable).safe
  | store i va byte =>
      obtain ⟨p, alive, rfl⟩ := Option.map_eq_some_iff.mp called
      have found := Tables.procs_of_alive alive
      apply wp.bind (sound.store found (UInt32.toNat_lt va) byte).safe
      intro stored m' sound'
      rw [wp_pure]
      exact sound'

end Sound

/-! ## Runs -/

/-- The start of a run, behind `kinit2`. -/
structure Start (k : Kernel) (s : State) : Prop where
  booted : Booted k s.memory
  procs : ∀ i, s.tables.procs i = none
  pipes : ∀ page, s.tables.pipes page = none

/-- The account holds in every run. -/
theorem sound_of_run {k : Kernel} {start s : State}
    {history : History State (Action × Bool)} (started : Start k start)
    (run : Run (machine k) start history s) :
    Sound k start.memory.freelist s.tables s.memory := by
  apply run.invariant
    (Sound.of_booted started.booted started.procs started.pipes)
  intro before label after ⟨code, called, result⟩ sound
  exact (sound.call called).ok result

/-- All frames from four megabytes on are free. -/
def highStart : State where
  memory := ⟨fun _ => zeroes, highFrames⟩
  tables := ⟨fun _ => none, fun _ => false, fun _ => none⟩

theorem start_highStart (k : Kernel) : Start k highStart :=
  ⟨booted_high k rfl, fun _ => rfl, fun _ => rfl⟩

/-- The run that makes the first process. -/
theorem exists_userinit {k : Kernel} {start : State} (started : Start k start)
    (many : 5000 ≤ start.memory.freelist.length) :
    ∃ s p, Run (machine k) start [(start, (.userinit [], true))] s ∧
      s.tables = start.tables.put 0 (some p) ∧ p.sz = pgsize ∧
      WellMapped s.memory p.pgdir p.sz ∧
      s.memory.pages (pageAt s.memory p.pgdir 0) = zeroes ∧
      start.memory.freelist.length ≤
        s.memory.freelist.length + npdentries + 3 := by
  have sound := sound_of_run started .refl
  have unused : start.tables.holders k start.memory.freelist
      (.kstack (0 : Fin nproc)) = 0 :=
    Tables.holders_of_empty (started.procs 0)
  have enough : ¬ (pgsize ≤ ([] : List UInt8).length ∨
      start.memory.freelist.length ≤ npdentries + 3) := by
    unfold pgsize npdentries
    rw [List.length_nil]
    omega
  have total := (userinit_spec sound.accounted rfl _ unused []).mono
    (fun _ _ => id) fun _ => enough
  obtain ⟨p, m, run, _, _, size, tidy, here, a, _, content, left⟩ :=
    total.returns
  have zero : patch zeroes 0 ([] : List UInt8).length
      (fun j => ([] : List UInt8).getD j 0) = zeroes := by
    funext offset
    exact patch_outside (Or.inr (Nat.zero_le offset))
  rw [zero] at content
  refine ⟨⟨m, start.tables.put 0 (some p)⟩, p, ?_, rfl, size, ?_, content,
    left⟩
  · have called : start.tables.call k (.userinit []) = some (do
        let p ← userinit k []
        pure (true, start.tables.put 0 (some p))) := by
      unfold Tables.call
      exact if_pos started.procs
    apply Run.one
    refine ⟨_, called, ?_⟩
    rw [StateT.run_bind, run]
    rfl
  · apply a.wellMapped (Finset.mem_insert_self _ _) tidy.small _ tidy.absent
      fun n low high _ => tidy.kernel.system n low high
    intro n below
    have one : pageCount p.sz = 1 := by
      rw [size]
      decide
    have zero : n = 0 := by omega
    rw [zero]
    exact here

theorem length_highStart : 5000 ≤ highStart.memory.freelist.length := by
  have free : highStart.memory.freelist = highFrames := rfl
  rw [free, length_highFrames]
  decide

end Xv6.Vm
