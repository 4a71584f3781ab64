import Xv6.Vm.Fetch
import Xv6.Vm.Segments

/-!
# `exec` and `sys_exec`

What `exec` leaves behind when it succeeds and when it fails, and when it
follows a null pointer instead.  `newSize` is the size of the image that the
code builds before it pushes the arguments.
-/

namespace Xv6.Vm

open Lib
open Fs (Bytes word)

/-! ## The arguments of `sys_exec` -/

section Fetch

variable {k : Kernel} {dirs : Finset Nat} {rest : Holder → Nat} {m : Memory}
  {p : Proc} (a : Accounted k dirs rest m) (live : p.pgdir ∈ dirs)
  (small : p.sz < kernbase)

include a live small

/-- An argument of `sys_exec` is a string in the memory of the process. -/
theorem fetchArguments_spec (count : Nat) :
    ∀ {addr : Nat}, addr < 2 ^ 32 →
      wp (fetchArguments p count addr)
        (fun result m' => m' = m ∧ ∀ argv, result = some argv →
          argv.length < count ∧
          ∀ arg ∈ argv, arg.length < p.sz ∧ 0 ∉ arg)
        (fun _ => Lacks m p.pgdir p.sz) m := by
  induction count with
  | zero =>
      intro addr _
      unfold fetchArguments
      rw [wp_pure]
      exact ⟨rfl, fun argv wrong => by cases wrong⟩
  | succ count induction =>
      intro addr fits
      unfold fetchArguments
      apply wp.bind ((fetchint_spec a live small fits).mono (fun _ _ => id)
        fun _ ⟨le, gap⟩ => gap.lacks le)
      intro uarg m' ⟨same, _⟩
      subst m'
      split
      · rw [wp_pure]
        exact ⟨rfl, fun argv wrong => by cases wrong⟩
      · rw [wp_pure]
        refine ⟨rfl, ?_⟩
        intro argv equal
        cases equal
        simp
      · rename_i uarg nonzero _
        unfold fetchstr
        by_cases outside : uarg ≥ p.sz
        · rw [if_pos outside, wp_bind, wp_pure, wp_pure]
          exact ⟨rfl, fun argv wrong => by cases wrong⟩
        · rw [if_neg outside]
          apply wp.bind ((fetchstrLoop_spec a live small (p.sz - uarg)
            (by omega)).mono (fun _ _ => id) fun _ gap =>
              gap.lacks (by omega))
          intro arg m' ⟨same, string⟩
          subst m'
          cases arg with
          | none =>
              rw [wp_pure]
              exact ⟨rfl, fun argv wrong => by cases wrong⟩
          | some arg =>
              obtain ⟨short, clean, _⟩ := string
              dsimp only
              apply wp.bind (induction (Nat.mod_lt _ (by decide)))
              intro result m' ⟨same, rest'⟩
              subst m'
              rw [wp_pure]
              refine ⟨rfl, ?_⟩
              intro argv equal
              cases result with
              | none => cases equal
              | some tail =>
                  cases equal
                  obtain ⟨few, all⟩ := rest' tail rfl
                  refine ⟨by simpa using few, ?_⟩
                  intro arg' member
                  rcases List.mem_cons.mp member with same | member
                  · rw [same]
                    exact ⟨by omega, clean⟩
                  · exact all arg' member

end Fetch

/-! ## The image -/

/-- An image is one of whole pages. -/
theorem Image.rounded {k : Kernel} {dirs : Finset Nat} {rest : Holder → Nat}
    {c sz : Nat} {m m' : Memory} (image : Image k dirs rest c sz m m')
    (fits : pageCount sz * pgsize < kernbase) :
    Image k dirs rest c (pageCount sz * pgsize) m m' := by
  refine ⟨image.accounted, image.others, image.kernel, fits, ?_, ?_⟩
  · rw [pageCount_mul]
    exact image.mapped
  · rw [pageCount_mul]
    exact image.absent

/-- The segments of the file are loaded below the two pages of the stack. -/
theorem Laid.loadImage {k : Kernel} {dirs : Finset Nat} {rest : Holder → Nat}
    {c : Nat} {m m' : Memory} {file : List UInt8} {elf : Elfhdr}
    (fresh : c ∉ dirs) (nothing : rest .hand = 0)
    (laid : Laid k dirs rest c m file [] 0 m')
    (phoff : elf.phoff < 2 ^ 32) :
    wp (Vm.loadImage k c file elf)
      (fun sz m'' => match sz with
        | some sz => ∃ count headers, 2 ≤ count ∧ sz = count * pgsize ∧
            Image k dirs rest c (count * pgsize) m m'' ∧
            headers.length = elf.phnum ∧ HeadersAt file elf.phoff headers ∧
            (∀ ph ∈ headers, ph.type = elfProgLoad → ph.Loadable file) ∧
            Filled (imageByte file headers) c (count * pgsize) m''
        | none => ∃ sz, Image k dirs rest c sz m m'')
      (fun _ => False) m' := by
  unfold Vm.loadImage
  apply wp.bind (laid.loadSegments fresh nothing elf.phnum phoff)
  intro sz m₁ outcome
  cases sz with
  | none =>
      rw [wp_pure]
      exact outcome
  | some sz =>
      obtain ⟨headers, length, table, laid₁⟩ := outcome
      rw [List.nil_append] at laid₁
      have small := laid₁.image.small
      have last := pageCount_le (le_of_lt small)
      have grown : uintAdd (pageCount sz * pgsize) (2 * pgsize) =
          (pageCount sz + 2) * pgsize := by
        rw [Nat.add_mul]
        apply uintAdd_of_lt
        unfold userPages kernbase pgsize at *
        omega
      dsimp only
      rw [pgroundup_eq (le_of_lt small), grown]
      by_cases full : (pageCount sz + 2) * pgsize ≥ kernbase
      · unfold Vm.allocuvm
        rw [if_pos full, wp_bind, wp_pure, if_pos rfl, wp_pure]
        exact ⟨sz, laid₁.image⟩
      · have rounded := laid₁.image.rounded
          (by rw [Nat.add_mul] at full; omega)
        have filled : Filled (imageByte file headers) c
            (pageCount sz * pgsize) m₁ := by
          unfold Filled
          rw [pageCount_mul]
          exact laid₁.filled
        apply wp.bind (rounded.allocuvm fresh nothing)
        intro sz' m₂ outcome
        rw [wp_pure]
        rcases outcome with ⟨zero, image₂, _⟩ |
          ⟨_, number, image₂, _, grows⟩
        · rw [if_pos zero]
          exact ⟨_, image₂⟩
        · have equal : sz' = (pageCount sz + 2) * pgsize := by
            rw [Nat.add_mul] at *
            omega
          have positive : sz' ≠ 0 := by
            rw [equal, Nat.add_mul]
            unfold pgsize
            omega
          rw [pageCount_mul] at grows
          rw [if_neg positive]
          refine ⟨pageCount sz + 2, headers, by omega, equal, ?_, length,
            table, fun ph member load => (laid₁.loaded ph member load).1, ?_⟩
          · rw [← equal]
            exact image₂
          · rw [← equal]
            exact grows _ filled laid₁.zero

/-- The memory of a process, below its guard page, is the image of a file. -/
def ImageOf (file : List UInt8) (p : Proc) (m : Memory) : Prop :=
  ∃ elf headers, readHeader file = some elf ∧
    headers.length = elf.phnum ∧ HeadersAt file elf.phoff headers ∧
    (∀ ph ∈ headers, ph.type = elfProgLoad → ph.Loadable file) ∧
    ∀ va, va + 2 * pgsize < p.sz →
      userByte m p.pgdir p.sz va = imageByte file headers va

theorem phoff_lt {file : List UInt8} {elf : Elfhdr}
    (header : readHeader file = some elf) : elf.phoff < 2 ^ 32 := by
  unfold readHeader at header
  split at header
  · cases header
  · split at header
    · cases header
      exact UInt32.toNat_lt _
    · cases header

/-- The size of the image that `exec` builds before it pushes the arguments,
if it comes so far. -/
def newSize (k : Kernel) (file : Option (List UInt8)) (m : Memory) :
    Option Nat :=
  match file with
  | none => none
  | some file =>
      match readHeader file with
      | none => none
      | some elf =>
          match (setupkvm k).run m with
          | .ok (some pgdir, m') =>
              match (loadImage k pgdir file elf).run m' with
              | .ok (sz, _) => sz
              | .error _ => none
          | _ => none

theorem newSize_of_run {k : Kernel} {file : List UInt8} {elf : Elfhdr}
    {m m₁ m₂ : Memory} {c : Nat} {sz : Option Nat}
    (header : readHeader file = some elf)
    (setup : (setupkvm k).run m = .ok (some c, m₁))
    (loaded : (loadImage k c file elf).run m₁ = .ok (sz, m₂)) :
    newSize k (some file) m = sz := by
  unfold newSize
  dsimp only
  rw [header]
  dsimp only
  rw [setup]
  dsimp only
  rw [loaded]

/-! ## `exec` -/

/-- What a successful `exec` leaves. -/
structure Loaded (k : Kernel) (dirs : Finset Nat) (rest : Holder → Nat)
    (p : Proc) (argv : List (List UInt8)) (m : Memory) (p' : Proc)
    (m' : Memory) : Prop where
  fresh : p'.pgdir ∉ dirs
  accounted : Accounted k (insert p'.pgdir (dirs.erase p.pgdir)) rest m'
  others : ∀ e ∈ dirs, e ≠ p.pgdir → Same m m' e
  kernel : KernelHalf m' p'.pgdir
  small : p'.sz < kernbase
  mapped : ∀ n, n < pageCount p'.sz → present (pteAt m' p'.pgdir n) = true
  absent : ∀ n, pageCount p'.sz ≤ n → n < userPages →
    pteAt m' p'.pgdir n = 0
  kstack : p'.kstack = p.kstack
  passed : Passed (userByte m' p'.pgdir p'.sz) p'.sz p'.esp argv

theorem Same.userByte {m m' : Memory} {e sz : Nat} (same : Same m m' e)
    (small : sz < kernbase)
    (mapped : ∀ n, n < pageCount sz → pageAt m e n ≠ 0) :
    userByte m' e sz = userByte m e sz := by
  funext va
  unfold Vm.userByte
  by_cases below : va < sz
  · have page : va / pgsize < pageCount sz := by
      rw [lt_pageCount]
      exact lt_of_le_of_lt (Nat.div_mul_le_self va pgsize) below
    have last := pageCount_le (le_of_lt small)
    have inside : va / pgsize < userPages := by omega
    have frame : pageAt m' e (va / pgsize) = pageAt m e (va / pgsize) :=
      congrArg frameOf (same.pte _ (lt_allPages inside))
    rw [if_pos below, if_pos below, frame, same.content _ inside
      (mapped _ page)]
  · rw [if_neg below, if_neg below]

section Exec

variable {k : Kernel} {dirs : Finset Nat} {rest : Holder → Nat} {m : Memory}
  {p : Proc} {argv : List (List UInt8)}

/-- The old address space is freed behind the new one. -/
theorem Stacked.loaded {c count esp : Nat} {m' : Memory} (eip : Nat)
    (fresh : c ∉ dirs) (live : p.pgdir ∈ dirs)
    (stacked : Stacked k dirs rest c count m m')
    (passed : Passed (userByte m' c (count * pgsize)) (count * pgsize) esp
      argv) :
    wp (freevm k p.pgdir)
      (fun _ m'' => Loaded k dirs rest p argv m
        { p with pgdir := c, sz := count * pgsize, eip := eip, esp := esp }
        m'' ∧ userByte m'' c (count * pgsize) =
          userByte m' c (count * pgsize))
      (fun _ => False) m' := by
  have live' : c ∈ insert c dirs := Finset.mem_insert_self c dirs
  have other : p.pgdir ≠ c := ne_of_fresh fresh live
  have bound := lt_userPages stacked.small
  apply (freevm_spec stacked.accounted (Finset.mem_insert_of_mem live)).imp
  intro _ m'' ⟨a, others⟩
  have same := others c live' other.symm
  rw [Finset.erase_insert_of_ne other.symm] at a
  have bytes : userByte m'' c (count * pgsize) =
      userByte m' c (count * pgsize) := by
    apply same.userByte stacked.small
    intro n below
    rw [pageCount_mul] at below
    exact stacked.page_ne_zero below
  refine ⟨⟨fresh, a, ?_, stacked.kernel.congr same.pde same.pte, stacked.small,
    ?_, ?_, rfl, ?_⟩, bytes⟩
  · intro e live'' different
    exact (stacked.others e live'').trans
      (others e (Finset.mem_insert_of_mem live'') different)
  · intro n below
    rw [pageCount_mul] at below
    rw [same.pte n (lt_allPages (by omega))]
    exact stacked.mapped n below
  · intro n above inside
    rw [pageCount_mul] at above
    rw [same.pte n (lt_allPages inside)]
    exact stacked.absent n above inside
  · rw [bytes]
    exact passed

/-- The bytes of the image below the stack and its guard page. -/
theorem Filled.userByte {byte : Nat → UInt8} {c count va : Nat}
    {m m' : Memory} (filled : Filled byte c (count * pgsize) m)
    (kept : Keeps c (count - 2) m m')
    (below : va + 2 * pgsize < count * pgsize) :
    userByte m' c (count * pgsize) va = byte va := by
  have page : va / pgsize < count - 2 := by
    unfold pgsize at *
    omega
  obtain ⟨frame, content⟩ := kept _ page
  unfold Vm.userByte
  rw [if_pos (by omega), frame, content,
    filled _ _ (by rw [pageCount_mul]; omega) (Nat.mod_lt va (by decide)),
    Nat.div_add_mod']

variable (a : Accounted k dirs rest m) (live : p.pgdir ∈ dirs)
  (nothing : rest .hand = 0) (few : argv.length < maxarg)
  (short : ∀ arg ∈ argv, arg.length < kernbase)

include a live nothing few short

/-- `exec` replaces the address space or changes nothing, unless an argument
that does not fit leads to an address without a page table. -/
theorem exec_spec (file : Option (List UInt8)) :
    wp (exec k p file argv)
      (fun result m' =>
        (∀ sz, newSize k file m = some sz → ¬ Strays sz argv 0) ∧
        match result with
        | some p' => (stackNeed argv ≤ pgsize ∧
            Loaded k dirs rest p argv m p' m') ∧
            ∃ content, file = some content ∧ ImageOf content p' m'
        | none => Accounted k dirs rest m' ∧ (∀ e ∈ dirs, Same m m' e) ∧
            (stackNeed argv ≤ pgsize → newSize k file m = none))
      (fun reason => reason = .nullDereference ∧
        ∃ sz, newSize k file m = some sz ∧ Strays sz argv 0) m := by
  have nowhere : newSize k file m = none →
      ∀ sz, newSize k file m = some sz → ¬ Strays sz argv 0 := by
    intro none sz wrong
    rw [none] at wrong
    cases wrong
  cases file with
  | none =>
      unfold exec
      rw [wp_pure]
      exact ⟨nowhere rfl, a, fun e _ => Same.refl m e, fun _ => rfl⟩
  | some file =>
      unfold exec
      dsimp only
      cases header : readHeader file with
      | none =>
          have stops : newSize k (some file) m = none := by
            unfold newSize
            dsimp only
            rw [header]
          dsimp only
          rw [wp_pure]
          exact ⟨nowhere stops, a, fun e _ => Same.refl m e, fun _ => stops⟩
      | some elf =>
          dsimp only
          apply wp.bind ((setupkvm_spec a).traced.mono (fun _ _ => id)
            fun _ wrong => wrong.1.elim)
          intro dir m₁ ⟨result, setupRun⟩
          cases dir with
          | none =>
              have stops : newSize k (some file) m = none := by
                unfold newSize
                dsimp only
                rw [header]
                dsimp only
                rw [setupRun]
              dsimp only
              rw [wp_pure]
              exact ⟨nowhere stops, result.1, result.2.1, fun _ => stops⟩
          | some c =>
              have setup : Setup k dirs rest m c m₁ := result
              have fresh := setup.fresh
              have liveChild : c ∈ insert c dirs :=
                Finset.mem_insert_self c dirs
              unfold buildImage
              dsimp only
              rw [wp_bind]
              apply wp.bind (((Laid.of_setup setup).loadImage fresh nothing
                (phoff_lt header)).traced.mono (fun _ _ => id)
                fun _ wrong => wrong.1.elim)
              intro sz m₂ ⟨result, loadRun⟩
              have size := newSize_of_run header setupRun loadRun
              cases sz with
              | none =>
                  obtain ⟨sz, image⟩ := result
                  dsimp only
                  rw [wp_pure]
                  dsimp only
                  apply wp.bind (freevm_spec image.accounted liveChild).safe
                  intro _ m₃ ⟨a₃, others⟩
                  rw [wp_pure]
                  rw [Finset.erase_insert fresh] at a₃
                  refine ⟨nowhere size, a₃, ?_, fun _ => size⟩
                  intro e live'
                  exact (image.others e live').trans (others e
                    (Finset.mem_insert_of_mem live')
                    (ne_of_fresh fresh live'))
              | some sz =>
                  obtain ⟨count, headers, two, equal, image, length, table,
                    loadable, filled⟩ := result
                  subst sz
                  have known : ¬ Strays (count * pgsize) argv 0 →
                      ∀ sz, newSize k (some file) m = some sz →
                        ¬ Strays sz argv 0 := by
                    intro stays sz equal
                    rw [size] at equal
                    cases equal
                    exact stays
                  dsimp only
                  rw [wp_bind]
                  apply (buildStack_spec fresh two image few short).mono
                  · intro esp m₃ ⟨stays, stacked, outcome⟩
                    rw [wp_pure]
                    cases esp with
                    | none =>
                        dsimp only [Option.map_none]
                        apply wp.bind
                          (freevm_spec stacked.accounted liveChild).safe
                        intro _ m₄ ⟨a₄, others⟩
                        rw [wp_pure]
                        rw [Finset.erase_insert fresh] at a₄
                        refine ⟨known stays, a₄, ?_, ?_⟩
                        · intro e live'
                          exact (stacked.others e live').trans (others e
                            (Finset.mem_insert_of_mem live')
                            (ne_of_fresh fresh live'))
                        · intro fits
                          exact absurd outcome (Nat.not_lt.mpr fits)
                    | some esp =>
                        obtain ⟨fits, passed, kept⟩ := outcome
                        dsimp only [Option.map_some]
                        apply wp.bind (stacked.loaded elf.entry fresh live
                          passed).safe
                        intro _ m₄ ⟨loaded, bytes⟩
                        rw [wp_pure]
                        refine ⟨known stays, ⟨fits, loaded⟩, file, rfl, elf,
                          headers, header, length, table, loadable, ?_⟩
                        intro va below
                        dsimp only at below ⊢
                        rw [bytes]
                        exact filled.userByte kept below
                  · intro reason ⟨null, stray⟩
                    exact ⟨null, count * pgsize, size, stray⟩

end Exec

/-! ## `fork` and `wait` -/

section Fork

variable {k : Kernel} {dirs : Finset Nat} {rest : Holder → Nat} {m : Memory}
  {p : Proc} {h : Holder} {f e : Nat}

/-- Freeing a held page does not change the address spaces. -/
theorem Accounted.same_free (a : Accounted k dirs rest m) (holds : rest h = f)
    (some : f ≠ 0) (live : e ∈ dirs) : Same m (m.free f) e := by
  subst f
  have plain := a.plain_held some
  have kept : ∀ {g : Nat}, g ≠ rest h →
      (m.free (rest h)).pages g = m.pages g :=
    fun other => Function.update_of_ne other _ _
  apply Same.of_pages
  · exact kept (plain.dir e live)
  · intro i inside _
    exact kept (plain.table e live i inside)
  · intro n inside owned
    apply kept
    intro same
    have owners := a.pool.owns.single (.held h) (.page e n) some
      (by rw [address_page live inside, same, address_held])
    cases owners

/-- `fork` makes a child with a kernel stack, or changes nothing. -/
theorem fork_spec (a : Accounted k dirs rest m) (live : p.pgdir ∈ dirs)
    (nothing : rest .hand = 0) (small : p.sz < kernbase) (i : Nat)
    (unused : rest (.kstack i) = 0) :
    wp (fork k p)
      (fun result m' => match result with
        | some c => c.sz = p.sz ∧ c.kstack ≠ 0 ∧
            Child k dirs (Function.update rest (.kstack i) c.kstack) p.pgdir
              p.sz m c.pgdir m'
        | none => Accounted k dirs rest m' ∧ ∀ e ∈ dirs, Same m m' e)
      (fun _ => Lacks m p.pgdir p.sz) m := by
  unfold fork
  rw [wp_bind]
  apply wp_kalloc
  · intro _
    rw [wp_pure]
    exact ⟨a, fun e _ => Same.refl m e⟩
  · intro kstack free head
    have some := a.head_ne_zero head
    have taken := a.take head unused
    have nothing' :
        Function.update rest (.kstack i) kstack .hand = 0 := by
      rw [Function.update_of_ne (by simp), nothing]
    have holds : Function.update rest (.kstack i) kstack (.kstack i) =
        kstack := Function.update_self _ _ _
    dsimp only
    apply wp.bind (copyuvm_spec taken live nothing' small)
    intro dir m₁ outcome
    cases dir with
    | some c =>
        have child : Child k dirs (Function.update rest (.kstack i) kstack)
            p.pgdir p.sz (m.drop free) c m₁ := outcome
        rw [wp_pure]
        refine ⟨rfl, some, child.fresh, child.accounted, ?_, child.parent,
          child.copied, child.absent, child.kernel⟩
        intro e live'
        have same := child.others e live'
        exact ⟨same.pde, same.pte, same.content⟩
    | none =>
        obtain ⟨a₁, same, _⟩ := outcome
        have area : k.Area kstack := a.area_head head
        dsimp only
        rw [wp_bind, wp_kfree area, wp_pure]
        have given := a₁.give holds some
        rw [Function.update_idem] at given
        have restored : Function.update rest (.kstack i) 0 = rest := by
          rw [← unused, Function.update_eq_self]
        rw [restored] at given
        refine ⟨given, ?_⟩
        intro e live'
        have first := same e live'
        have first' : Same m m₁ e := ⟨first.pde, first.pte, first.content⟩
        exact first'.trans (a₁.same_free holds some live')

/-- A dead child is gone with all its pages. -/
theorem reap_spec (a : Accounted k dirs rest m) (live : p.pgdir ∈ dirs)
    (holds : rest h = p.kstack) (some : p.kstack ≠ 0) :
    wp (reap k p)
      (fun _ m' => Accounted k (dirs.erase p.pgdir)
          (Function.update rest h 0) m' ∧
        ∀ e ∈ dirs, e ≠ p.pgdir → Same m m' e)
      (fun _ => False) m := by
  have owned : address dirs rest m (.held h) ≠ 0 := by
    rw [address_held, holds]
    exact some
  have area := a.area owned
  rw [address_held, holds] at area
  unfold reap
  rw [wp_bind, wp_kfree area]
  apply (freevm_spec (a.give holds some) live).imp
  intro _ m' ⟨a', others⟩
  refine ⟨a', ?_⟩
  intro e live' other
  exact (a.same_free holds some live').trans (others e live' other)

end Fork

end Xv6.Vm
