import Xv6.Vm.Calls

/-!
# The arguments of `sys_exec`

`exec` pushes its strings without looking whether they fit, and leaves it to
`copyout` to find out.  A string that is longer than the new image makes `sp`
wrap.  Most addresses that it can then have belong to the kernel, where
`copyout` fails, but between the end of physical memory and the devices there
are no page tables, and `uva2ka` follows the null pointer that `walkpgdir`
returns.
-/

namespace Xv6.Vm

open Lib
open Fs (Bytes zeroes)

/-- The arguments that `sys_exec` accepts. -/
def accepted (p : Proc) (uargv : Nat) (m : Memory) :
    Option (List (List UInt8)) :=
  match (fetchArguments p maxarg uargv).run m with
  | .ok (argv, _) => argv
  | .error _ => none

/-- `copyout` finds a page table at every address: `sys_exec` returns, with a
new image or with the old one. -/
def FindsTables (k : Kernel) (dirs : Finset Nat) (p : Proc)
    (file : Option (List UInt8)) (uargv : Nat) (m : Memory) : Prop :=
  match (sysExec k p file uargv).run m with
  | .ok (some p', m') => WellMapped m' p'.pgdir p'.sz ∧
      ∀ e ∈ dirs, e ≠ p.pgdir → Same m m' e
  | .ok (none, m') => ∀ e ∈ dirs, Same m m' e
  | .error _ => False

/-- A string that `sys_exec` accepts leads to an address without a page
table. -/
def LeadsAstray (k : Kernel) (p : Proc) (file : Option (List UInt8))
    (uargv : Nat) (m : Memory) : Prop :=
  ∃ argv sz, accepted p uargv m = some argv ∧ newSize k file m = some sz ∧
    Strays sz argv 0

section SysExec

variable {k : Kernel} {dirs : Finset Nat} {rest : Holder → Nat} {m : Memory}
  {p : Proc} {uargv : Nat}

section Run

variable (a : Accounted k dirs rest m) (live : p.pgdir ∈ dirs)
  (mapped : WellMapped m p.pgdir p.sz) (address : uargv < 2 ^ 32)

include a live mapped address

/-- `sys_exec` fetches the arguments and calls `exec`. -/
theorem sysExec_run (file : Option (List UInt8)) :
    (accepted p uargv m = none ∧
      (sysExec k p file uargv).run m = .ok (none, m)) ∨
    ∃ argv, accepted p uargv m = some argv ∧
      (sysExec k p file uargv).run m = (exec k p file argv).run m ∧
      argv.length < maxarg ∧ ∀ arg ∈ argv, arg.length < p.sz ∧ 0 ∉ arg := by
  have total := (fetchArguments_spec a live mapped.small maxarg address).mono
    (fun _ _ => id) fun _ ⟨n, below, absent⟩ =>
      absent (mapped.mapped n below)
  obtain ⟨argv, m', run, same, fetched⟩ := total.returns
  subst m'
  have found : accepted p uargv m = argv := by
    unfold accepted
    rw [run]
  cases argv with
  | none =>
      refine Or.inl ⟨found, ?_⟩
      unfold sysExec
      rw [StateT.run_bind, run]
      rfl
  | some argv =>
      refine Or.inr ⟨argv, found, ?_, fetched argv rfl⟩
      unfold sysExec
      rw [StateT.run_bind, run]
      rfl

variable (nothing : rest .hand = 0)

include nothing

/-- The outcome of `sys_exec`. -/
theorem sysExec_outcome (file : Option (List UInt8)) :
    match (sysExec k p file uargv).run m with
    | .ok (some p', m') => ¬ LeadsAstray k p file uargv m ∧
        ∃ argv, accepted p uargv m = some argv ∧ argv.length < maxarg ∧
          (∀ arg ∈ argv, 0 ∉ arg) ∧ stackNeed argv ≤ pgsize ∧
          Loaded k dirs rest p argv m p' m'
    | .ok (none, m') => ¬ LeadsAstray k p file uargv m ∧
        Accounted k dirs rest m' ∧ ∀ e ∈ dirs, Same m m' e
    | .error reason => reason = .nullDereference ∧
        LeadsAstray k p file uargv m := by
  rcases sysExec_run a live mapped address file with ⟨none, run⟩ |
    ⟨argv, found, run, few, short⟩
  · rw [run]
    refine ⟨?_, a, fun e _ => Same.refl m e⟩
    intro ⟨argv, sz, wrong, _⟩
    rw [none] at wrong
    cases wrong
  · have small := mapped.small
    have spec := exec_spec a live nothing few (fun arg member =>
      lt_trans (short arg member).1 small) file
    have stays : (∀ sz, newSize k file m = some sz → ¬ Strays sz argv 0) →
        ¬ LeadsAstray k p file uargv m := by
      intro stays ⟨argv', sz, found', size, stray⟩
      rw [found] at found'
      cases found'
      exact stays sz size stray
    rw [run]
    cases outcome : (exec k p file argv).run m with
    | error reason =>
        obtain ⟨null, sz, size, stray⟩ := spec.error outcome
        exact ⟨null, argv, sz, found, size, stray⟩
    | ok pair =>
        obtain ⟨result, m'⟩ := pair
        obtain ⟨clean, rest'⟩ := spec.ok outcome
        cases result with
        | none => exact ⟨stays clean, rest'.1, rest'.2.1⟩
        | some p' =>
            exact ⟨stays clean, argv, found, few,
              fun arg member => (short arg member).2, rest'.1⟩

theorem sysExec_astray {file : Option (List UInt8)}
    (astray : LeadsAstray k p file uargv m) :
    (sysExec k p file uargv).run m = .error .nullDereference := by
  have outcome := sysExec_outcome a live mapped address nothing file
  cases run : (sysExec k p file uargv).run m with
  | error reason =>
      rw [run] at outcome
      rw [outcome.1]
  | ok pair =>
      obtain ⟨result, m'⟩ := pair
      rw [run] at outcome
      cases result with
      | none => exact absurd astray outcome.1
      | some p' => exact absurd astray outcome.1

end Run

theorem Loaded.wellMapped {argv : List (List UInt8)} {p' : Proc}
    {m' : Memory} (loaded : Loaded k dirs rest p argv m p' m') :
    WellMapped m' p'.pgdir p'.sz :=
  loaded.accounted.wellMapped (Finset.mem_insert_self _ _) loaded.small
    loaded.mapped loaded.absent fun n low high _ =>
      loaded.kernel.system n low high

/-! ## A process with one argument -/

theorem StringAt.unique {byte : Nat → UInt8} {va : Nat}
    {string string' : List UInt8} (here : StringAt byte va string)
    (here' : StringAt byte va string') (clean : 0 ∉ string)
    (clean' : 0 ∉ string') : string = string' := by
  have half : ∀ {s t : List UInt8}, StringAt byte va s → StringAt byte va t →
      0 ∉ t → ¬ s.length < t.length := by
    intro s t first second clean less
    have zero := second.bytes s.length less
    rw [first.nul, List.getD_eq_getElem t 0 less] at zero
    apply clean
    rw [zero]
    exact List.getElem_mem less
  have length : string.length = string'.length := by
    have first := half here here' clean'
    have second := half here' here clean
    omega
  apply List.ext_getElem length
  intro i less less'
  have first := here.bytes i less
  have second := here'.bytes i less'
  rw [List.getD_eq_getElem string 0 less] at first
  rw [List.getD_eq_getElem string' 0 less'] at second
  rw [← first, ← second]

/-- `sys_exec` accepts an array of one string. -/
theorem accepted_one (a : Accounted k dirs rest m) (live : p.pgdir ∈ dirs)
    (mapped : WellMapped m p.pgdir p.sz) {string : List UInt8}
    (pointer : wordAt (userByte m p.pgdir p.sz) 0 = 8)
    (null : wordAt (userByte m p.pgdir p.sz) 4 = 0)
    (here : StringAt (userByte m p.pgdir p.sz) 8 string)
    (clean : 0 ∉ string) (inside : 8 + string.length < p.sz) :
    accepted p 0 m = some [string] := by
  have small := mapped.small
  have fetched : wp (fetchArguments p maxarg 0)
      (fun argv m' => argv = some [string]) (fun _ => False) m := by
    unfold maxarg fetchArguments
    apply wp.bind ((fetchint_spec a live small (by decide)).mono
      (fun _ _ => id) fun _ stray => mapped.not_gap stray.1 stray.2)
    rintro uarg m' ⟨same, value⟩
    subst m'
    rw [if_pos (by omega), pointer] at value
    split
    · cases value
    · simp at value
    rename_i uarg _
    injection value with value
    subst uarg
    unfold fetchstr
    rw [if_neg (by omega)]
    apply wp.bind ((fetchstrLoop_spec a live small (p.sz - 8)
      (by omega)).mono (fun _ _ => id) fun _ gap =>
        mapped.not_gap (by omega) gap)
    rintro arg m' ⟨same, outcome⟩
    subst m'
    cases arg with
    | none =>
        have zero := outcome string.length (by omega)
        exact absurd here.nul zero
    | some arg =>
        obtain ⟨_, clean', here'⟩ := outcome
        have equal := here'.unique here clean' clean
        subst arg
        dsimp only
        unfold fetchArguments
        rw [wp_bind]
        apply wp.bind ((fetchint_spec a live small (by decide)).mono
          (fun _ _ => id) fun _ stray => mapped.not_gap stray.1 stray.2)
        rintro uarg m' ⟨same, value⟩
        subst m'
        have next : uintAdd 0 4 = 4 := by decide
        rw [next, if_pos (by omega), null] at value
        split
        · cases value
        · rw [wp_pure, wp_pure]
          rfl
        · rename_i uarg nonzero
          injection value with value
          exact absurd value nonzero
  obtain ⟨argv, m', run, equal⟩ := fetched.returns
  unfold accepted
  rw [run]
  exact equal

/-- An array of one pointer and the string that it points to. -/
def argumentBytes (length va : Nat) : UInt8 :=
  if va = 0 then 8 else if 8 ≤ va ∧ va < 8 + length then 7 else 0

theorem exists_argument (k : Kernel) (length : Nat) {sz : Nat}
    (size : sz = length + 9) (fits : pageCount sz ≤ 50000) :
    ∃ d rest m string, Accounted k {d} rest m ∧ rest .hand = 0 ∧
      WellMapped m d sz ∧ accepted ⟨d, sz, 0, 0, 0⟩ 0 m = some [string] ∧
      string.length = length ∧ 5000 ≤ m.freelist.length := by
  subst sz
  obtain ⟨d, rest, m, a, nothing, mapped, content, many⟩ := exists_process k
    (fun n offset => argumentBytes length (n * pgsize + offset)) (length + 9)
    (by omega) fits
  refine ⟨d, rest, m, List.replicate length 7, a, nothing, mapped, ?_,
    List.length_replicate, many⟩
  have byte : ∀ va, va < length + 9 →
      userByte m d (length + 9) va = argumentBytes length va := by
    intro va below
    have page : va / pgsize < pageCount (length + 9) := by
      rw [lt_pageCount]
      exact lt_of_le_of_lt (Nat.div_mul_le_self va pgsize) below
    unfold userByte
    rw [if_pos below, content _ page]
    dsimp only
    rw [Nat.div_add_mod']
  have pointer : wordAt (userByte m d (length + 9)) 0 =
      littleValue (fun i => if i = 0 then 8 else 0) 4 := by
    apply littleValue_congr
    intro offset less
    rw [byte _ (by omega)]
    unfold argumentBytes
    rw [Nat.zero_add, if_neg (by omega : ¬ (8 ≤ offset ∧ offset < 8 + length))]
  have null : wordAt (userByte m d (length + 9)) 4 =
      littleValue (fun _ => 0) 4 := by
    apply littleValue_congr
    intro offset less
    rw [byte _ (by omega)]
    unfold argumentBytes
    rw [if_neg (by omega), if_neg (by omega)]
  apply accepted_one a (p := ⟨d, length + 9, 0, 0, 0⟩)
    (Finset.mem_singleton_self d) mapped
  · rw [pointer]
    decide
  · rw [null]
    decide
  · constructor
    · intro j less
      rw [List.length_replicate] at less
      dsimp only
      rw [byte _ (by omega), List.getD_replicate 7 less]
      unfold argumentBytes
      rw [if_neg (by omega), if_pos (by omega)]
    · dsimp only
      rw [List.length_replicate, byte _ (by omega)]
      unfold argumentBytes
      rw [if_neg (by omega), if_neg (by omega)]
  · intro zero
    have seven := List.eq_of_mem_replicate zero
    cases seven
  · rw [List.length_replicate]
    dsimp only
    omega

/-- A program without segments. -/
def emptyProgram : List UInt8 :=
  [0x7f, 0x45, 0x4c, 0x46] ++ List.replicate 48 0

/-- The image of a program without segments has the two pages of the
stack. -/
theorem newSize_emptyProgram (a : Accounted k dirs rest m)
    (nothing : rest .hand = 0) (many : 5000 ≤ m.freelist.length) :
    newSize k (some emptyProgram) m = some 8192 := by
  obtain ⟨elf, header, none⟩ :
      ∃ elf, readHeader emptyProgram = some elf ∧ elf.phnum = 0 :=
    ⟨_, rfl, rfl⟩
  obtain ⟨dir, m₁, setupRun, result⟩ := (setupkvm_spec a).returns
  cases dir with
  | none =>
      have few := result.2.2
      unfold npdentries at few
      omega
  | some c =>
      have setup : Setup k dirs rest m c m₁ := result
      have reserved := setup.reserve
      have loaded : wp (loadImage k c emptyProgram elf)
          (fun sz _ => sz = some 8192) (fun _ => False) m₁ := by
        unfold loadImage
        rw [none]
        unfold loadSegments
        rw [wp_bind, wp_pure]
        dsimp only
        have start : pgroundup 0 = 0 := by decide
        have stop : uintAdd 0 (2 * pgsize) = 8192 := by decide
        rw [start, stop]
        apply wp.bind ((Image.of_setup setup).allocuvm setup.fresh nothing)
        intro sz m₂ outcome
        rw [wp_pure]
        rcases outcome with ⟨_, _, large | few⟩ | ⟨_, number, _⟩
        · exact absurd large (by decide)
        · have pages : pageCount 8192 - pageCount 0 = 2 := by decide
          rw [pages] at few
          unfold npdentries at few
          omega
        · have equal : sz = 8192 := by omega
          rw [equal, if_neg (by decide)]
      obtain ⟨sz, m₂, loadRun, equal⟩ := loaded.returns
      rw [newSize_of_run header setupRun loadRun, equal]

/-- A string that is longer than the image by a little more than the space of
the devices. -/
theorem strays_long {string : List UInt8} (long : string.length = 33562627) :
    Strays 8192 [string] 0 := by
  unfold Strays
  rw [long, if_neg (by decide)]
  refine ⟨by decide, ?_⟩
  have index : pdx (pushed (8192 - 0) 33562627) = 1015 := by decide
  rw [index]
  unfold KernelTable
  decide

theorem strays_short {string : List UInt8} {top : Nat}
    (short : string.length < pgsize) : ¬ Strays top [string] 0 := by
  unfold Strays
  rw [if_pos (by omega)]
  exact id

/-! ## Where `sys_exec` follows a null pointer -/

/-- `sys_exec` finds a page table at every address unless a string leads to
one without. -/
theorem sysExec_findsTables_iff (a : Accounted k dirs rest m)
    (live : p.pgdir ∈ dirs) (nothing : rest .hand = 0)
    (mapped : WellMapped m p.pgdir p.sz) (address : uargv < 2 ^ 32)
    (file : Option (List UInt8)) :
    FindsTables k dirs p file uargv m ↔ ¬ LeadsAstray k p file uargv m := by
  have outcome := sysExec_outcome a live mapped address nothing file
  unfold FindsTables
  split
  · rename_i p' m' run
    rw [run] at outcome
    obtain ⟨stays, argv, _, _, _, _, loaded⟩ := outcome
    exact iff_of_true ⟨loaded.wellMapped, loaded.others⟩ stays
  · rename_i m' run
    rw [run] at outcome
    exact iff_of_true outcome.2.2 outcome.1
  · rename_i reason run
    rw [run] at outcome
    exact iff_of_false id (not_not.mpr outcome.2)

/-- A string of three bytes is no problem. -/
theorem sysExec_findsTables_three :
    ∃ d rest m string, Accounted smallKernel {d} rest m ∧
      WellMapped m d 12 ∧
      accepted ⟨d, 12, 0, 0, 0⟩ 0 m = some [string] ∧ string.length = 3 ∧
      FindsTables smallKernel {d} ⟨d, 12, 0, 0, 0⟩ (some emptyProgram) 0
        m := by
  obtain ⟨d, rest, m, string, a, nothing, mapped, found, length, _⟩ :=
    exists_argument smallKernel 3 (rfl : 12 = 3 + 9) (by decide)
  refine ⟨d, rest, m, string, a, mapped, found, length, ?_⟩
  apply (sysExec_findsTables_iff a (p := ⟨d, 12, 0, 0, 0⟩)
    (Finset.mem_singleton_self d) nothing mapped (by decide) _).mpr
  intro ⟨argv, sz, found', _, stray⟩
  rw [found] at found'
  cases found'
  exact strays_short (by rw [length]; decide) stray

theorem exists_astray :
    ∃ d rest m string, Accounted smallKernel {d} rest m ∧ rest .hand = 0 ∧
      WellMapped m d 33562636 ∧
      accepted ⟨d, 33562636, 0, 0, 0⟩ 0 m = some [string] ∧
      string.length = 33562627 ∧
      newSize smallKernel (some emptyProgram) m = some 8192 ∧
      LeadsAstray smallKernel ⟨d, 33562636, 0, 0, 0⟩ (some emptyProgram) 0
        m := by
  obtain ⟨d, rest, m, string, a, nothing, mapped, found, length, many⟩ :=
    exists_argument smallKernel 33562627
      (by norm_num : 33562636 = 33562627 + 9)
      (by unfold pageCount pgsize; norm_num)
  have size := newSize_emptyProgram a nothing many
  exact ⟨d, rest, m, string, a, nothing, mapped, found, length, size,
    [string], 8192, found, size, strays_long length⟩

theorem not_findsTables {file : Option (List UInt8)} {reason : Fault}
    (run : (sysExec k p file uargv).run m = .error reason) :
    ¬ FindsTables k dirs p file uargv m := by
  unfold FindsTables
  rw [run]
  exact id

/-- A string of thirty-two megabytes makes `uva2ka` follow a null pointer. -/
theorem sysExec_not_findsTables :
    ∃ d rest m string, Accounted smallKernel {d} rest m ∧
      WellMapped m d 33562636 ∧
      accepted ⟨d, 33562636, 0, 0, 0⟩ 0 m = some [string] ∧
      string.length = 33562627 ∧
      newSize smallKernel (some emptyProgram) m = some 8192 ∧
      (sysExec smallKernel ⟨d, 33562636, 0, 0, 0⟩ (some emptyProgram) 0).run
        m = .error .nullDereference ∧
      ¬ FindsTables smallKernel {d} ⟨d, 33562636, 0, 0, 0⟩
        (some emptyProgram) 0 m := by
  obtain ⟨d, rest, m, string, a, nothing, mapped, found, length, size,
    astray⟩ := exists_astray
  have run := sysExec_astray a (p := ⟨d, 33562636, 0, 0, 0⟩)
    (Finset.mem_singleton_self d) mapped (by decide) nothing astray
  exact ⟨d, rest, m, string, a, mapped, found, length, size, run,
    not_findsTables run⟩

end SysExec

end Xv6.Vm
