import Xv6.Vm.Stack

/-!
# The arguments of a new program

`exec` pushes the argument strings onto the stack page, then an array of
pointers to them and the arguments of `main`.  `stackUse` says how much of the
page the strings take, and `Strays` when a string that does not fit leads
`copyout` to an address without a page table.
-/

namespace Xv6.Vm

open Lib
open Fs (Bytes word putWord zeroes patch patch_inside patch_outside)

/-- The use of the stack page behind a string. -/
def useWith (used length : Nat) : Nat := (used + (length + 1) + 3) / 4 * 4

/-- The use of the stack page behind some strings. -/
def stackUse : List (List UInt8) → Nat → Nat
  | [], used => used
  | arg :: rest, used => stackUse rest (useWith used arg.length)

/-- What strings, pointers and the arguments of `main` take. -/
def stackNeed (argv : List (List UInt8)) : Nat :=
  stackUse argv 0 + (3 + argv.length + 1) * 4

/-- The first string that does not fit makes `sp` wrap to an address without
a page table. -/
def Strays (top : Nat) : List (List UInt8) → Nat → Prop
  | [], _ => False
  | arg :: rest, used =>
      if used + (arg.length + 1) ≤ pgsize then
        Strays top rest (useWith used arg.length)
      else top - used < arg.length + 1 ∧
        ¬ KernelTable (pdx (pushed (top - used) arg.length))

theorem le_stackUse (argv : List (List UInt8)) :
    ∀ used, used ≤ stackUse argv used := by
  induction argv with
  | nil =>
      intro used
      exact le_rfl
  | cons arg rest induction =>
      intro used
      refine le_trans ?_ (induction (useWith used arg.length))
      unfold useWith
      omega

/-- Strings that stand in a page from `upper` down to `lower`. -/
inductive Placed (page : Bytes) (base upper : Nat) :
    List Nat → List (List UInt8) → Nat → Prop where
  | nil : Placed page base upper [] [] upper
  | snoc {pointers : List Nat} {args : List (List UInt8)} {lower pointer : Nat}
      {arg : List UInt8} (before : Placed page base upper pointers args lower)
      (aligned : pointer % 4 = 0) (inside : base ≤ pointer)
      (below : pointer + (arg.length + 1) ≤ lower)
      (content : ∀ j, j < arg.length + 1 →
        page (pointer - base + j) = (arg ++ [0]).getD j 0) :
      Placed page base upper (pointers ++ [pointer]) (args ++ [arg]) pointer

namespace Placed

variable {page page' : Bytes} {base upper lower : Nat} {pointers : List Nat}
  {args : List (List UInt8)}

theorem le (placed : Placed page base upper pointers args lower) :
    lower ≤ upper := by
  induction placed with
  | nil => exact le_rfl
  | snoc before aligned inside below content induction => omega

/-- Writing below the strings. -/
theorem congr (placed : Placed page base upper pointers args lower)
    (same : ∀ offset, lower ≤ base + offset → page' offset = page offset) :
    Placed page' base upper pointers args lower := by
  induction placed with
  | nil => exact nil
  | @snoc pointers args lower pointer arg before aligned inside below content
      induction =>
      apply snoc (induction fun offset above => same offset (by omega)) aligned
        inside below
      intro j short
      rw [same _ (by omega)]
      exact content j short

theorem length_eq (placed : Placed page base upper pointers args lower) :
    pointers.length = args.length := by
  induction placed with
  | nil => rfl
  | snoc before aligned inside below content induction =>
      rw [List.length_append, List.length_append, induction]
      rfl

/-- Where a string stands. -/
theorem get (placed : Placed page base upper pointers args lower) :
    ∀ {i : Nat} {arg : List UInt8}, args[i]? = some arg →
      ∃ pointer, pointers[i]? = some pointer ∧ pointer % 4 = 0 ∧
        base ≤ pointer ∧ lower ≤ pointer ∧
        pointer + (arg.length + 1) ≤ upper ∧
        ∀ j, j < arg.length + 1 →
          page (pointer - base + j) = (arg ++ [0]).getD j 0 := by
  induction placed with
  | nil =>
      intro i arg found
      simp at found
  | @snoc pointers args lower pointer arg before aligned inside below content
      induction =>
      intro i arg' found
      have length := before.length_eq
      have bound := before.le
      by_cases last : i = args.length
      · subst i
        rw [List.getElem?_concat_length] at found
        cases found
        refine ⟨pointer, ?_, aligned, inside, le_rfl, by omega, content⟩
        rw [← length, List.getElem?_concat_length]
      · have less : i < args.length := by
          have short := (List.getElem?_eq_some_iff.mp found).1
          rw [List.length_append, List.length_singleton] at short
          omega
        rw [List.getElem?_append_left less] at found
        obtain ⟨pointer', there, aligned', inside', above, rest⟩ :=
          induction found
        refine ⟨pointer', ?_, aligned', inside', by omega, rest⟩
        rw [List.getElem?_append_left (by omega), there]

/-- The strings do not overlap. -/
theorem apart (placed : Placed page base upper pointers args lower) :
    ∀ {i j : Nat} {arg : List UInt8} {pointer pointer' : Nat}, i < j →
      args[j]? = some arg → pointers[i]? = some pointer →
      pointers[j]? = some pointer' →
      pointer' + (arg.length + 1) ≤ pointer := by
  induction placed with
  | nil =>
      intro i j arg pointer pointer' _ found
      simp at found
  | @snoc pointers args lower last arg before aligned inside below content
      induction =>
      intro i j arg' pointer pointer' less found there there'
      have length := before.length_eq
      have short := (List.getElem?_eq_some_iff.mp found).1
      rw [List.length_append, List.length_singleton] at short
      rw [List.getElem?_append_left (by omega)] at there
      by_cases equal : j = args.length
      · subst j
        rw [List.getElem?_concat_length] at found
        rw [← length, List.getElem?_concat_length] at there'
        cases found
        cases there'
        have known : i < args.length := by omega
        obtain ⟨pointer₁, there₁, _, _, above, _⟩ :=
          before.get (List.getElem?_eq_getElem known)
        rw [there] at there₁
        cases there₁
        omega
      · rw [List.getElem?_append_left (by omega)] at found there'
        exact induction less found there there'

end Placed

/-! ## Pushing the strings -/

section Push

variable {k : Kernel} {dirs : Finset Nat} {rest : Holder → Nat}
  {c count f : Nat} {m : Memory}

/-- A string that fits. -/
theorem pushed_of_fits {count used length : Nat} (two : 2 ≤ count)
    (small : count * pgsize < kernbase)
    (fits : used + (length + 1) ≤ pgsize) (aligned : used % 4 = 0) :
    pushed (count * pgsize - used) length =
      count * pgsize - useWith used length := by
  unfold pushed uintSub useWith
  unfold kernbase pgsize at *
  norm_num
  omega

/-- A string that reaches below the stack page. -/
theorem pushed_of_low {count used length : Nat} (two : 2 ≤ count)
    (small : count * pgsize < kernbase) (inside : used ≤ pgsize)
    (wide : pgsize < used + (length + 1))
    (low : length + 1 ≤ count * pgsize - used) :
    pushed (count * pgsize - used) length < (count - 1) * pgsize ∧
      (count - 2) * pgsize <
        pushed (count * pgsize - used) length + (length + 1) := by
  unfold pushed uintSub
  unfold kernbase pgsize at *
  norm_num
  omega

/-- A string that is longer than the image. -/
theorem pushed_of_wrap {count used length : Nat}
    (short : length < kernbase) (wraps : count * pgsize - used < length + 1) :
    kernbase ≤ pushed (count * pgsize - used) length ∧
      pushed (count * pgsize - used) length < 2 ^ 32 := by
  unfold pushed uintSub
  unfold kernbase pgsize at *
  norm_num
  omega

/-- The strings that `pushArguments` has placed. -/
structure Pushed (k : Kernel) (dirs : Finset Nat) (rest : Holder → Nat)
    (c count f used : Nat) (pointers : List Nat) (args : List (List UInt8))
    (m m' : Memory) : Prop where
  stacked : Stacked k dirs rest c count m m'
  page : pageAt m' c (count - 1) = f
  inside : used ≤ pgsize
  aligned : used % 4 = 0
  placed : Placed (m'.pages f) ((count - 1) * pgsize) (count * pgsize)
    pointers args (count * pgsize - used)

theorem Pushed.base {used : Nat} {pointers : List Nat}
    {args : List (List UInt8)} {m' : Memory}
    (pushed : Pushed k dirs rest c count f used pointers args m m') :
    count * pgsize = (count - 1) * pgsize + pgsize := by
  have two := pushed.stacked.two
  rw [← Nat.succ_mul]
  congr 1
  omega

/-- Writing to the stack page in front of the strings. -/
theorem Pushed.write (fresh : c ∉ dirs) {used : Nat}
    {pointers : List Nat} {args : List (List UInt8)} {m' : Memory}
    (pushed : Pushed k dirs rest c count f used pointers args m m')
    (start length : Nat) (apart : start + length ≤ pgsize - used)
    (source : Nat → UInt8) :
    Pushed k dirs rest c count f used pointers args m
      (m'.write f (patch (m'.pages f) start length source)) := by
  have two := pushed.stacked.two
  have base := pushed.base
  have inside := pushed.inside
  have written := pushed.stacked.write fresh (n := count - 1) (by omega)
    (patch (m'.pages f) start length source)
  have bound := lt_userPages pushed.stacked.small
  have pte := pushed.stacked.pteAt_write (n := count - 1) (by omega)
    (patch (m'.pages f) start length source) (l := count - 1)
    (lt_allPages (by omega))
  rw [pushed.page] at written pte
  refine ⟨written, ?_, inside, pushed.aligned, ?_⟩
  · rw [← pushed.page]
    rw [← pushed.page] at pte
    exact congrArg frameOf pte
  · apply pushed.placed.congr
    intro offset above
    unfold Memory.write
    dsimp only
    rw [Function.update_self]
    apply patch_outside
    omega

/-- A string that fits is copied into the stack page. -/
theorem Pushed.copyout (fresh : c ∉ dirs) {used : Nat}
    {pointers : List Nat} {args : List (List UInt8)} {m' : Memory}
    (pushed : Pushed k dirs rest c count f used pointers args m m')
    {arg : List UInt8} (fits : used + (arg.length + 1) ≤ pgsize) :
    wp (Vm.copyout c (Vm.pushed (count * pgsize - used) arg.length)
        (arg ++ [0]))
      (fun copied m'' => copied = true ∧
        (∃ page, m'' = m'.write f page) ∧
        Vm.pushed (count * pgsize - used) arg.length =
          count * pgsize - useWith used arg.length ∧
        Pushed k dirs rest c count f (useWith used arg.length)
          (pointers ++ [count * pgsize - useWith used arg.length])
          (args ++ [arg]) m m'')
      (fun _ => False) m' := by
  have stacked := pushed.stacked
  have two := stacked.two
  have base := pushed.base
  have inside := pushed.inside
  have aligned := pushed.aligned
  have some : 0 < (arg ++ [0]).length := by simp
  have length : (arg ++ [0]).length = arg.length + 1 := by simp
  have within : useWith used arg.length ≤ pgsize ∧
      used + (arg.length + 1) ≤ useWith used arg.length ∧
      useWith used arg.length % 4 = 0 := by
    unfold useWith
    unfold pgsize at *
    omega
  have place : count * pgsize - useWith used arg.length =
      (count - 1) * pgsize + (pgsize - useWith used arg.length) := by
    omega
  have copied := stacked.copyout_inside
    (pgsize - useWith used arg.length) some (by omega)
  rw [← place, pushed.page] at copied
  have address := pushed_of_fits two stacked.small fits aligned
  rw [address]
  apply copied.imp
  intro yes m'' ⟨success, written⟩
  have pushed' := pushed.write fresh
    (pgsize - useWith used arg.length) (arg ++ [0]).length
    (by omega) fun j => (arg ++ [0]).getD j 0
  rw [← written] at pushed'
  refine ⟨success, ⟨_, written⟩, rfl, pushed'.stacked, pushed'.page,
    within.1, within.2.2, pushed'.placed.snoc ?_ ?_ ?_ ?_⟩
  · unfold pgsize
    omega
  · omega
  · omega
  · intro j less
    rw [written]
    unfold Memory.write
    dsimp only
    rw [Function.update_self]
    have offset : count * pgsize - useWith used arg.length -
        (count - 1) * pgsize + j =
        pgsize - useWith used arg.length + j := by omega
    rw [offset, patch_inside (by omega)]

theorem pushArguments_spec (fresh : c ∉ dirs) (argv : List (List UInt8)) :
    ∀ {used : Nat} {pointers : List Nat} {args : List (List UInt8)}
      {m' : Memory},
      Pushed k dirs rest c count f used pointers args m m' →
      pointers.length + argv.length < maxarg →
      (∀ arg ∈ argv, arg.length < kernbase) →
      wp (pushArguments c argv (count * pgsize - used) pointers)
        (fun result m'' => ¬ Strays (count * pgsize) argv used ∧
          match result with
          | some (sp, pointers') => sp = count * pgsize - stackUse argv used ∧
              Pushed k dirs rest c count f (stackUse argv used) pointers'
                (args ++ argv) m m'' ∧ Keeps c (count - 2) m' m''
          | none => pgsize < stackUse argv used ∧
              Stacked k dirs rest c count m m'')
        (fun reason => reason = .nullDereference ∧
          Strays (count * pgsize) argv used) m' := by
  induction argv with
  | nil =>
      intro used pointers args m' pushed _ _
      unfold pushArguments
      rw [wp_pure, List.append_nil]
      exact ⟨not_false, rfl, pushed, fun _ _ => ⟨rfl, rfl⟩⟩
  | cons arg argv induction =>
      intro used pointers args m' pushed few short
      have stacked := pushed.stacked
      have two := stacked.two
      have small := stacked.small
      have inside := pushed.inside
      have short' : arg.length < kernbase := short arg List.mem_cons_self
      have some : 0 < (arg ++ [0]).length := by simp
      have length : (arg ++ [0]).length = arg.length + 1 := by simp
      rw [List.length_cons] at few
      unfold pushArguments
      rw [if_neg (by omega)]
      dsimp only
      by_cases fits : used + (arg.length + 1) ≤ pgsize
      · have stray : Strays (count * pgsize) (arg :: argv) used =
            Strays (count * pgsize) argv (useWith used arg.length) :=
          if_pos fits
        rw [stray]
        apply wp.bind (pushed.copyout fresh fits).safe
        intro yes m'' ⟨success, ⟨page, written⟩, address, next⟩
        have kept : Keeps c (count - 2) m' m'' := by
          rw [written, ← pushed.page]
          exact stacked.keeps_write page
        rw [if_pos success, address]
        apply (induction next (by simp; omega)
          fun s member => short s (List.mem_cons_of_mem _ member)).imp
        intro result m₃ ⟨stays, outcome⟩
        rw [List.append_assoc] at outcome
        refine ⟨stays, ?_⟩
        cases result with
        | none => exact outcome
        | some result =>
            exact ⟨outcome.1, outcome.2.1, kept.trans outcome.2.2⟩
      · have stray : Strays (count * pgsize) (arg :: argv) used =
            (count * pgsize - used < arg.length + 1 ∧
              ¬ KernelTable (pdx (Vm.pushed (count * pgsize - used)
                arg.length))) := if_neg fits
        have wide : pgsize < stackUse (arg :: argv) used := by
          refine lt_of_lt_of_le ?_
            (le_stackUse argv (useWith used arg.length))
          unfold useWith
          omega
        rw [stray]
        by_cases low : arg.length + 1 ≤ count * pgsize - used
        · obtain ⟨below, reaches⟩ :=
            pushed_of_low two small inside (by omega) low
          rw [← length] at reaches
          have copied := Stacked.copyoutLoop_guard fresh
            (arg ++ [0]).length stacked below reaches le_rfl some
          apply wp.bind copied.safe
          intro no m'' ⟨failure, stacked'⟩
          rw [failure, if_neg (by decide), wp_pure]
          exact ⟨fun wrong => by omega, wide, stacked'⟩
        · have wraps : count * pgsize - used < arg.length + 1 := by omega
          obtain ⟨above, within⟩ := pushed_of_wrap short' wraps
          apply wp.bind ((stacked.copyout_kernel some above within).mono
            (fun _ _ => id) _)
          · intro no m'' ⟨failure, same, kernel⟩
            rw [failure, if_neg (by decide), wp_pure, same]
            exact ⟨fun wrong => wrong.2 kernel, wide, stacked⟩
          · intro reason ⟨null, missing⟩
            exact ⟨null, wraps, missing⟩

end Push

/-! ## The stack as a whole -/

/-- A byte of an address space of some size. -/
def userByte (m : Memory) (c sz va : Nat) : UInt8 :=
  if va < sz then m.pages (pageAt m c (va / pgsize)) (va % pgsize) else 0

/-- A word of memory. -/
def wordAt (byte : Nat → UInt8) (va : Nat) : Nat :=
  littleValue (fun i => byte (va + i)) 4

/-- A string at an address. -/
structure StringAt (byte : Nat → UInt8) (va : Nat) (string : List UInt8) :
    Prop where
  bytes : ∀ j, j < string.length → byte (va + j) = string.getD j 0
  nul : byte (va + string.length) = 0

/-- The pointer to a string, as `main` reads it. -/
def argumentAt (byte : Nat → UInt8) (esp i : Nat) : Nat :=
  wordAt byte (wordAt byte (esp + 8) + 4 * i)

/-- What `main` finds on the stack of an image of some size. -/
structure Passed (byte : Nat → UInt8) (sz esp : Nat)
    (argv : List (List UInt8)) : Prop where
  pc : wordAt byte esp = 0xffffffff
  argc : wordAt byte (esp + 4) = argv.length
  array : wordAt byte (esp + 8) = esp + 12
  null : argumentAt byte esp argv.length = 0
  string : ∀ i arg, argv[i]? = some arg →
    StringAt byte (argumentAt byte esp i) arg
  aligned : esp % 4 = 0 ∧
    ∀ i, i < argv.length → argumentAt byte esp i % 4 = 0
  low : sz - pgsize ≤ esp
  above : ∀ i, i < argv.length →
    esp + (3 + argv.length + 1) * 4 ≤ argumentAt byte esp i
  inside : esp + (3 + argv.length + 1) * 4 ≤ sz ∧
    ∀ i arg, argv[i]? = some arg →
      argumentAt byte esp i + (arg.length + 1) ≤ sz
  apart : ∀ i j arg, i < j → argv[j]? = some arg →
    argumentAt byte esp j + (arg.length + 1) ≤ argumentAt byte esp i

theorem length_wordBytes (words : List Nat) :
    (wordBytes words).length = words.length * 4 := by
  induction words with
  | nil => rfl
  | cons value words induction =>
      have step : wordBytes (value :: words) =
          (List.range 4).map (littleByte value) ++ wordBytes words := rfl
      rw [step, List.length_append, List.length_map, List.length_range,
        induction, List.length_cons]
      omega

theorem getD_wordBytes (words : List Nat) :
    ∀ {w b : Nat}, w < words.length → b < 4 →
      (wordBytes words).getD (w * 4 + b) 0 =
        littleByte (words.getD w 0) b := by
  induction words with
  | nil =>
      intro w b short
      simp at short
  | cons value words induction =>
      intro w b short inside
      have step : wordBytes (value :: words) =
          (List.range 4).map (littleByte value) ++ wordBytes words := rfl
      have length : ((List.range 4).map (littleByte value)).length = 4 := by
        simp
      rw [step]
      cases w with
      | zero =>
          rw [List.getD_append _ _ _ _ (by omega), List.getD_cons_zero,
            Nat.zero_mul, Nat.zero_add, List.getD_eq_getElem?_getD,
            List.getElem?_map, List.getElem?_range inside]
          rfl
      | succ w =>
          rw [List.getD_append_right _ _ _ _ (by omega), length,
            List.getD_cons_succ]
          have index : (w + 1) * 4 + b - 4 = w * 4 + b := by omega
          rw [index]
          exact induction (by simpa using short) inside

theorem ustack_behind (sp i : Nat) (pointers : List Nat) :
    (ustack sp pointers).getD (3 + i) 0 = (pointers ++ [0]).getD i 0 := by
  have shift : 3 + i = i + 1 + 1 + 1 := by omega
  unfold ustack
  rw [shift, List.append_assoc, List.cons_append, List.cons_append,
    List.cons_append, List.nil_append, List.getD_cons_succ,
    List.getD_cons_succ, List.getD_cons_succ]

theorem ustack_pointer {i p : Nat} {pointers : List Nat} (sp : Nat)
    (there : pointers[i]? = some p) :
    (ustack sp pointers).getD (3 + i) 0 = p := by
  have less := (List.getElem?_eq_some_iff.mp there).1
  rw [ustack_behind, List.getD_append _ _ _ _ less,
    List.getD_eq_getElem?_getD, there]
  rfl

theorem ustack_null (sp : Nat) (pointers : List Nat) :
    (ustack sp pointers).getD (3 + pointers.length) 0 = 0 := by
  rw [ustack_behind, List.getD_append_right _ _ _ _ le_rfl, Nat.sub_self]
  rfl

section Whole

variable {k : Kernel} {dirs : Finset Nat} {rest : Holder → Nat}
  {c count f used : Nat} {pointers : List Nat} {argv : List (List UInt8)}
  {m m' : Memory}

/-- A byte of the stack page. -/
theorem Pushed.userByte
    (pushed : Pushed k dirs rest c count f used pointers argv m m')
    {va : Nat} (low : (count - 1) * pgsize ≤ va) (high : va < count * pgsize) :
    userByte m' c (count * pgsize) va =
      m'.pages f (va - (count - 1) * pgsize) := by
  have base := pushed.base
  have quotient : va / pgsize = count - 1 := by
    unfold pgsize at *
    omega
  have remainder : va % pgsize = va - (count - 1) * pgsize := by
    unfold pgsize at *
    omega
  unfold Vm.userByte
  rw [if_pos high, quotient, remainder, pushed.page]

/-- Words that were written to the stack page. -/
theorem Pushed.wordAt
    (pushed : Pushed k dirs rest c count f used pointers argv m m')
    {page : Bytes} {start : Nat} {words : List Nat}
    (written : m'.pages f = patch page start (wordBytes words).length
      fun j => (wordBytes words).getD j 0)
    (fits : start + (wordBytes words).length ≤ pgsize) {w : Nat}
    (index : w < words.length) (small : words.getD w 0 < 2 ^ 32) :
    wordAt (Vm.userByte m' c (count * pgsize))
      ((count - 1) * pgsize + start + w * 4) = words.getD w 0 := by
  have base := pushed.base
  have length := length_wordBytes words
  have bytes : ∀ i, i < 4 →
      Vm.userByte m' c (count * pgsize)
        ((count - 1) * pgsize + start + w * 4 + i) =
          littleByte (words.getD w 0) i := by
    intro i inside
    rw [pushed.userByte (by omega) (by omega), written]
    have offset : (count - 1) * pgsize + start + w * 4 + i -
        (count - 1) * pgsize = start + (w * 4 + i) := by omega
    rw [offset, patch_inside (by omega), getD_wordBytes words index inside]
  unfold Vm.wordAt
  rw [littleValue_congr bytes, littleValue_littleByte]
  exact Nat.mod_eq_of_lt small

/-- The words behind the strings are what `main` expects. -/
theorem Pushed.passed {start : Nat} {page : Bytes}
    (pushed : Pushed k dirs rest c count f used pointers argv m m')
    (few : argv.length < maxarg)
    (place : start + (3 + argv.length + 1) * 4 = pgsize - used)
    (written : m'.pages f = patch page start
      (wordBytes (ustack (count * pgsize - used) pointers)).length
      fun j => (wordBytes (ustack (count * pgsize - used) pointers)).getD
        j 0) :
    Passed (Vm.userByte m' c (count * pgsize)) (count * pgsize)
      ((count - 1) * pgsize + start) argv := by
  have base := pushed.base
  have two := pushed.stacked.two
  have small := pushed.stacked.small
  have inside := pushed.inside
  have aligned := pushed.aligned
  have length := pushed.placed.length_eq
  have total : (ustack (count * pgsize - used) pointers).length =
      argv.length + 4 := by
    unfold ustack
    simp only [List.length_append, List.length_cons, List.length_nil]
    omega
  have bytes := length_wordBytes (ustack (count * pgsize - used) pointers)
  have word : ∀ {w value : Nat}, w < argv.length + 4 → value < 2 ^ 32 →
      (ustack (count * pgsize - used) pointers).getD w 0 = value →
      Vm.wordAt (Vm.userByte m' c (count * pgsize))
        ((count - 1) * pgsize + start + w * 4) = value := by
    intro w value index low equal
    rw [← equal]
    exact pushed.wordAt written (by omega) (by omega) (by rwa [equal])
  have array : Vm.wordAt (Vm.userByte m' c (count * pgsize))
      ((count - 1) * pgsize + start + 8) =
        (count - 1) * pgsize + start + 12 := by
    apply word (w := 2) (by omega)
    · unfold kernbase at small
      omega
    · change uintSub (count * pgsize - used) ((pointers.length + 1) * 4) = _
      unfold uintSub
      unfold kernbase pgsize maxarg at *
      norm_num
      omega
  have pointer : ∀ {i p : Nat}, pointers[i]? = some p → p < 2 ^ 32 →
      argumentAt (Vm.userByte m' c (count * pgsize))
        ((count - 1) * pgsize + start) i = p := by
    intro i p there low
    have less := (List.getElem?_eq_some_iff.mp there).1
    unfold argumentAt
    rw [array]
    have shift : (count - 1) * pgsize + start + 12 + 4 * i =
        (count - 1) * pgsize + start + (3 + i) * 4 := by omega
    rw [shift]
    exact word (by omega) low (ustack_pointer _ there)
  have string : ∀ {i : Nat} {arg : List UInt8}, argv[i]? = some arg →
      ∃ p, argumentAt (Vm.userByte m' c (count * pgsize))
          ((count - 1) * pgsize + start) i = p ∧
        p % 4 = 0 ∧ count * pgsize - used ≤ p ∧
        p + (arg.length + 1) ≤ count * pgsize ∧
        StringAt (Vm.userByte m' c (count * pgsize)) p arg ∧
        pointers[i]? = some p := by
    intro i arg found
    obtain ⟨p, there, aligned', inside', above, below, content⟩ :=
      pushed.placed.get found
    have low : p < 2 ^ 32 := by
      unfold kernbase at small
      omega
    refine ⟨p, pointer there low, aligned', above, below, ⟨?_, ?_⟩, there⟩
    · intro j short
      rw [pushed.userByte (by omega) (by omega)]
      have offset : p + j - (count - 1) * pgsize =
          p - (count - 1) * pgsize + j := by omega
      rw [offset, content j (by omega), List.getD_append _ _ _ _ short]
    · rw [pushed.userByte (by omega) (by omega)]
      have offset : p + arg.length - (count - 1) * pgsize =
          p - (count - 1) * pgsize + arg.length := by omega
      rw [offset, content arg.length (by omega),
        List.getD_append_right _ _ _ _ le_rfl, Nat.sub_self]
      rfl
  have known : ∀ {i : Nat}, i < argv.length →
      ∃ arg, argv[i]? = some arg := fun less =>
    ⟨_, List.getElem?_eq_getElem less⟩
  constructor
  case pc =>
      have first : Vm.wordAt (Vm.userByte m' c (count * pgsize))
          ((count - 1) * pgsize + start + 0 * 4) = 0xffffffff :=
        word (by omega) (by decide) rfl
      rwa [Nat.zero_mul, Nat.add_zero] at first
  case argc =>
      exact word (w := 1) (by omega) (by unfold maxarg at few; omega) length
  case array => exact array
  case null =>
      unfold argumentAt
      rw [array]
      have shift : (count - 1) * pgsize + start + 12 + 4 * argv.length =
          (count - 1) * pgsize + start + (3 + argv.length) * 4 := by omega
      rw [shift]
      apply word (by omega) (by decide)
      rw [← length]
      exact ustack_null _ _
  case string =>
      intro i arg found
      obtain ⟨p, equal, _, _, _, there, _⟩ := string found
      rw [equal]
      exact there
  case aligned =>
      refine ⟨?_, ?_⟩
      · unfold pgsize at *
        omega
      · intro i less
        obtain ⟨arg, found⟩ := known less
        obtain ⟨p, equal, even, _⟩ := string found
        rw [equal]
        exact even
  case low => omega
  case above =>
      intro i less
      obtain ⟨arg, found⟩ := known less
      obtain ⟨p, equal, _, above, _⟩ := string found
      omega
  case inside =>
      refine ⟨by omega, ?_⟩
      intro i arg found
      obtain ⟨p, equal, _, _, below, _⟩ := string found
      rw [equal]
      exact below
  case apart =>
      intro i j arg less found
      have short := (List.getElem?_eq_some_iff.mp found).1
      obtain ⟨arg', found'⟩ := known (i := i) (by omega)
      obtain ⟨p, equal, _, _, _, _, there⟩ := string found'
      obtain ⟨p', equal', _, _, _, _, there'⟩ := string found
      rw [equal, equal']
      exact pushed.placed.apart less found there there'

theorem length_ustack (sp : Nat) (pointers : List Nat) :
    (wordBytes (ustack sp pointers)).length =
      (3 + pointers.length + 1) * 4 := by
  rw [length_wordBytes]
  unfold ustack
  simp only [List.length_append, List.length_cons, List.length_nil]

/-- `sp -= (3 + argc + 1) * 4`. -/
theorem Pushed.esp
    (pushed : Pushed k dirs rest c count f used pointers argv m m')
    (few : argv.length < maxarg) :
    uintSub (count * pgsize - used) ((3 + pointers.length + 1) * 4) =
      count * pgsize - used - (3 + argv.length + 1) * 4 := by
  have two := pushed.stacked.two
  have small := pushed.stacked.small
  have inside := pushed.inside
  rw [pushed.placed.length_eq]
  unfold uintSub
  unfold kernbase pgsize maxarg at *
  norm_num
  omega

/-- The stack is built if everything fits into its page. -/
theorem buildStack_spec (fresh : c ∉ dirs) (two : 2 ≤ count)
    (image : Image k dirs rest c (count * pgsize) m m')
    (few : argv.length < maxarg)
    (short : ∀ arg ∈ argv, arg.length < kernbase) :
    wp (buildStack c argv (count * pgsize))
      (fun result m'' => ¬ Strays (count * pgsize) argv 0 ∧
        Stacked k dirs rest c count m m'' ∧
        match result with
        | some esp => stackNeed argv ≤ pgsize ∧
            Passed (userByte m'' c (count * pgsize)) (count * pgsize) esp
              argv ∧ Keeps c (count - 2) m' m''
        | none => pgsize < stackNeed argv)
      (fun reason => reason = .nullDereference ∧
        Strays (count * pgsize) argv 0) m' := by
  have small := image.small
  have guard : uintSub (count * pgsize) (2 * pgsize) =
      (count - 2) * pgsize := by
    unfold uintSub
    unfold kernbase pgsize at *
    norm_num
    omega
  unfold buildStack
  rw [guard]
  apply wp.bind (image.clearpteu fresh two).safe
  intro _ m₁ ⟨stacked, cleared⟩
  have start : Pushed k dirs rest c count (pageAt m₁ c (count - 1)) 0 [] [] m
      m₁ := by
    refine ⟨stacked, rfl, Nat.zero_le _, rfl, ?_⟩
    rw [Nat.sub_zero]
    exact Placed.nil
  have strings := pushArguments_spec fresh argv start
    (by rwa [List.length_nil, Nat.zero_add]) short
  rw [Nat.sub_zero, List.nil_append] at strings
  apply wp.bind strings
  intro result m₂ ⟨stays, outcome⟩
  cases result with
  | none =>
      obtain ⟨wide, stacked'⟩ := outcome
      rw [wp_pure]
      refine ⟨stays, stacked', ?_⟩
      unfold stackNeed
      omega
  | some result =>
      obtain ⟨sp, pointers⟩ := result
      obtain ⟨position, pushed, kept⟩ := outcome
      have base := pushed.base
      have inside := pushed.inside
      have length := pushed.placed.length_eq
      have words := length_ustack sp pointers
      rw [length] at words
      have some : 0 < (wordBytes (ustack sp pointers)).length := by omega
      dsimp only
      rw [position, pushed.esp few, ← position]
      by_cases fits : stackNeed argv ≤ pgsize
      · have need : stackUse argv 0 + (3 + argv.length + 1) * 4 ≤ pgsize :=
          fits
        have place : sp - (3 + argv.length + 1) * 4 = (count - 1) * pgsize +
            (pgsize - stackUse argv 0 - (3 + argv.length + 1) * 4) := by
          omega
        rw [place]
        apply wp.bind (pushed.stacked.copyout_inside _ some (by omega)).safe
        intro yes m₃ ⟨success, written⟩
        have last : Keeps c (count - 2) m₂ m₃ := by
          rw [written]
          exact pushed.stacked.keeps_write _
        rw [success, if_pos rfl, wp_pure]
        rw [pushed.page] at written
        have pushed' := pushed.write fresh
          (pgsize - stackUse argv 0 - (3 + argv.length + 1) * 4)
          (wordBytes (ustack sp pointers)).length (by omega)
          fun j => (wordBytes (ustack sp pointers)).getD j 0
        rw [← written] at pushed'
        refine ⟨stays, pushed'.stacked, fits, ?_,
          (cleared.trans kept).trans last⟩
        have page : m₃.pages (pageAt m₁ c (count - 1)) =
            patch (m₂.pages (pageAt m₁ c (count - 1)))
              (pgsize - stackUse argv 0 - (3 + argv.length + 1) * 4)
              (wordBytes (ustack sp pointers)).length
              fun j => (wordBytes (ustack sp pointers)).getD j 0 := by
          rw [written]
          exact Function.update_self _ _ _
        rw [position] at page
        exact pushed'.passed few (by omega) page
      · have need : pgsize < stackUse argv 0 + (3 + argv.length + 1) * 4 := by
          unfold stackNeed at fits
          omega
        have low : (3 + argv.length + 1) * 4 < pgsize := by
          unfold maxarg at few
          unfold pgsize
          omega
        have below : (count - 1) * pgsize = (count - 2) * pgsize + pgsize := by
          rw [← Nat.succ_mul, show (count - 2).succ = count - 1 by omega]
        apply wp.bind (Stacked.copyoutLoop_guard fresh _ pushed.stacked
          (by omega) (by omega) le_rfl some).safe
        intro no m₃ ⟨failure, stacked'⟩
        rw [failure, if_neg (by decide), wp_pure]
        exact ⟨stays, stacked', need⟩

end Whole

end Xv6.Vm
